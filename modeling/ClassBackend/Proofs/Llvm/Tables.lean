import ClassBackend.Proofs.Account.Interning
import ClassBackend.Proofs.Layout.Overriding
import ClassBackend.Proofs.Llvm.Emission
import ClassBackend.Proofs.Llvm.Steps

/-! The dispatch tables of a module, and the indirect calls that go through them. -/
namespace ClassBackend.Llvm

open Machine Lowering

def Global.name : Global → String
  | .pointers n _ | .object n _ _ | .bytes n _ | .records n _ _ => n

/-- The entries of the first global of that name, if it is an array of pointers. -/
def pointersAt (name : String) (globals : List Global) : List String :=
  match globals.find? (·.name == name) with
  | some (.pointers _ entries) => entries
  | _ => []

def Module.globals (m : Module) : List Global := m.dispatchTables ++ m.constants ++ m.classTables

theorem constantsOf_made {classes : ClassTable} {pool : Pool} {globals : List Global}
    (h : Module.constantsOf classes pool = .ok globals) :
    ∃ int bool string, classes.find Builtin.intName = .ok int ∧
      classes.find Builtin.boolName = .ok bool ∧ classes.find Builtin.stringName = .ok string ∧
      globals = pool.intEntries.map (fun (c, v) => Module.intObject int c v) ++
        [Module.boolObject bool false, Module.boolObject bool true] ++
        pool.stringEntries.zipIdx.flatMap fun ((c, s, length), i) =>
          Module.stringObject string i c s length := by
  simp only [Module.constantsOf, except_bind_ok, except_pure_ok] at h
  obtain ⟨int, hint, bool, hbool, string, hstring, entries, listed, rfl⟩ := h
  obtain ⟨_, rfl⟩ := Pool.stringEntries_ok.mp listed
  exact ⟨int, bool, string, hint, hbool, hstring, rfl⟩

theorem text_of_line {m : Module} {line : String} (h : line ∈ m.lines) :
    ∃ before after, m.text = before ++ line ++ "\n" ++ after := by
  obtain ⟨first, last, whole⟩ := List.append_of_mem h
  refine ⟨String.join (first.map (· ++ "\n")), String.join (last.map (· ++ "\n")), ?_⟩
  rw [Module.text, whole, List.map_append, List.map_cons, String.join_append, String.join_cons]
  simp only [String.append_assoc]

/-- The memory holds the tables of pointers where their names say. -/
def Loaded (symbol : String → BitVec 64) (globals : List Global) (mem : Memory 64) : Prop :=
  ∀ name i entry, (pointersAt name globals)[i]? = some entry →
    mem (symbol name + BitVec.ofNat 64 (slotSize * i)) = some (symbol entry)

def Operand.linked (symbol : String → BitVec 64) : Operand → Option (BitVec 64)
  | .const k => some (symbol k.label)
  | .symbol s => some (symbol s)
  | .null => some 0
  | .int n => some (BitVec.ofInt 64 n)
  | .self | .arg _ | .temp _ => none

section Memory

/-- The words of a global that code reads: those of a table of pointers, or of rows of structs. -/
def Global.cells : Global → List Operand
  | .pointers _ entries => entries.map .symbol
  | .records _ _ rows => rows.flatMap (·.map (·.2))
  | .object .. | .bytes .. => []

/-- The addresses of names, at this distance from each other. -/
def addressIn (gap : Nat) (names : List String) (s : String) : BitVec 64 :=
  BitVec.ofNat 64 (gap * (names.idxOf s + 1))

/-- The globals in memory, each at its address, and the word `x` around them. -/
def inMemory (gap : Nat) (symbol : String → BitVec 64) (globals : List Global)
    (x : BitVec 64) : Memory 64 := fun a =>
  some (((globals[a.toNat / gap - 1]?).bind fun g =>
    (g.cells[a.toNat % gap / slotSize]?).bind (·.linked symbol)).getD x)

variable {gap i j : Nat} {symbol : String → BitVec 64} {globals : List Global} {x w : BitVec 64}
variable {g : Global} {o : Operand} {names : List String} {name : String}

theorem getElem?_idxOf (found : globals.find? (·.name == name) = some g) :
    globals[(globals.map (·.name) ++ names).idxOf name]? = some g := by
  induction globals with
  | nil => cases found
  | cons q globals ih =>
    rw [List.map_cons, List.cons_append, List.idxOf_cons]
    rw [List.find?_cons] at found
    cases same : q.name == name with
    | true =>
      rw [same] at found
      exact found
    | false =>
      rw [same] at found
      exact ih found

theorem inMemory_cell (known : globals[i]? = some g) (cell : g.cells[j]? = some o)
    (linked : o.linked symbol = some w) (inside : slotSize * g.cells.length ≤ gap)
    (room : gap * (globals.length + 1) ≤ 18446744073709551616) :
    inMemory gap symbol globals x
      (BitVec.ofNat 64 (gap * (i + 1)) + BitVec.ofNat 64 (slotSize * j)) = some w := by
  obtain ⟨low, _⟩ := List.getElem?_eq_some_iff.mp known
  obtain ⟨few, _⟩ := List.getElem?_eq_some_iff.mp cell
  have first : slotSize * j < gap := by
    unfold slotSize at *
    omega
  have last : gap * (i + 1) + slotSize * j < 18446744073709551616 := by
    have step : gap * (i + 1) + gap ≤ gap * (globals.length + 1) :=
      Nat.mul_le_mul_left gap (show i + 1 + 1 ≤ globals.length + 1 by omega)
    omega
  have here : (BitVec.ofNat 64 (gap * (i + 1)) + BitVec.ofNat 64 (slotSize * j)).toNat =
      slotSize * j + gap * (i + 1) := by
    rw [← BitVec.ofNat_add, BitVec.toNat_ofNat, Nat.mod_eq_of_lt last, Nat.add_comm]
  have index : (slotSize * j + gap * (i + 1)) / gap - 1 = i := by
    rw [Nat.add_mul_div_left _ _ (by omega), Nat.div_eq_of_lt first]
    omega
  have offset : (slotSize * j + gap * (i + 1)) % gap / slotSize = j := by
    rw [Nat.add_mul_mod_self_left, Nat.mod_eq_of_lt first]
    exact Nat.mul_div_cancel_left j (by decide)
  rw [inMemory, here, index, offset, known, Option.bind_some, cell, Option.bind_some, linked]
  rfl

/-- What every global of the module has room for. -/
def Module.stride : Nat := 1048576

/-- The addresses of the globals and functions of a module. -/
def Module.address (m : Module) : String → BitVec 64 :=
  addressIn stride (m.globals.map (·.name) ++ m.functions.map (·.label))

def Module.memory (m : Module) (x : BitVec 64) : Memory 64 :=
  inMemory stride m.address m.globals x

def Module.free (m : Module) : Nat := stride * (m.globals.length + m.functions.length + 2)

/-- The globals fit in their places, and there is room for an object behind all symbols. -/
def Module.Fits (m : Module) : Prop :=
  (∀ g ∈ m.globals, slotSize * g.cells.length ≤ stride) ∧
    m.free + stride ≤ 18446744073709551616

instance (m : Module) : Decidable m.Fits := by
  unfold Module.Fits
  infer_instance

theorem Module.Fits.cell {m : Module} (fits : m.Fits)
    (found : m.globals.find? (·.name == name) = some g) (cell : g.cells[j]? = some o)
    (linked : o.linked m.address = some w) :
    m.memory x (m.address name + BitVec.ofNat 64 (slotSize * j)) = some w :=
  inMemory_cell (getElem?_idxOf found) cell linked (fits.1 _ (List.mem_of_find?_eq_some found)) (by
    have room := fits.2
    simp only [Module.free, Module.stride] at room ⊢
    omega)

theorem Module.Fits.free {m : Module} (fits : m.Fits) {n : Nat} (near : n < stride) :
    m.memory x (BitVec.ofNat 64 m.free + BitVec.ofNat 64 n) = some x := by
  have room := fits.2
  have here : (BitVec.ofNat 64 m.free + BitVec.ofNat 64 n).toNat = m.free + n := by
    rw [← BitVec.ofNat_add, BitVec.toNat_ofNat]
    exact Nat.mod_eq_of_lt (by omega)
  have beyond : m.globals[(m.free + n) / stride - 1]? = none := by
    refine List.getElem?_eq_none ?_
    have far : m.globals.length + m.functions.length + 2 ≤ (m.free + n) / stride :=
      (Nat.le_div_iff_mul_le (by decide)).mpr (by rw [Nat.mul_comm]; exact Nat.le_add_right ..)
    omega
  rw [Module.memory, inMemory, here, beyond]
  rfl

/-- Globals in memory are loaded. -/
theorem Module.Fits.loaded {m : Module} (fits : m.Fits) :
    Loaded m.address m.globals (m.memory x) := by
  intro name i entry at_
  unfold pointersAt at at_
  split at at_
  · rename_i n entries found
    refine fits.cell found (o := .symbol entry) ?_ rfl
    rw [Global.cells, List.getElem?_map, at_]
    rfl
  · cases at_

end Memory

theorem exec_assign {u : Site} {c : Config} {t : Temp} {rhs : Rhs} {x : BitVec 64}
    (h : u.value c rhs = some x) (is : List Instr) :
    u.exec (.assign t rhs :: is) c = u.exec is (c.assign t x) := by
  rw [Site.exec, h]
  rfl

theorem eval_assign (u : Site) (c : Config) (t : Temp) (x : BitVec 64) :
    u.eval (c.assign t x).temps (.temp t) = x := Function.update_self ..

end ClassBackend.Llvm
