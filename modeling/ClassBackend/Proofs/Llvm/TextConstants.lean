import ClassBackend.Proofs.Account.Pooling
import ClassBackend.Proofs.Llvm.Closed
import ClassBackend.Proofs.Llvm.Literals

/-! The texts of a module. The bytes of a text stand in a literal, its length in an object of its
own, and a third place has the number of bytes that the literal is for. -/
namespace ClassBackend.Llvm

open Lowering

/-- A line with a name for bytes: how many there are, and a literal that is read as them. -/
inductive LaysBytes (name : String) (bytes : List UInt8) : String → Prop
  | literal (cs : List Char) : readLiteral (cs ++ ['"']) = some (bytes, []) →
    (∀ c ∈ cs, Printable c) → LaysBytes name bytes
      ("@" ++ name ++ " = private unnamed_addr constant [" ++ toString bytes.length ++
        " x i8] c\"" ++ String.ofList cs ++ "\"")

/-- The object of text number `i`, which points at a length and at the bytes. -/
def textObject (string : ClassLayout) (i length : Nat) : Global :=
  .object (Const.str i).label Builtin.stringName (Module.header string ++
    [(.ptr, .const (.int length)), (.ptr, .symbol (Module.stringData i))])

/-- What a module has for text number `i`: its bytes with a final zero, and one object that points
at them and at the Int of their number. -/
structure HoldsText (m : Module) (t : ClassTable) (i : Nat) (s : String) : Prop where
  line : ∃ line ∈ m.lines, LaysBytes (Module.stringData i) (s.toUTF8.toList ++ [0]) line
  bytes : ∀ r, .bytes (Module.stringData i) r ∈ m.constants → r = s
  object : ∃ int string n v, t.find Builtin.intName = .ok int ∧
    t.find Builtin.stringName = .ok string ∧
    textObject string i n ∈ m.constants ∧
    (∀ g ∈ m.constants, Operand.symbol (Module.stringData i) ∈ g.operands →
      g = textObject string i n) ∧
    Module.intObject int (.int n) v ∈ m.constants ∧
    (s.utf8ByteSize < 2 ^ 63 → v.toInt = s.utf8ByteSize)

variable {t : ClassTable} {pool : Pool} {globals : List Global} {i : Nat} {s : String}

theorem bytes_lays (name s : String) :
    LaysBytes name (s.toUTF8.toList ++ [0]) (Global.bytes name s).text := by
  have lays : LaysBytes name _ _ := .literal (cString s).toList (readLiteral_cString s [])
    (cString_printable s)
  rw [List.length_append, utf8_length, String.ofList_toList] at lays
  exact lays

theorem stringData_inj {i j : Nat} (h : Module.stringData i = Module.stringData j) : i = j :=
  (numbered_inj (by decide) (by decide) h).2

theorem header_apart (k : ClassLayout) (i : Nat) :
    Operand.symbol (Module.stringData i) ∉ (Module.header k).map (·.2) := by
  intro there
  have same : Module.stringData i = Linkage.dispatchTable k.name := by
    simpa [Module.header] using there
  have plain := plainEnd_dispatchTable k.name
  rw [← same, Module.stringData, numbered_not_plainEnd] at plain
  cases plain

/-- The global has the bytes of text number `i` or points at them. -/
def Concerns (i : Nat) (g : Global) : Prop :=
  (∃ r, g = .bytes (Module.stringData i) r) ∨ Operand.symbol (Module.stringData i) ∈ g.operands

theorem object_apart (k : ClassLayout) (i : Nat) {label : String} {rest : List (Ty × Operand)}
    (h : Operand.symbol (Module.stringData i) ∉ rest.map (·.2)) {struct : String} :
    ¬Concerns i (.object label struct (Module.header k ++ rest)) := by
  rintro (⟨_, same⟩ | points)
  · cases same
  · rw [Global.operands, List.map_append, List.mem_append] at points
    exact points.elim (header_apart k i) h

/-- The bytes of text number `i` and the object that points at them. -/
def textObjects (pool : Pool) (string : ClassLayout) (i : Nat) (s : String) : List Global :=
  Module.stringObject string i (.str i) s (.int (pool.ints.idxOf (Pool.byteLength s)))

theorem mem_constants (h : Module.constantsOf t pool = .ok globals) :
    ∃ int bool string, t.find Builtin.intName = .ok int ∧ t.find Builtin.boolName = .ok bool ∧
      t.find Builtin.stringName = .ok string ∧
      ∀ g, g ∈ globals ↔
        (∃ i v, pool.ints[i]? = some v ∧ g = Module.intObject int (.int i) v) ∨
        (∃ b, g = Module.boolObject bool b) ∨
        ∃ i s, pool.strings[i]? = some s ∧ g ∈ textObjects pool string i s := by
  obtain ⟨int, bool, string, hint, hbool, hstring, rfl⟩ := constantsOf_made h
  refine ⟨int, bool, string, hint, hbool, hstring, fun g => ?_⟩
  rw [List.mem_append, List.mem_append, or_assoc]
  apply or_congr
  · rw [List.mem_map]
    simp only [List.mem_iff_getElem?, Pool.intEntries_get, Option.map_eq_some_iff]
    constructor
    · rintro ⟨_, ⟨i, v, there, rfl⟩, rfl⟩
      exact ⟨i, v, there, rfl⟩
    · rintro ⟨i, v, there, rfl⟩
      exact ⟨_, ⟨i, v, there, rfl⟩, rfl⟩
  · apply or_congr
    · simp [or_comm]
    · simp only [List.mem_flatMap, Prod.exists, List.mk_mem_zipIdx_iff_getElem?,
        Pool.stringEntries_get, Option.map_eq_some_iff, Prod.mk.injEq]
      constructor
      · rintro ⟨_, _, _, i, ⟨s, there, rfl, rfl, rfl⟩, made⟩
        exact ⟨i, s, there, made⟩
      · rintro ⟨i, s, there, made⟩
        exact ⟨_, _, _, i, ⟨s, there, rfl, rfl, rfl⟩, made⟩

theorem textObjects_inside {string : ClassLayout} {i j : Nat} {r : String} {g : Global}
    (here : pool.strings[i]? = some s) (there : pool.strings[j]? = some r)
    (made : g ∈ textObjects pool string j r)
    (about : Concerns i g) :
    g ∈ textObjects pool string i s := by
  have same : Module.stringData i = Module.stringData j := by
    simp only [textObjects, Module.stringObject, List.mem_cons, List.not_mem_nil, or_false] at made
    rcases made with rfl | rfl
    · rcases about with ⟨_, same⟩ | points
      · exact (Global.bytes.inj same).1.symm
      · cases points
    · rcases about with ⟨_, same⟩ | points
      · cases same
      · by_contra other
        exact object_apart string i (by simpa using other) (.inr points)
  cases stringData_inj same
  cases here.symm.trans there
  exact made

theorem constant_line {m : Module} {g : Global} (h : g ∈ m.constants) : g.text ∈ m.lines := by
  have line := List.mem_map_of_mem (f := Global.text) h
  simp only [Module.lines, List.mem_append]
  tauto

/-- The module has every text of the pool, those of the class names included. -/
theorem assemble_holdsTexts (p : Program) (t : ClassTable) (h : ClassTable.build p = .ok t)
    (sourceName : String) (m : Module) (assembled : Module.assemble sourceName t = .ok m) :
    ∃ unit, emitUnit backend t = .ok unit ∧
      Module.constantsOf t (Module.complete t unit.pool) = .ok m.constants ∧
      ∀ i s, (Module.complete t unit.pool).strings[i]? = some s → HoldsText m t i s := by
  obtain ⟨unit, globals, main, emitted, pooled, _, rfl⟩ := assemble_made assembled
  have measured : (Module.complete t unit.pool).Measured :=
    (emitUnit_tidy h emitted).measured.named t.classes
  refine ⟨unit, emitted, pooled, fun i s there => ?_⟩
  obtain ⟨int, bool, string, hint, _, hstring, mem⟩ := mem_constants pooled
  have text : ∀ g ∈ textObjects (Module.complete t unit.pool) string i s, g ∈ globals :=
    fun g hg => (mem g).mpr (.inr (.inr ⟨i, s, there, hg⟩))
  have pointed : ∀ g ∈ globals, Concerns i g →
      g ∈ textObjects (Module.complete t unit.pool) string i s := by
    intro g hg about
    rcases (mem g).mp hg with ⟨j, v, _, rfl⟩ | ⟨b, rfl⟩ | ⟨j, r, known, made⟩
    · exact absurd about (object_apart int i (by simp))
    · exact absurd about (object_apart bool i (by simp))
    · exact textObjects_inside there known made about
  constructor
  case line =>
    exact ⟨_, constant_line (text _ List.mem_cons_self), bytes_lays (Module.stringData i) s⟩
  case bytes =>
    intro r hr
    have made := pointed _ hr (.inl ⟨r, rfl⟩)
    simpa [textObjects, Module.stringObject] using made
  case object =>
    have pooled : Pool.byteLength s ∈ (Module.complete t unit.pool).ints :=
      measured s (List.mem_of_getElem? there)
    refine ⟨int, string, _, Pool.byteLength s, hint, hstring,
      text _ (List.mem_cons_of_mem _ List.mem_cons_self), ?_, ?_, Pool.byteLength_toInt⟩
    · intro g hg points
      have made := pointed g hg (.inr points)
      simp only [textObjects, Module.stringObject, List.mem_cons, List.not_mem_nil,
        or_false] at made
      rcases made with rfl | rfl
      · cases points
      · rfl
    · exact (mem _).mpr (.inl ⟨_, _, Pool.denotes_idxOf pooled, rfl⟩)

/-- A text with quotes, backslashes that seem to begin an escape, a line break and characters of
more than a byte. -/
def quoted : String := "\"\\22\" \\\n\té€😀"

def quoting : Program := ⟨[
  ⟨"Main", some "Object", [
    .method "main" [] "String" (some (.str ⟨"String", 1⟩ quoted))], "main.cl"⟩]⟩

theorem quoting_holdsTexts : ∃ t m i, ClassTable.build quoting.withBuiltins = .ok t ∧
    Module.assemble "main.cl" t = .ok m ∧ HoldsText m t i quoted := by
  obtain ⟨t, m, unit, built, assembled, emitted, known⟩ := bothBuilt_of_check
    (p := quoting.withBuiltins) (f := Module.assemble "main.cl") (g := emitUnit backend)
    (c := fun t _ unit => (Module.complete t unit.pool).strings[0]? == some quoted)
    (by decide +kernel)
  obtain ⟨_, again, _, holds⟩ := assemble_holdsTexts _ t built "main.cl" m assembled
  cases emitted.symm.trans again
  exact ⟨t, m, 0, built, assembled, holds 0 quoted (eq_of_beq known)⟩

end ClassBackend.Llvm
