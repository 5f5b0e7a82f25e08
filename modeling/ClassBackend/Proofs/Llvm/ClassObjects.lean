import ClassBackend.Proofs.Llvm.Tables
import ClassBackend.Proofs.Text.Numeral

/-! The table of class objects of a module, and the code that looks classes up in it. A row has what
the allocator is asked for and the initializer to call, for the class with the tag that the row is
counted by. -/
namespace ClassBackend.Llvm

open Machine Lowering

variable {t : ClassTable}

/-- The struct and the rows of the first global of that name, if it is an array of structs. -/
def recordsAt (name : String) (globals : List Global) :
    Option (String × List (List (Ty × Operand))) :=
  match globals.find? (·.name == name) with
  | some (.records _ struct rows) => some (struct, rows)
  | _ => none

def objectRow (k : ClassLayout) : List (Ty × Operand) :=
  Module.header k ++ [(.ptr, .symbol (Linkage.initializer k.name))]

/-- Row number `n` of the table is about the class with the tag `n`. -/
structure Module.Describes (m : Module) (t : ClassTable) : Prop where
  struct : m.structs.find? (·.name == classObject) = some ⟨classObject, classObjectTypes⟩
  rows : recordsAt Linkage.classObjects m.globals =
    some (classObject, t.classes.map objectRow)
  numbered : ∀ (n : Nat) (k : ClassLayout), t.classes[n]? = some k → k.tag = n
  text : ∃ before after, m.text = before ++
    (Global.records Linkage.classObjects classObject (t.classes.map objectRow)).text ++ "\n" ++
      after

theorem dispatchTable_ne_classObjects (cls : String) :
    Linkage.dispatchTable cls ≠ Linkage.classObjects := by
  intro same
  have suffix : "_dispTab".toList <:+ Linkage.classObjects.toList := by
    rw [← same, Linkage.dispatchTable, String.toList_append]
    exact List.suffix_append ..
  exact absurd suffix (by decide)

theorem stringData_ne_classObjects (i : Nat) : Module.stringData i ≠ Linkage.classObjects := by
  intro same
  have plain : plainEnd (Module.stringData i) = true := by
    rw [same]
    decide
  rw [Module.stringData, numbered_not_plainEnd] at plain
  contradiction

theorem constants_ne_classObjects {pool : Pool} {globals : List Global}
    (h : Module.constantsOf t pool = .ok globals) :
    ∀ g ∈ globals, g.name ≠ Linkage.classObjects := by
  obtain ⟨int, bool, string, _, _, _, rfl⟩ := constantsOf_made h
  have label (c : Const) : c.label ≠ Linkage.classObjects := Const.label_ne (by decide)
  intro g mem
  rcases List.mem_append.mp mem with mem | mem
  · rcases List.mem_append.mp mem with mem | mem
    · obtain ⟨⟨c, v⟩, _, rfl⟩ := List.mem_map.mp mem
      exact label c
    · simp only [List.mem_cons, List.not_mem_nil, or_false] at mem
      obtain rfl | rfl := mem
      · exact label (.bool false)
      · exact label (.bool true)
  · obtain ⟨⟨⟨c, s, length⟩, i⟩, _, made⟩ := List.mem_flatMap.mp mem
    simp only [Module.stringObject, List.mem_cons, List.not_mem_nil, or_false] at made
    obtain rfl | rfl := made
    · exact stringData_ne_classObjects i
    · exact label c

theorem assemble_describes {p : Program} (built : ClassTable.build p = .ok t) {source : String}
    {m : Module} (h : Module.assemble source t = .ok m) : m.Describes t := by
  obtain ⟨s, constants, main, _, listed, _, rfl⟩ := assemble_made h
  constructor
  · rfl
  · have tables : ∀ g ∈ Module.dispatchTablesOf t ++ constants,
        ¬ (g.name == Linkage.classObjects) = true := by
      intro g mem
      rw [beq_iff_eq]
      rcases List.mem_append.mp mem with mem | mem
      · obtain ⟨k, _, rfl⟩ := List.mem_map.mp mem
        exact dispatchTable_ne_classObjects k.name
      · exact constants_ne_classObjects listed g mem
    unfold recordsAt Module.globals
    rw [List.find?_append, List.find?_eq_none.mpr tables]
    rfl
  · exact fun n k at_ => ClassTable.tag_of_getElem? built at_
  · refine text_of_line ?_
    have table : Global.records Linkage.classObjects classObject (t.classes.map objectRow) ∈
        Module.classTablesOf t (Module.complete t s.pool) := List.mem_cons_self
    have line := List.mem_map_of_mem (f := Global.text) table
    simp only [Module.lines, List.mem_append]
    tauto

/-- The run comes to this call, and makes no other on the way. -/
def Site.Comes (u : Site) (c c' : Config) (k : Call)
    (back : BitVec 64 × Memory 64 → Config) : Prop :=
  u.engine.Runs c [] c' ∧ u.step c' = .calls k ((u.outside k).map back)

/-- The call of the allocator for an object of the class. -/
def Site.allocates (u : Site) (k : ClassLayout) (mem : Memory 64) : Call :=
  ⟨u.symbol Routine.gcAlloc.symbol, [BitVec.ofNat 64 k.tag, BitVec.ofNat 64 (objectSize k),
    u.symbol (Linkage.dispatchTable k.name)], mem⟩

def Site.initializes (u : Site) (k : ClassLayout) (r : BitVec 64 × Memory 64) : Call :=
  ⟨u.symbol (Linkage.initializer k.name), [r.1], r.2⟩

/-- The next `n` instructions make an object of the class: the allocator is called, and then the
initializer on its result; the operand is the answer. Either call may not come back. -/
def Site.Creates (u : Site) (k : ClassLayout) (c : Config) (n : Nat) (v : Operand) : Prop :=
  ∃ c₁ back₁, u.Comes c c₁ (u.allocates k c.memory) back₁ ∧
    ∀ r, u.outside (u.allocates k c.memory) = some r →
      ∃ c₂ back₂, u.Comes (back₁ r) c₂ (u.initializes k r) back₂ ∧
        ∀ r', u.outside (u.initializes k r) = some r' →
          (back₂ r').label = c.label ∧ (back₂ r').index = c.index + n ∧
            (back₂ r').memory = r'.2 ∧ u.eval (back₂ r').temps v = r'.1

def Site.Has (u : Site) (l : Label) (n : Nat) (is : List Instr) : Prop :=
  Laid (u.body.instr? l) (fun _ => True) n is

section Runs

variable {u : Site} {c c' : Config} {is : List Instr} {i : Instr}

theorem Site.Has.step (h : u.Has c.label c.index (i :: is)) : u.step c = u.perform c i := by
  have here : u.body.instr? c.label c.index = some i := h.head.1
  simp only [Site.step, here]

end Runs

section New

variable {u : Site} {k : ClassLayout} {c : Config}

/-- The element of the struct is in the temporary after the one that has its address. -/
structure Site.Reads (u : Site) (n : Nat) (ty : Ty) (struct : String) (base : Operand) (j : Nat)
    (x : BitVec 64) (c c' : Config) : Prop where
  run : ∀ is, u.exec (.assign ⟨n⟩ (.element struct base j) ::
    .assign ⟨n + 1⟩ (.load ty (.temp ⟨n⟩)) :: is) c = u.exec is c'
  memory : c'.memory = c.memory
  word : u.eval c'.temps (.temp ⟨n + 1⟩) = x
  kept : ∀ i < n, u.eval c'.temps (.temp ⟨i⟩) = u.eval c.temps (.temp ⟨i⟩)

/-- With routines that answer, there is a run to the end, and it shows these two calls. -/
theorem Site.Creates.runs {n : Nat} {v : Operand} {r r' : BitVec 64 × Memory 64}
    (h : u.Creates k c n v) (alloc : u.outside (u.allocates k c.memory) = some r)
    (init : u.outside (u.initializes k r) = some r') :
    ∃ c', u.engine.Runs c [.call (u.allocates k c.memory), .call (u.initializes k r)] c' ∧
      c'.label = c.label ∧ c'.index = c.index + n ∧ c'.memory = r'.2 ∧
      u.eval c'.temps v = r'.1 := by
  obtain ⟨c₁, back₁, ⟨runs₁, calls₁⟩, h⟩ := h
  obtain ⟨c₂, back₂, ⟨runs₂, calls₂⟩, h⟩ := h r alloc
  rw [alloc] at calls₁
  rw [init] at calls₂
  exact ⟨back₂ r', (Engine.Runs.calls runs₁ calls₁).trans (.calls runs₂ calls₂), h r' init⟩

end New

section Emission

variable {k : ClassLayout} {st st₁ st' : State} {v obj : Operand}

end Emission

end ClassBackend.Llvm
