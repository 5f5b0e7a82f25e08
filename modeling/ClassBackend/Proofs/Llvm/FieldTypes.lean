import ClassBackend.Proofs.Layout.Fields
import ClassBackend.Proofs.Llvm.Barriers

/-! Typed access to objects. An address is that of a stack slot, of an entry of a table of pointers,
or of an element of a struct; what is loaded or stored there has the type that stands there, and the
struct has that element. -/
namespace ClassBackend.Llvm

open Lowering

variable {t : ClassTable} {s : String} {i : Nat} {ty : Ty} {a : Operand}

/-- The struct of that class has that element, with that type. -/
def Declared (t : ClassTable) (s : String) (i : Nat) (ty : Ty) : Prop :=
  ∃ k ∈ t.classes, k.name = s ∧ (structTypes k)[i]? = some ty

/-- An element of an object, or of a row that was found in the table of class objects. -/
inductive Element (t : ClassTable) (ls : List Line) : String → Operand → Nat → Ty → Prop
  | object {s : String} {base : Operand} {i : Nat} {ty : Ty} :
    Declared t s i ty → Element t ls s base i ty
  | row {r : Temp} {n : Operand} {i : Nat} {ty : Ty} :
    .instr (.assign r (.row classObject (.symbol Linkage.classObjects) n)) ∈ ls →
    classObjectTypes[i]? = some ty → Element t ls classObject (.temp r) i ty

/-- The address is computed in these lines, and has a word of that type. -/
inductive Leads (t : ClassTable) (ls : List Line) : Operand → Ty → Prop
  | slot {q : Temp} : .alloca q ∈ ls → Leads t ls (.temp q) .ptr
  | element {q : Temp} {s : String} {base : Operand} {i : Nat} {ty : Ty} :
    .instr (.assign q (.element s base i)) ∈ ls → Element t ls s base i ty →
    Leads t ls (.temp q) ty
  | entry {q : Temp} {base : Operand} {n : Nat} :
    .instr (.assign q (.entry base n)) ∈ ls → Leads t ls (.temp q) .ptr

/-- What the allocator is asked for: an object of a class, or of the class with the tag by which a
row of the table of class objects was found, with the size and the dispatch table from there. -/
inductive Sized (t : ClassTable) (ls : List Line) : List (Ty × Operand) → Prop
  | header {k : ClassLayout} : k ∈ t.classes → Sized t ls [(.i64, .int k.tag),
    (.i64, .int (slotSize * (structTypes k).length : Nat)),
    (.ptr, .symbol (Linkage.dispatchTable k.name))]
  | row {r p q size table : Temp} {tag : Operand} :
    .instr (.assign r (.row classObject (.symbol Linkage.classObjects) tag)) ∈ ls →
    .instr (.assign p (.element classObject (.temp r) 1)) ∈ ls →
    .instr (.assign size (.load .i64 (.temp p))) ∈ ls →
    .instr (.assign q (.element classObject (.temp r) 2)) ∈ ls →
    .instr (.assign table (.load .ptr (.temp q))) ∈ ls →
    Sized t ls [(.i64, tag), (.i64, .temp size), (.ptr, .temp table)]

/-- The instruction is fine among these lines. -/
def Suits (t : ClassTable) (ls : List Line) : Instr → Prop
  | .assign _ (.element s base i) => ∃ ty, Element t ls s base i ty
  | .assign _ (.load ty a) | .store ty _ a => Leads t ls a ty
  | .assign _ (.call _ f args) => f = .symbol Routine.gcAlloc.symbol → Sized t ls args
  | .callVoid f _ => f ≠ .symbol Routine.gcAlloc.symbol
  | _ => True

theorem declared_of_class {k : ClassLayout} (hk : k ∈ t.classes)
    (there : (structTypes k)[i]? = some ty) : Declared t k.name i ty :=
  ⟨k, hk, rfl, there⟩

theorem structTypes_length (k : ClassLayout) :
    (structTypes k).length = headerFields + k.fields.length := by
  rw [structTypes, List.length_append, List.length_map]
  rfl

theorem header_eq (k : ClassLayout) : Module.header k = [(.i64, .int k.tag),
    (.i64, .int (slotSize * (structTypes k).length : Nat)),
    (.ptr, .symbol (Linkage.dispatchTable k.name))] := by
  rw [structTypes_length]
  rfl

section Code

variable {ls ls' : List Line} {ins : Instr}

theorem Element.mono {base : Operand} (h : Element t ls s base i ty) (grown : ls ⊆ ls') :
    Element t ls' s base i ty := by
  cases h with
  | object declared => exact .object declared
  | row there type => exact .row (grown there) type

theorem Leads.mono (h : Leads t ls a ty) (grown : ls ⊆ ls') : Leads t ls' a ty := by
  cases h with
  | slot there => exact .slot (grown there)
  | element there element => exact .element (grown there) (element.mono grown)
  | entry there => exact .entry (grown there)

theorem Sized.mono {args : List (Ty × Operand)} (h : Sized t ls args) (grown : ls ⊆ ls') :
    Sized t ls' args := by
  cases h with
  | header hk => exact .header hk
  | row row address size pointer table =>
    exact .row (grown row) (grown address) (grown size) (grown pointer) (grown table)

theorem Suits.mono (h : Suits t ls ins) (grown : ls ⊆ ls') : Suits t ls' ins := by
  cases ins with
  | br | condBr | ret | unreachable => trivial
  | store ty v a => exact Leads.mono h grown
  | callVoid f args => exact h
  | assign q rhs =>
    cases rhs with
    | row | entry | arith | compare | phi => trivial
    | element s base i => exact h.imp fun _ element => element.mono grown
    | load ty a => exact Leads.mono h grown
    | call ty f args => exact fun alloc => (h alloc).mono grown

end Code

section Listings

variable {slots slots' : List Temp} {is js : List CodeLine} {ins : Instr}

def CodeLine.line? : CodeLine → Option Line
  | .instr i => some (.instr i)
  | .define .. | .block _ => none

/-- The lines of a function with these slots and this code. -/
def linesOf (slots : List Temp) (is : List CodeLine) : List Line :=
  slots.map .alloca ++ is.filterMap CodeLine.line?

theorem instr_mem_linesOf : .instr ins ∈ linesOf slots is ↔ CodeLine.instr ins ∈ is := by
  rw [linesOf, List.mem_append, List.mem_map, List.mem_filterMap]
  constructor
  · rintro (⟨q, _, same⟩ | ⟨c, hc, same⟩)
    · cases same
    · cases c <;> cases same
      exact hc
  · exact fun there => .inr ⟨_, there, rfl⟩

theorem alloca_mem_linesOf {q : Temp} : .alloca q ∈ linesOf slots is ↔ q ∈ slots := by
  rw [linesOf, List.mem_append, List.mem_map, List.mem_filterMap]
  constructor
  · rintro (⟨q, hq, same⟩ | ⟨c, _, same⟩)
    · cases same
      exact hq
    · cases c <;> cases same
  · exact fun there => .inl ⟨q, there, rfl⟩

theorem linesOf_mono (more : slots ⊆ slots') (grown : is ⊆ js) :
    linesOf slots is ⊆ linesOf slots' js := by
  intro l there
  cases l with
  | alloca q => exact alloca_mem_linesOf.mpr (more (alloca_mem_linesOf.mp there))
  | instr ins => exact instr_mem_linesOf.mpr (grown (instr_mem_linesOf.mp there))

/-- The code is fine in itself, in a function with these slots. -/
def Typed (t : ClassTable) (slots : List Temp) (is : List CodeLine) : Prop :=
  ∀ ins, .instr ins ∈ is → Suits t (linesOf slots is) ins

theorem Typed.mono (h : Typed t slots is) (more : slots ⊆ slots') : Typed t slots' is :=
  fun ins there => (h ins there).mono (linesOf_mono more (List.Subset.refl _))

theorem Typed.append (h : Typed t slots is) (h' : Typed t slots js) :
    Typed t slots (is ++ js) := by
  intro ins there
  rcases List.mem_append.mp there with there | there
  · exact (h ins there).mono (linesOf_mono (List.Subset.refl _) (List.subset_append_left ..))
  · exact (h' ins there).mono (linesOf_mono (List.Subset.refl _) (List.subset_append_right ..))

theorem Typed.nil : Typed t slots [] := fun _ there => absurd there List.not_mem_nil

theorem Typed.snoc (h : Typed t slots is)
    (fine : Suits t (linesOf slots (is ++ [.instr ins])) ins) :
    Typed t slots (is ++ [.instr ins]) := by
  intro other there
  rcases List.mem_append.mp there with there | there
  · exact (h other there).mono (linesOf_mono (List.Subset.refl _) (List.subset_append_left ..))
  · cases List.mem_singleton.mp there
    exact fine

theorem Typed.one (fine : Suits t (linesOf slots [.instr ins]) ins) :
    Typed t slots [.instr ins] := Typed.nil.snoc fine

theorem Typed.mark {c : CodeLine} (silent : c.line? = none) : Typed t slots [c] := by
  intro ins there
  cases List.mem_singleton.mp there
  cases silent

end Listings

variable {st st' st₁ : State} {v p obj : Operand} {α β : Type}

def Types (t : ClassTable) (st st' : State) : Prop :=
  ∃ js, Grows js st st' ∧ Typed t st'.slots js

theorem Types.refl (st : State) : Types t st st := ⟨[], .refl st, .nil⟩

theorem Types.trans (h : Types t st st₁) (h' : Types t st₁ st') : Types t st st' := by
  obtain ⟨is, grows, typed⟩ := h
  obtain ⟨js, grows', typed'⟩ := h'
  exact ⟨is ++ js, grows.trans grows', (typed.mono grows'.slots).append typed'⟩

def Sound (t : ClassTable) (m : Gen α) : Prop := ∀ st a st', m st = .ok (a, st') → Types t st st'

section Operations

theorem Sound.ret (a : α) : Sound t (pure a) := by
  intro st b st' run
  obtain ⟨_, rfl⟩ := pure_ok.mp run
  exact .refl st

theorem Sound.bind {m : Gen α} {f : α → Gen β} (h : Sound t m) (k : ∀ a, Sound t (f a)) :
    Sound t (m >>= f) := by
  intro st b st' run
  obtain ⟨a, st₁, first, second⟩ := bind_ok.mp run
  exact (h st a st₁ first).trans (k a st₁ b st' second)

theorem Sound.emit {i : Instr} (fine : ∀ ls, .instr i ∈ ls → Suits t ls i) :
    Sound t (Gen.emit i) :=
  fun _ _ _ run => ⟨_, emit_grows run, .one (fine _ (instr_mem_linesOf.mpr List.mem_cons_self))⟩

theorem Sound.terminate {i : Instr} (fine : ∀ ls, .instr i ∈ ls → Suits t ls i) :
    Sound t (Gen.terminate i) := fun _ _ _ run =>
  ⟨_, terminate_grows run, .one (fine _ (instr_mem_linesOf.mpr List.mem_cons_self))⟩

theorem Sound.assign {rhs : Rhs}
    (fine : ∀ q ls, .instr (.assign q rhs) ∈ ls → Suits t ls (.assign q rhs)) :
    Sound t (Gen.assign rhs) := by
  intro st v st' run
  obtain ⟨q, _, grows⟩ := assign_grows run
  exact ⟨_, grows, .one (fine q _ (instr_mem_linesOf.mpr List.mem_cons_self))⟩

theorem Sound.call {f : Operand} (other : f ≠ .symbol Routine.gcAlloc.symbol) (ty : Ty)
    (args : List (Ty × Operand)) : Sound t (Gen.assign (.call ty f args)) :=
  .assign fun _ _ _ same => absurd same other

theorem Sound.callVoid {f : Operand} (other : f ≠ .symbol Routine.gcAlloc.symbol)
    (args : List (Ty × Operand)) : Sound t (Gen.emit (.callVoid f args)) :=
  .emit fun _ _ => other

theorem located_typed {rhs : Rhs} {ins : Instr} {q : Temp} {slots : List Temp}
    (fine : ∀ q ls, .instr (.assign q rhs) ∈ ls → Suits t ls (.assign q rhs))
    (use : ∀ ls, .instr (.assign q rhs) ∈ ls → Suits t ls ins) :
    Typed t slots ([.instr (.assign q rhs)] ++ [.instr ins]) := by
  have address : Typed t slots [.instr (.assign q rhs)] :=
    .one (fine q _ (instr_mem_linesOf.mpr List.mem_cons_self))
  exact address.snoc (use _ (instr_mem_linesOf.mpr (by simp)))

theorem Sound.through {rhs : Rhs} {f : Operand → Gen α}
    (fine : ∀ q ls, .instr (.assign q rhs) ∈ ls → Suits t ls (.assign q rhs))
    (leads : ∀ q ls, .instr (.assign q rhs) ∈ ls → Leads t ls (.temp q) ty)
    (k : ∀ r, Sound t (f (.temp r))) :
    Sound t (Gen.assign rhs >>= fun p => Gen.assign (.load ty p) >>= f) := by
  intro st x st' run
  obtain ⟨p, st₁, located, run⟩ := bind_ok.mp run
  obtain ⟨v, st₂, loaded, rest⟩ := bind_ok.mp run
  obtain ⟨q, rfl, first⟩ := assign_grows located
  obtain ⟨r, rfl, second⟩ := assign_grows loaded
  have both : Types t st st₂ := ⟨_, first.trans second, located_typed fine (leads q)⟩
  exact both.trans (k r st₂ x st' rest)

theorem Sound.load {f : Operand → Gen α} (declared : Declared t s i ty) (base : Operand)
    (k : ∀ r, Sound t (f (.temp r))) :
    Sound t (Gen.assign (.element s base i) >>= fun p => Gen.assign (.load ty p) >>= f) :=
  .through (fun _ _ _ => ⟨ty, .object declared⟩)
    (fun _ _ there => .element there (.object declared)) k

theorem Sound.loaded (declared : Declared t s i ty) (base : Operand) :
    Sound t (Gen.assign (.element s base i) >>= fun p => Gen.assign (.load ty p)) := by
  have whole := Sound.load declared base fun r => Sound.ret (t := t) (Operand.temp r)
  simpa only [bind_pure] using whole

theorem Sound.store (declared : Declared t s i ty) (base v : Operand) :
    Sound t (Gen.assign (.element s base i) >>= fun p => Gen.emit (.store ty v p)) := by
  intro st u st' run
  obtain ⟨p, st₁, located, stored⟩ := bind_ok.mp run
  obtain ⟨q, rfl, first⟩ := assign_grows located
  exact ⟨_, first.trans (emit_grows stored), located_typed (fun _ _ _ => ⟨ty, .object declared⟩)
    fun _ there => .element there (.object declared)⟩

theorem fieldAddress_bind {k : ClassLayout} {f : Operand → Gen α} {x : α}
    (run : (Gen.fieldAddress obj k i >>= f) st = .ok (x, st')) :
    (Gen.assign (.element k.name obj (3 + i)) >>= f) st = .ok (x, st') := by
  unfold Gen.fieldAddress at run
  cases known : fieldIndex i with
  | ok index =>
    rw [known] at run
    cases fieldIndex_ok known
    exact run
  | error e =>
    rw [known] at run
    cases run

theorem Sound.field {k : ClassLayout} {f : Operand → Gen α}
    (h : Sound t (Gen.assign (.element k.name obj (3 + i)) >>= f)) :
    Sound t (Gen.fieldAddress obj k i >>= f) :=
  fun st x st' run => h st x st' (fieldAddress_bind run)

theorem Sound.newBlock (hint : String) : Sound t (Gen.newBlock hint) := by
  intro st b st' run
  cases run
  exact ⟨[], (Grows.refl _).redrawn, .nil⟩

theorem Sound.switchTo (b : BlockName) : Sound t (Gen.switchTo b) := by
  intro st u st' run
  have label : Typed t st'.slots [.block (.block b)] := .mark rfl
  have jump : Typed t st'.slots [.instr (.br (.block b))] := .one trivial
  obtain grows | grows := switchTo_grows run
  · exact ⟨_, grows, label⟩
  · exact ⟨_, grows, jump.append label⟩

theorem Sound.currentLabel : Sound t Gen.currentLabel := by
  intro st l st' run
  unfold Gen.currentLabel at run
  split at run <;> cases run
  exact .refl st

theorem Sound.branchOn (op : Relop) (ty : Ty) (a b : Operand) (yes no : BlockName) :
    Sound t (Gen.branchOn op ty a b yes no) :=
  .bind (.assign fun _ _ _ => trivial) fun _ => .terminate fun _ _ => trivial

theorem header_declared {k : ClassLayout} (hk : k ∈ t.classes) :
    Declared t k.name 0 .i64 ∧ Declared t k.name 2 .ptr :=
  ⟨declared_of_class hk rfl, declared_of_class hk rfl⟩

theorem classElement_types {row : Temp} {n : Operand} {is : List CodeLine}
    (found : .instr (.assign row (.row classObject (.symbol Linkage.classObjects) n)) ∈ is)
    (type : classObjectTypes[i]? = some ty)
    (run : Gen.classElement (.temp row) i ty st = .ok (v, st')) :
    ∃ js p q, v = .temp q ∧ Grows js st st' ∧
      (∀ slots, Typed t slots is → Typed t slots (is ++ js)) ∧
      .instr (.assign p (.element classObject (.temp row) i)) ∈ js ∧
      .instr (.assign q (.load ty (.temp p))) ∈ js := by
  obtain ⟨p, st₁, located, loaded⟩ := bind_ok.mp run
  obtain ⟨p, rfl, first⟩ := assign_grows located
  obtain ⟨q, rfl, second⟩ := assign_grows loaded
  refine ⟨_, p, q, rfl, first.trans second, fun slots before => ?_, by simp, by simp⟩
  rw [← List.append_assoc]
  have element {ls : List Line}
      (there : .instr (.assign row (.row classObject (.symbol Linkage.classObjects) n)) ∈ ls) :
      Element t ls classObject (.temp row) i ty := .row there type
  have address : Typed t slots (is ++ [.instr (.assign p (.element classObject (.temp row) i))]) :=
    before.snoc ⟨ty, element (instr_mem_linesOf.mpr (by simp [found]))⟩
  refine address.snoc (.element ?_ (element ?_))
  all_goals exact instr_mem_linesOf.mpr (by simp [found])

theorem newSelfType_sound (header : Declared t Builtin.objectName 0 .i64) :
    Sound t Gen.newSelfType := by
  unfold Gen.newSelfType Gen.loadTag Gen.headerAddress
  rw [bind_assoc]
  refine Sound.load header .self fun tag => ?_
  intro st v st' run
  simp only [bind_ok] at run
  obtain ⟨_, s₁, row, _, s₂, size, _, s₃, table, _, s₄, init, _, s₅, made, called⟩ := run
  obtain ⟨r, rfl, g₁⟩ := assign_grows row
  have found : .instr (.assign r (.row classObject (.symbol Linkage.classObjects) (.temp tag))) ∈
      [CodeLine.instr (.assign r
        (.row classObject (.symbol Linkage.classObjects) (.temp tag)))] := List.mem_cons_self
  obtain ⟨is₂, p, size, rfl, g₂, typed₂, address, sizes⟩ :=
    classElement_types (t := t) found rfl size
  have found := List.mem_append_left is₂ found
  obtain ⟨is₃, q, table, rfl, g₃, typed₃, pointer, tables⟩ :=
    classElement_types (t := t) found rfl table
  have found := List.mem_append_left is₃ found
  obtain ⟨is₄, _, init, rfl, g₄, typed₄, _⟩ :=
    classElement_types (t := t) found rfl init
  obtain ⟨obj, rfl, g₅⟩ := assign_grows made
  obtain ⟨_, _, g₆⟩ := assign_grows called
  have entries := typed₄ st'.slots (typed₃ _ (typed₂ _ (.one trivial)))
  have whole := ((((g₁.trans g₂).trans g₃).trans g₄).trans g₅).trans g₆
  refine ⟨_, whole, Typed.snoc (Typed.snoc entries ?_) ?_⟩
  · refine fun _ => .row (r := r) (p := p) (q := q) ?_ ?_ ?_ ?_ ?_
    all_goals exact instr_mem_linesOf.mpr (by simp [address, sizes, pointer, tables])
  · exact fun same => by cases same

theorem callDynamic_sound (header : Declared t Builtin.objectName 2 .ptr) (recv : Operand)
    (slot : Nat) (args : List Operand) : Sound t (Gen.callDynamic recv slot args) :=
  .load header recv fun _ => .through (fun _ _ _ => trivial) (fun _ _ there => .entry there)
    fun _ => .assign fun _ _ _ same => by cases same

theorem slotFor_types (run : Gen.slotFor v st = .ok (p, st')) :
    Types t st st' ∧ ∃ q ∈ st'.slots, p = .temp q := by
  obtain ⟨q, there, rfl, grows⟩ := slotFor_grows run
  exact ⟨⟨_, grows, .one (.slot (alloca_mem_linesOf.mpr there))⟩, q, there, rfl⟩

theorem storeField_sound {k : ClassLayout} (field : Declared t k.name (3 + i) .ptr)
    (obj v : Operand) : Sound t (Gen.storeField obj k i v) :=
  .field (.store field obj v)

theorem writeBarrier_sound {k : ClassLayout} (field : Declared t k.name (3 + i) .ptr)
    (obj : Operand) : Sound t (Gen.writeBarrier obj k i) :=
  .field (.bind (.assign fun _ _ _ => ⟨_, .object field⟩) fun _ => .callVoid (by decide) _)

theorem allocate_sound {k : ClassLayout} (hk : k ∈ t.classes) : Sound t (Gen.allocate k) :=
  .assign fun _ _ _ _ => by
    rw [header_eq]
    exact .header hk

theorem boxInt_sound {k : ClassLayout} (hk : k ∈ t.classes)
    (word : Declared t k.name (3 + k.ownStart) .i64) (raw : Operand) :
    Sound t (Gen.boxInt raw k) := by
  refine .bind (allocate_sound hk) fun obj => ?_
  have stored : Sound t (Gen.fieldAddress obj k k.ownStart >>= fun p =>
      Gen.emit (.store .i64 raw p)) := .field (.store word obj raw)
  have whole := stored.bind fun _ => Sound.ret (t := t) obj
  simpa only [bind_assoc] using whole

theorem merge_sound (arms : List (Operand × Label)) (join : BlockName) :
    Sound t (Gen.merge arms join) := by
  refine .bind (.switchTo join) fun _ => ?_
  split
  · exact .ret _
  · exact .assign fun _ _ _ => trivial

/-- The code of a unit, watched for the types of its accesses. -/
def typing (t : ClassTable) : Tally backend where
  adds _ := Types t
  slot st a := ∃ q ∈ st.slots, a = .temp q
  cls k := k ∈ t.classes
  word k := k ∈ t.classes ∧ Declared t k.name (3 + k.ownStart) .i64
  field k i := Declared t k.name (3 + i) .ptr

theorem typing_lawful (object : ∃ k ∈ t.classes, k.name = Builtin.objectName) :
    (typing t).Lawful := by
  obtain ⟨k, hk, name⟩ := object
  have header := header_declared hk
  rw [name] at header
  exact {
    refl := .refl
    trans := .trans
    kept := fun ⟨_, grows, _⟩ ⟨q, hq, same⟩ => ⟨q, grows.slots hq, same⟩
    constant := fun _ => Sound.ret _
    allocLocal := slotFor_types
    freeLocal := fun _ => Sound.ret _
    loadLocal := fun ⟨q, hq, same⟩ run => by
      obtain ⟨r, _, grows⟩ := assign_grows (same ▸ run)
      exact ⟨_, grows, .one (.slot (alloca_mem_linesOf.mpr (grows.slots hq)))⟩
    storeLocal := fun ⟨q, hq, same⟩ run => by
      have grows := emit_grows (same ▸ run)
      exact ⟨_, grows, .one (.slot (alloca_mem_linesOf.mpr (grows.slots hq)))⟩
    loadField := fun obj _ _ field => Sound.field (.loaded field obj)
    storeField := fun field run =>
      Sound.bind (storeField_sound field _ _) (fun _ => writeBarrier_sound field _) _ _ _ run
    preserve := fun _ => Sound.ret _
    restore := fun _ => Sound.ret _
    unbox := fun v _ word => Sound.field (.loaded word.2 v)
    boxInt := fun raw _ word => boxInt_sound word.1 word.2 raw
    rawWord := fun _ => Sound.ret _
    arith := fun _ _ _ => Sound.assign fun _ _ _ => trivial
    negate := fun _ => Sound.assign fun _ _ _ => trivial
    loadTag := fun v => Sound.loaded header.1 v
    newBlock := Sound.newBlock
    switchTo := Sound.switchTo
    jump := fun _ => Sound.terminate fun _ _ => trivial
    branchRaw := fun _ _ _ _ _ => Sound.branchOn _ _ _ _ _ _
    branchVoid := fun _ _ _ => Sound.branchOn _ _ _ _ _ _
    branchSame := fun _ _ _ _ => Sound.branchOn _ _ _ _ _ _
    closeArm := fun _ _ => Sound.bind .currentLabel fun _ =>
      .bind (.terminate fun _ _ => trivial) fun _ => .ret _
    merge := merge_sound
    allocate := allocate_sound
    callInit := fun k _ => Sound.call (by simpa using initializer_unlike k.name (by decide)) _ _
    newSelfType := newSelfType_sound header.1
    callEquality := fun _ _ => Sound.call (by decide) _ _
    callDirect := fun known _ _ =>
      Sound.call (by simpa using methodLabel_unlike known (by decide)) _ _
    callDynamic := fun recv _ slot args => callDynamic_sound header.2 recv slot args
    abort := fun kind _ _ => Sound.bind (.callVoid (by cases kind <;> decide) _) fun _ =>
      .terminate fun _ _ => trivial }

end Operations

end ClassBackend.Llvm
