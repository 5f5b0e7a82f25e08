import ClassBackend.Proofs.Account.Laws
import ClassBackend.Proofs.Llvm.Reaching

/-! The account of names in the functions of the native backend: the symbols and the struct types
that instructions refer to. -/
namespace ClassBackend.Llvm

open Lowering

def vocabulary : Vocabulary where
  artifacts := [.initializer, .dispatchTable]
  others := Linkage.classObjects :: Linkage.classNames :: Routine.all.map Routine.symbol

def Operand.symbol? : Operand → Option String
  | .const c => some c.label
  | .symbol s => some s
  | _ => none

def Instr.reads (i : Instr) : List Operand := i.operands ++ i.incoming.map (·.1)

/-- A struct type that every module has, or that of a class. -/
def StructName (t : ClassTable) (s : String) : Prop :=
  s = classObject ∨ ∃ k ∈ t.classes, k.name = s

variable {t : ClassTable} {w w' u : Directory} {p q : Pool} {s s' : State} {i : Instr} {v : Operand}
variable {b b' : Body} {x : Unit}

/-- The operand stands for nothing but what may be named. -/
def Resolves (t : ClassTable) (p : Pool) (v : Operand) : Prop :=
  ∀ s, v.symbol? = some s → Nameable vocabulary t p s

structure Fine (t : ClassTable) (p : Pool) (i : Instr) : Prop where
  reads : ∀ v ∈ i.reads, Resolves t p v
  structs : ∀ s ∈ i.structs, StructName t s

def AllFine (t : ClassTable) (p : Pool) (b : Body) : Prop :=
  ∀ c ∈ b.blocks, ∀ i ∈ c.instrs.toList, Fine t p i

section Growth

theorem Resolves.mono (h : Resolves t p v) (grown : PoolLe p q) : Resolves t q v :=
  fun s hs => (h s hs).mono grown

theorem AllFine.mono (h : AllFine t p b) (grown : PoolLe p q) : AllFine t q b :=
  fun c hc i hi => ⟨fun v hv => ((h c hc i hi).reads v hv).mono grown, (h c hc i hi).structs⟩

theorem AllFine.extend (h : AllFine t p b) (fine : Fine t p i) (last : Bool) :
    AllFine t p (b.extend [i] last) := by
  intro c hc j hj
  rcases List.mem_append.mp hc with closed | current
  · exact h c (List.mem_append_left _ closed) j hj
  · cases List.mem_singleton.mp current
    rw [Builder.extend, Array.toList_append, List.mem_append] at hj
    rcases hj with old | new
    · exact h _ (List.mem_append_right _ (List.mem_singleton_self _)) j old
    · cases List.mem_singleton.mp new
      exact fine

theorem fine_jump (l : Label) : Fine t p (.br l) :=
  ⟨by simp [Instr.reads, Instr.operands, Instr.incoming, Instr.incoming?], by simp [Instr.structs]⟩

theorem AllFine.opened (h : AllFine t p b) (l : Label) : AllFine t p (b.opened l) := by
  have closed : ∀ c ∈ (b.opened l).closed.toList, ∀ i ∈ c.instrs.toList, Fine t p i := by
    intro c hc i hi
    rw [Builder.opened, Array.toList_push, List.mem_append, List.mem_singleton] at hc
    rcases hc with old | rfl
    · exact h c (List.mem_append_left _ old) i hi
    · split at hi
      · exact h _ (List.mem_append_right _ (List.mem_singleton_self _)) i hi
      · refine h.extend (fine_jump l) true _ ?_ i hi
        exact List.mem_append_right _ (List.mem_singleton_self _)
  intro c hc i hi
  rcases List.mem_append.mp hc with old | current
  · exact closed c old i hi
  · cases List.mem_singleton.mp current
    simp [Builder.opened] at hi

end Growth

/-- The functions and the pool of emission are those of the directory. -/
structure Stands (t : ClassTable) (w : Directory) (p : Pool) (s : State) : Prop where
  pool : w.pool = p
  measured : p.Measured
  labels : w.labels = (s.functions.toList ++ s.function.toList).map (·.label)
  fine : ∀ f ∈ s.functions.toList ++ s.function.toList, AllFine t p f.body

theorem Stands.resolves (h : Stands t w p s) (hv : Resolves t p v) : Resolves t w.pool v :=
  h.pool ▸ hv

theorem Stands.step (h : Stands t w p s) {g : Body → Except Fault Body}
    (run : Gen.body g s = .ok (x, s'))
    (keeps : ∀ b b', g b = .ok b' → AllFine t p b → AllFine t p b') : Stands t w p s' := by
  obtain ⟨f, b, there, changed, rfl⟩ := body_inv run
  have own := h.fine f (by simp [there])
  refine ⟨h.pool, h.measured, by simpa [there] using h.labels, fun g hg => ?_⟩
  rcases List.mem_append.mp hg with done | current
  · exact h.fine g (List.mem_append_left _ done)
  · cases List.mem_singleton.mp current
    exact keeps _ _ changed own

theorem Stands.fresh (h : Stands t w p s) (f : Fresh) : Stands t w p { s with fresh := f } :=
  ⟨h.pool, h.measured, h.labels, h.fine⟩

theorem emit_stands (h : Stands t w p s) (run : Gen.emit i s = .ok (x, s')) (fine : Fine t p i) :
    Stands t w p s' :=
  h.step run fun _ _ emitted old => by
    rw [(builder_emit_ok.mp emitted).2]
    exact old.extend fine false

theorem terminate_stands (h : Stands t w p s) (run : Gen.terminate i s = .ok (x, s'))
    (fine : Fine t p i) : Stands t w p s' :=
  h.step run fun _ _ emitted old => by
    rw [(builder_terminate_ok.mp emitted).2]
    exact old.extend fine true

theorem assign_stands {rhs : Rhs} (h : Stands t w p s) (run : Gen.assign rhs s = .ok (v, s'))
    (fine : ∀ r, Fine t p (.assign r rhs)) : Stands t w p s' ∧ Resolves t p v := by
  simp only [Gen.assign, bind_ok, pure_ok] at run
  obtain ⟨r, s₁, drawn, _, s₂, emitted, rfl, rfl⟩ := run
  cases drawn
  exact ⟨emit_stands (h.fresh _) emitted (fine _), by simp [Resolves, Operand.symbol?]⟩

theorem slotFor_stands {a : Operand} (h : Stands t w p s) (run : Gen.slotFor v s = .ok (a, s'))
    (hv : Resolves t p v) : Stands t w p s' ∧ Resolves t p a := by
  simp only [Gen.slotFor, bind_ok, pure_ok] at run
  obtain ⟨r, s₁, drawn, _, s₂, placed, _, s₃, stored, rfl, rfl⟩ := run
  cases drawn
  have slot : Stands t w p s₂ :=
    (h.fresh _).step placed fun _ _ made old => by cases made; exact old
  have temp (r : Temp) : Resolves t p (.temp r) := by simp [Resolves, Operand.symbol?]
  refine ⟨emit_stands slot stored ⟨?_, by simp [Instr.structs]⟩, temp _⟩
  simpa [Instr.reads, Instr.operands, Instr.incoming, Instr.incoming?] using ⟨hv, temp _⟩

theorem switchTo_stands {c : BlockName} (h : Stands t w p s)
    (run : Gen.switchTo c s = .ok (x, s')) : Stands t w p s' :=
  h.step run fun _ _ opened old => by
    rw [builder_startBlock_ok.mp opened]
    exact old.opened _

@[reducible] def naming (t : ClassTable) : Ledger where
  World := Directory
  le := Directory.Le
  later := Directory.Le
  idle L p s := s.function = none ∧ Stands t ⟨p, L⟩ p s
  inside := Stands t
  shut := Stands t
  frame w L _ := w.labels = L
  const := Directory.Holds
  has w := Resolves t w.pool
  struct := StructName t
  entered w _ u := u.Le w
  arm w _ a := Resolves t w.pool a.1
  cls k := k ∈ t.classes
  label := t.Labels

section Laws

theorem naming_ordered : (naming t).account.Ordered where
  refl := Directory.Le.refl
  trans := Directory.Le.trans
  later_trans := Directory.Le.trans
  later h := h
  const known h := h.mono known
  value known h := h.mono known.pool
  raw known h := h.mono known.pool
  slot known h := h.mono known.pool
  saved known h := h.mono known.pool
  frame known h := known.labels.symm.trans h
  entered known h := h.trans known
  arm known h := h.mono known.pool

theorem resolves_symbol {name : String} (h : Nameable vocabulary t p name) :
    Resolves t p (.symbol name) := fun _ hs => by cases hs; exact h

theorem naming_reads (object : StructName t Builtin.objectName) : (naming t).Reads where
  self := by simp [Resolves, Operand.symbol?]
  null := by simp [Resolves, Operand.symbol?]
  int := by simp [Resolves, Operand.symbol?]
  literal h _ hs := by
    cases hs
    exact h.elim fun _ => .const
  bool := Directory.holds_bool _ _
  routine r := resolves_symbol (.other (by cases r <;> decide))
  objects := resolves_symbol (.other (by decide))
  table hk := resolves_symbol (.artifact (a := .dispatchTable) hk (by decide))
  initializer hk := resolves_symbol (.artifact (a := .initializer) hk (by decide))
  method h := by
    obtain ⟨k, hk, m, hm, rfl⟩ := h
    exact resolves_symbol (.method hk hm)
  own hk := .inr ⟨_, hk, rfl⟩
  header := object
  row := .inl rfl

theorem fine_instr (reads : ∀ v ∈ i.operands, Resolves t p v)
    (structs : ∀ s ∈ i.structs, StructName t s) (plain : i.incoming = []) : Fine t p i :=
  ⟨by simpa [Instr.reads, plain] using reads, structs⟩

theorem naming_steps : (naming t).Steps where
  pool {w _ q _} there grown measured := ⟨⟨q, w.labels⟩, ⟨there.pool ▸ grown, rfl⟩,
    ⟨rfl, measured there.measured, there.labels, fun f hf => (there.fine f hf).mono grown⟩,
    fun _ l h => ⟨l, h⟩⟩
  emit reads structs _ plain _ := fun _ _ _ _ there run =>
    ⟨_, .refl _, emit_stands there run (there.pool ▸ fine_instr reads structs plain), trivial⟩
  assign reads structs plain := fun _ _ _ _ there run => by
    obtain ⟨stands, has⟩ := assign_stands there run fun r =>
      there.pool ▸ fine_instr reads structs (plain r)
    exact ⟨_, .refl _, stands, there.resolves has⟩
  slotFor hv := fun _ _ _ _ there run => by
    obtain ⟨stands, has⟩ := slotFor_stands there run (there.pool ▸ hv)
    exact ⟨_, .refl _, stands, there.resolves has⟩
  terminate reads structs _ plain _ := fun _ _ _ _ there run =>
    ⟨_, .refl _, terminate_stands there run
      (there.pool ▸ fine_instr reads (by simp [structs]) plain), trivial⟩

theorem naming_joins : (naming t).Joins where
  newBlock _ known := fun _ _ _ _ there run => by
    cases run
    exact ⟨_, .refl _, there.fresh _, known⟩
  nextBlock _ known there run := by
    cases run
    exact ⟨_, .refl _, there.fresh _, known⟩
  switchTo known := fun _ _ _ _ there run =>
    ⟨_, .refl _, known, switchTo_stands there run, trivial⟩
  closeArm {w _ _ _} hv _ _ := fun p s a s' there run => by
    obtain ⟨left, _, _, rfl⟩ := closeArm_ok run
    exact ⟨w, .refl w, terminate_stands there left (fine_jump _), hv⟩
  merge {w u arms join} known harms := fun p s a s' there run => by
    obtain ⟨_, s₁, placed, rest⟩ := bind_ok.mp run
    have stands := switchTo_stands there placed
    by_cases none : arms.isEmpty = true
    · rw [if_pos none] at rest
      obtain ⟨rfl, rfl⟩ := pure_ok.mp rest
      exact ⟨w, .refl w, known, stands, by simp [Resolves, Operand.symbol?]⟩
    · rw [if_neg none] at rest
      obtain ⟨stands, has⟩ := assign_stands stands rest fun r => by
        refine ⟨?_, by simp [Instr.structs, Rhs.structs]⟩
        simp only [Instr.reads, Instr.operands, Rhs.operands, Instr.incoming, Instr.incoming?,
          List.nil_append, Option.getD_some, List.forall_mem_map]
        exact fun a ha => stands.pool ▸ harms a ha
      exact ⟨w, .refl w, known, stands, stands.resolves has⟩

theorem naming_balanced (object : StructName t Builtin.objectName) : (naming t).Balanced where
  toOrdered := naming_ordered
  toReads := naming_reads object
  toSteps := naming_steps
  toJoins := naming_joins

end Laws

section Functions

theorem naming_framed : (naming t).account.Framed where
  start := ⟨rfl, rfl, by simp [Pool.Measured], rfl, by simp⟩
  beginFunction {L p s s' label n} there run := by
    obtain ⟨idle, stands⟩ := there
    cases run
    refine ⟨⟨p, L ++ [label]⟩, ⟨rfl, stands.measured, ?_, fun f hf => ?_⟩, rfl⟩
    · simpa [idle] using stands.labels
    · rcases List.mem_append.mp hf with done | new
      · exact stands.fine f (List.mem_append_left _ done)
      · cases List.mem_singleton.mp new
        simp [AllFine, Builder.new, Builder.blocks]
  formal {w L i n} _ _ := naming_steps.slotFor (by simp [Resolves, Operand.symbol?])
  endFunction {w L p s s' v n} there frame hv run := by
    obtain ⟨_, s₁, ended, rest⟩ := bind_ok.mp run
    have stands : Stands t w p s₁ := terminate_stands there ended
      (there.pool ▸ fine_instr (by simpa [Instr.operands] using hv) (by simp [Instr.structs]) rfl)
    cases open_ : s₁.function with
    | none => simp [open_] at rest
    | some f =>
      simp only [open_, Except.ok.injEq, Prod.mk.injEq, true_and] at rest
      subst rest
      have labels := stands.labels
      have fine := stands.fine
      refine ⟨rfl, rfl, stands.measured, ?_, ?_⟩
      · simpa [open_, ← show w.labels = L from frame] using labels
      · simpa [open_] using fine

theorem naming_knows {k : ClassLayout} (hk : k ∈ t.classes) : (naming t).account.Knows ⟨t, k⟩ where
  find found := ClassTable.mem_of_find found
  current := hk
  label known found := ClassTable.labels_of_methodLabel known found

/-- What the functions of a unit refer to may be named. -/
theorem emitUnit_stands (object : StructName t Builtin.objectName)
    (h : Resolved.emitUnit backend t = .ok (p, s)) :
    s.function = none ∧ Stands t ⟨p, t.functions⟩ p s :=
  Account.emitUnit_idle naming_framed (naming_balanced object).lawful
    (fun _ hk => naming_knows hk) h

end Functions

end ClassBackend.Llvm
