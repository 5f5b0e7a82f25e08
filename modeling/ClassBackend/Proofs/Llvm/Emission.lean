import ClassBackend.Proofs.Lowering.Simulation
import ClassBackend.Proofs.Llvm.Conventions

/-! What the operations of the backend append to the block that is being filled. -/
namespace ClassBackend.Llvm

open Lowering

/-- More instructions, the last of which may close the block. -/
def Builder.extend (b : Body) (is : List Instr) (last : Bool) : Body :=
  { b with current :=
    { b.current with instrs := b.current.instrs ++ is.toArray, terminated := last } }

def Builder.opened (b : Body) (l : Label) : Body where
  allocas := b.allocas
  closed := b.closed.push
    (if b.current.terminated then b.current else (b.extend [.br l] true).current)
  current := { label := l }

def State.body? (t : State) : Option Body := t.function.map (·.body)

section

variable {b b' : Body} {i : Instr} {is js : List Instr} {last : Bool} {l : Label}

@[simp] theorem Builder.extend_extend :
    (b.extend is false).extend js last = b.extend (is ++ js) last := by
  simp [Builder.extend]

@[simp] theorem Builder.extend_allocas : (b.extend is last).allocas = b.allocas := rfl
@[simp] theorem Builder.extend_closed : (b.extend is last).closed = b.closed := rfl

@[simp] theorem Builder.extend_label : (b.extend is last).current.label = b.current.label := rfl

@[simp] theorem Builder.extend_terminated : (b.extend is last).current.terminated = last := rfl

theorem builder_emit_ok :
    b.emit i = .ok b' ↔ b.current.terminated = false ∧ b' = b.extend [i] false := by
  unfold Builder.emit
  cases h : b.current.terminated with
  | true => simp
  | false => simp [Builder.extend, h, eq_comm]

theorem builder_terminate_ok :
    b.terminate i = .ok b' ↔ b.current.terminated = false ∧ b' = b.extend [i] true := by
  unfold Builder.terminate
  cases h : b.emit i with
  | ok d =>
    obtain ⟨unclosed, rfl⟩ := builder_emit_ok.mp h
    simp [unclosed, Builder.extend, eq_comm]
  | error e =>
    cases closed : b.current.terminated with
    | true => simp
    | false => simp [Builder.emit, closed] at h

theorem builder_startBlock_ok : b.startBlock l = .ok b' ↔ b' = b.opened l := by
  unfold Builder.startBlock Builder.opened
  cases h : b.current.terminated with
  | true => simp [bind, Except.bind, pure, Except.pure, eq_comm]
  | false =>
    have closed : b.terminate (CodeText.branch Temp l) = .ok (b.extend [.br l] true) :=
      builder_terminate_ok.mpr ⟨h, rfl⟩
    simp [bind, Except.bind, pure, Except.pure, closed, eq_comm]

end

variable {t t' t'' : State} {u : Unit} {v : Operand} {i : Instr} {is js : List Instr}
variable {last : Bool}

theorem body_ok {f : Body → Except Fault Body} (h : Gen.body f t = .ok (u, t')) :
    ∃ b b', t.body? = some b ∧ f b = .ok b' ∧ t'.body? = some b' ∧ t'.fresh = t.fresh := by
  unfold Gen.body at h
  split at h
  · contradiction
  · rename_i g open_
    split at h
    · rename_i b run
      cases h
      exact ⟨g.body, b, by simp [State.body?, open_], run, rfl, rfl⟩
    · contradiction

/-- The second state has more instructions in its block, and what they assign is fresh. -/
structure Adds (t : State) (is : List Instr) (last : Bool) (t' : State) : Prop where
  body : ∃ b, t.body? = some b ∧ b.current.terminated = false ∧
    t'.body? = some (b.extend is last)
  next : t.fresh.next ≤ t'.fresh.next
  assigned : ∀ q rhs, Instr.assign q rhs ∈ is → t.fresh.next ≤ q.id ∧ q.id < t'.fresh.next

theorem Adds.trans (h : Adds t is false t') (k : Adds t' js last t'') :
    Adds t (is ++ js) last t'' := by
  obtain ⟨b, open_, unclosed, there⟩ := h.body
  obtain ⟨b', open', _, there'⟩ := k.body
  cases there.symm.trans open'
  refine ⟨⟨b, open_, unclosed, by rw [there', Builder.extend_extend]⟩,
    Nat.le_trans h.next k.next, fun q rhs mem => ?_⟩
  have first := h.next
  have second := k.next
  rcases List.mem_append.mp mem with mem | mem
  · have := h.assigned q rhs mem
    omega
  · have := k.assigned q rhs mem
    omega

def Plain (is : List Instr) : Prop := ∀ q rhs, Instr.assign q rhs ∉ is

theorem emit_adds (plain : Plain [i]) (h : Gen.emit i t = .ok (u, t')) :
    Adds t [i] false t' ∧ t'.fresh = t.fresh := by
  obtain ⟨b, b', open_, run, there, fresh⟩ := body_ok h
  obtain ⟨unclosed, rfl⟩ := builder_emit_ok.mp run
  exact ⟨⟨⟨b, open_, unclosed, there⟩, Nat.le_of_eq (by rw [fresh]),
    fun q rhs mem => absurd mem (plain q rhs)⟩,
    fresh⟩

theorem terminate_adds (plain : Plain [i]) (h : Gen.terminate i t = .ok (u, t')) :
    Adds t [i] true t' ∧ t'.fresh = t.fresh := by
  obtain ⟨b, b', open_, run, there, fresh⟩ := body_ok h
  obtain ⟨unclosed, rfl⟩ := builder_terminate_ok.mp run
  exact ⟨⟨⟨b, open_, unclosed, there⟩, Nat.le_of_eq (by rw [fresh]),
    fun q rhs mem => absurd mem (plain q rhs)⟩,
    fresh⟩

theorem temp_ok {q : Temp} (h : Gen.temp t = .ok (q, t')) :
    q = ⟨t.fresh.next⟩ ∧ t'.body? = t.body? ∧ t'.fresh.next = t.fresh.next + 1 := by
  simp only [Gen.temp, Fresh.temp, Except.ok.injEq, Prod.mk.injEq] at h
  obtain ⟨rfl, rfl⟩ := h
  exact ⟨rfl, rfl, rfl⟩

theorem assign_adds {rhs : Rhs} (h : Gen.assign rhs t = .ok (v, t')) :
    v = .temp ⟨t.fresh.next⟩ ∧ t'.fresh.next = t.fresh.next + 1 ∧
      Adds t [.assign ⟨t.fresh.next⟩ rhs] false t' := by
  simp only [Gen.assign, bind_ok, pure_ok] at h
  obtain ⟨q, t₁, drawn, _, t₂, emitted, rfl, rfl⟩ := h
  obtain ⟨rfl, open₁, next₁⟩ := temp_ok drawn
  obtain ⟨b, b', open_, run, there, fresh⟩ := body_ok emitted
  obtain ⟨unclosed, rfl⟩ := builder_emit_ok.mp run
  have next : t₂.fresh.next = t.fresh.next + 1 := by rw [fresh, next₁]
  refine ⟨rfl, next, ⟨b, open₁ ▸ open_, unclosed, there⟩, by omega, fun q rhs' mem => ?_⟩
  cases List.mem_singleton.mp mem
  exact ⟨Nat.le_refl _, by rw [next]; exact Nat.lt_succ_self _⟩

theorem closeArm_ok {v : Operand} {b : BlockName} {arm : Operand × Label}
    (h : Gen.closeArm v b t = .ok (arm, t')) : Gen.jump b t = .ok ((), t') ∧
      ∃ d, t.body? = some d ∧ arm = (v, d.current.label) := by
  simp only [Gen.closeArm, bind_ok, pure_ok] at h
  obtain ⟨l, t₁, first, u, t₂, jumped, rfl, rfl⟩ := h
  unfold Gen.currentLabel at first
  split at first
  · rename_i f open_
    cases first
    exact ⟨jumped, f.body, by rw [State.body?, open_]; rfl, rfl⟩
  · contradiction

theorem fieldIndex_ok {slot index : Nat} (h : fieldIndex slot = .ok index) :
    index = Machine.headerWords + slot := by
  unfold fieldIndex at h
  split at h
  · cases h
    rfl
  · contradiction

theorem assemble_made {sourceName : String} {classes : ClassTable} {m : Module}
    (h : Module.assemble sourceName classes = .ok m) :
    ∃ s constants main, emitUnit backend classes = .ok s ∧
      Module.constantsOf classes (Module.complete classes s.pool) = .ok constants ∧
      classes.find Builtin.mainName = .ok main ∧
      m = {
        sourceName
        structs := Module.structsOf classes
        dispatchTables := Module.dispatchTablesOf classes
        constants
        classTables := Module.classTablesOf classes (Module.complete classes s.pool)
        declarations := Module.declarationsOf classes
        functions := s.target.functions.toList
        main } := by
  obtain ⟨s, emitted, made⟩ := except_bind_ok.mp h
  unfold Module.ofState at made
  split at made
  · contradiction
  · simp only [Module.build, except_bind_ok, except_pure_ok] at made
    obtain ⟨constants, pooled, main, found, rfl⟩ := made
    exact ⟨s, constants, main, emitted, pooled, found, rfl⟩

end ClassBackend.Llvm
