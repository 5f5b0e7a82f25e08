import ClassBackend.Proofs.Layout.Builtins
import ClassBackend.Proofs.Llvm.Calls
import ClassBackend.Proofs.Lowering.Sound

/-! The code of an expression on the machine for LLVM IR. -/
namespace ClassBackend.Llvm

open Meaning Machine Lowering

namespace Scenario

variable (X : Scenario)

/-- The run begins where the code of the session ends, with these names in scope, these slots in
use and these saved values at hand. -/
structure Enters (s : Session backend) (names : List (String × Binding Operand))
    (K : List (Slot backend)) (H : List (Operand × Val)) (env : Env) : Prop where
  scope : ∃ marks, s.scopes.Shows s.names names marks
  shape : ∃ O, Shape s.target K O
  live : Live names K H
  firm : Firm s.target K
  at_ : X.At .here s.target ⟨[], X.start, X.view⟩
  held : X.course.Held X.view X.start.memory
  image : ∀ a x, X.image a = some x → X.start.memory a = some x
  allocas : ∀ q ∈ X.site.body.allocas, X.start.temps q = X.slotAt q
  self : X.site.self = X.view.place X.setting.self
  env : List.Forall₂ ((X.model 0).Means ⟨[], X.start, X.view⟩) names env
  saved : ∀ e ∈ H, X.SlotHas ⟨[], X.start, X.view⟩ (.inr e.1) e.2

/-- The run has come to where the code of the session ends: the operand has the value, memory holds
the store, the slots hold the variables, and what the run has shown are the events of the store. -/
structure Leaves (s : Session backend) (names : List (String × Binding Operand))
    (K : List (Slot backend)) (H : List (Operand × Val)) (v : Operand) (x : Val) (w : World)
    (c : Point) : Prop where
  runs : X.site.engine.Runs X.start c.seen c.config
  at_ : X.At .here s.target c
  value : c.view.Rep x (X.eval c v)
  store : c.view.store = w.store
  grown : X.view.Extends c.view
  held : X.course.Held c.view c.config.memory
  env : List.Forall₂ ((X.model 0).Means c) names w.env
  saved : ∀ e ∈ H, X.SlotHas c (.inr e.1) e.2
  tells : X.course.Tells c.seen c.view w.store.trace

variable {X}

theorem means_mono {V V' : View 64} {k : Call} {e : Event} (grown : V.Extends V')
    (h : X.means V k e) : X.means V' k e := by
  cases e with
  | branch b => exact h
  | allocate tag => exact h
  | call label recv args => exact ⟨h.1, h.2.1, h.2.2.imp fun _ _ => View.Rep.mono grown⟩
  | equality a b => exact ⟨h.1, h.2.imp fun _ _ => View.Rep.mono grown⟩
  | barrier o i =>
    obtain ⟨target, r, rfl, live, words⟩ := h
    refine ⟨target, r, rfl, Nat.lt_of_lt_of_le live grown.1, ?_⟩
    rw [grown.2 r live]
    exact words
  | abort kind file line => exact h

/-- What `lower` emits for an expression computes what the expression means. -/
theorem lower_computes (p : Program) (ordinary : p.Ordinary)
    (built : ClassTable.build p.withBuiltins = .ok X.setting.classes)
    (current : X.setting.current ∈ X.setting.classes.classes)
    (calculates : X.Calculates) (framed : X.Framed) (tables : X.Tables)
    (conventions : X.Conventions) (e : Expr) {s s' : Session backend} {v : Operand}
    (lowered : lower backend X.setting.context e s = .ok (v, s'))
    (placed : (X.model 0).Placed s s') {names : List (String × Binding Operand)}
    {K : List (Slot backend)} {H : List (Operand × Val)} {env : Env}
    (start : X.Enters s names K H env) (rounds : Nat) :
    match evaluate X.setting rounds e ⟨env, X.view.store⟩ with
    | .ok (x, w) => ∃ c, X.Leaves s' names K H v x w c
    | .error stop => ∃ os V, X.course.Stops os V stop := by
  have law : (X.model (K.length + depth e)).Lawful X.setting :=
    lawful framed tables conventions ⟨⟨_, built⟩, current⟩ calculates
  have plain : X.setting.Plain :=
    ⟨fun _ found => ClassTable.int_layout ordinary built found,
      fun _ found => ClassTable.bool_layout ordinary built found⟩
  have steady : X.course.Steady := fun _ _ _ _ grown => means_mono grown
  have ready : X.Ready ⟨[], X.start, X.view⟩ :=
    ⟨.start, start.held, start.image, start.allocas, start.self⟩
  have stands : (X.model (K.length + depth e)).Stands (depth e) names K H .here [] [] s
      ⟨env, X.view.store⟩ ⟨[], X.start, X.view⟩ :=
    ⟨⟨ready, rfl, start.firm, start.at_⟩, Nat.le_refl _, start.env, start.saved, by simp, by simp⟩
  have outcome := lower_arrives rounds law (fun _ => plain) ⟨⟨_, built⟩, current⟩ e lowered placed
    (Nat.le_refl _) start.scope start.shape start.live stands
  cases result : evaluate X.setting rounds e ⟨env, X.view.store⟩ with
  | ok r =>
    obtain ⟨x, w⟩ := r
    rw [result] at outcome
    obtain ⟨c, there⟩ := outcome
    have located := there.located
    refine ⟨c, located.along.runs, located.at_, ?_, located.store, located.along.extends,
      located.held, there.env, there.saved, ?_⟩
    · exact (there.values (v, x) (List.mem_singleton_self _)).2
    · rw [← located.store]
      exact located.along.tells steady
  | error stop =>
    rw [result] at outcome
    exact Course.stops_of_ends steady outcome

end Scenario

end ClassBackend.Llvm
