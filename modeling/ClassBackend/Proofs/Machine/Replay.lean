import ClassBackend.Proofs.Machine.Run

/-! Replaying a run. A step leaves no choice, code outside included, so the calls of a run that
comes to an end within some number of steps are a list that can be computed. -/
namespace ClassBackend.Machine

open Meaning Lowering

namespace Engine

variable {w : Nat} {K : Type} (E : Engine w K)

def next (c : E.Config) : Option E.Config :=
  match E.step c with
  | .moves c' | .writes _ _ c' | .branches _ c' => some c'
  | .calls _ back => back
  | .traps | .stuck => none

def after : Nat → E.Config → Option E.Config
  | 0, c => some c
  | n + 1, c => (E.next c).bind (after n)

def called (c : E.Config) : Option K :=
  match E.step c with
  | .calls k _ => some k
  | _ => none

def calls (n : Nat) (c : E.Config) : List K :=
  (List.range n).filterMap fun m => (E.after m c).bind E.called

variable {E} {c c' : E.Config} {n m : Nat}

theorem after_succ : E.after (n + 1) c = (E.after n c).bind E.next := by
  induction n generalizing c with
  | zero =>
    show (E.next c).bind some = E.next c
    cases E.next c <;> rfl
  | succ n ih =>
    rw [after, after]
    cases E.next c with
    | none => rfl
    | some c' => exact ih

theorem after_none (le : n ≤ m) (ended : E.after n c = none) : E.after m c = none := by
  induction le with
  | refl => exact ended
  | step _ ih => rw [after_succ, ih, Option.bind_none]

def Advances (E : Engine w K) (c d : E.Config) : Prop := E.called c = none ∧ E.next c = some d

/-- The machine gets from one configuration to another without a call, and is in none but these on
the way. -/
inductive Passes (E : Engine w K) (within : E.Config → Prop) : E.Config → E.Config → Prop
  | here {c : E.Config} : within c → Passes E within c c
  | step {c d e : E.Config} : within c → E.Advances c d → Passes E within d e → Passes E within c e

/-- The machine gets out of these configurations without a call, and is there then. -/
inductive Arrives (E : Engine w K) (within : E.Config → Prop) : E.Config → E.Config → Prop
  | here {c : E.Config} : ¬ within c → Arrives E within c c
  | step {c d e : E.Config} : within c → E.Advances c d → Arrives E within d e →
    Arrives E within c e

/-- The machine goes to code outside, with no call before and none but these configurations on the
way. -/
def Leaves (E : Engine w K) (within : E.Config → Prop) (c : E.Config) (k : K) : Prop :=
  ∃ d back, E.Passes within c d ∧ E.step d = .calls k back

/-- The machine never gets to any but these configurations. -/
def Stays (E : Engine w K) (within : E.Config → Prop) (c : E.Config) : Prop :=
  ∀ n d, E.after n c = some d → within d

variable {within : E.Config → Prop} {d e : E.Config}

theorem Advances.moves (h : E.step c = .moves d) : E.Advances c d := by
  simp [Advances, called, next, h]

theorem Advances.writes {a x : BitVec w} (h : E.step c = .writes a x d) : E.Advances c d := by
  simp [Advances, called, next, h]

theorem Advances.branches {b : Bool} (h : E.step c = .branches b d) : E.Advances c d := by
  simp [Advances, called, next, h]

theorem Passes.trans (h : E.Passes within c d) (h' : E.Passes within d e) :
    E.Passes within c e := by
  induction h with
  | here _ => exact h'
  | step inside advances _ ih => exact .step inside advances (ih h')

theorem Passes.arrives (h : E.Passes within c d) (h' : E.Arrives within d e) :
    E.Arrives within c e := by
  induction h with
  | here _ => exact h'
  | step inside advances _ ih => exact .step inside advances (ih h')

theorem Arrives.unique (h : E.Arrives within c d) (h' : E.Arrives within c e) : d = e := by
  induction h with
  | here out =>
    cases h' with
    | here _ => rfl
    | step inside _ _ => exact absurd inside out
  | step inside advances _ ih =>
    cases h' with
    | here out => exact absurd inside out
    | step _ advances' rest =>
      cases advances.2.symm.trans advances'.2
      exact ih rest

theorem Passes.mono {wider : E.Config → Prop} (h : E.Passes within c d)
    (into : ∀ x, within x → wider x) : E.Passes wider c d := by
  induction h with
  | here inside => exact .here (into _ inside)
  | step inside advances _ ih => exact .step (into _ inside) advances ih

theorem Passes.leaves {k : K} (h : E.Passes within c d) (leaves : E.Leaves within d k) :
    E.Leaves within c k := by
  obtain ⟨e, back, rest, step⟩ := leaves
  exact ⟨e, back, h.trans rest, step⟩

theorem Stays.end_ {k : K} (inside : within c) (ended : E.step c = .calls k none) :
    E.Stays within c := by
  intro n x reached
  cases n with
  | zero =>
    cases reached
    exact inside
  | succ n => simp [after, next, ended] at reached

theorem Passes.stays (h : E.Passes within c d) (stays : E.Stays within d) : E.Stays within c := by
  induction h with
  | here _ => exact stays
  | step inside advances _ ih =>
    intro n x reached
    cases n with
    | zero =>
      cases reached
      exact inside
    | succ n =>
      rw [after, advances.2] at reached
      exact ih stays n x reached

end Engine

namespace Course

variable {w : Nat} {K : Type} {X : Course w K} {os : List (Sight K)} {c : X.engine.Config}
variable {V : View w} {k : K}

theorem Along.replayed (h : X.Along os c V) : ∃ n, X.engine.after n X.start = some c := by
  have onward {c c' : X.engine.Config} (before : ∃ n, X.engine.after n X.start = some c)
      (step : X.engine.next c = some c') : ∃ n, X.engine.after n X.start = some c' := by
    obtain ⟨n, there⟩ := before
    exact ⟨n + 1, by rw [Engine.after_succ, there, Option.bind_some, step]⟩
  induction h with
  | start => exact ⟨0, rfl⟩
  | moves _ _ step ih | keeps _ _ step _ ih | stores _ _ step _ _ _ _ ih | boxes _ _ step _ _ ih
  | branches _ _ step ih | calls _ _ step _ _ _ _ ih => exact onward ih (by rw [Engine.next, step])

/-- A run makes no other calls than those that it is seen to make up to its end. -/
theorem Calling.mem_calls {n : Nat} (ended : X.engine.after n X.start = none)
    (h : X.Calling V k) : k ∈ X.engine.calls n X.start := by
  obtain ⟨os, c, back, along, _, step⟩ := h
  obtain ⟨m, there⟩ := along.replayed
  have early : m < n := by
    by_contra late
    rw [Engine.after_none (Nat.le_of_not_lt late) ended] at there
    cases there
  refine List.mem_filterMap.mpr ⟨m, List.mem_range.mpr early, ?_⟩
  rw [there, Option.bind_some, Engine.called, step]

theorem Along.clear (held : X.Held X.view (X.engine.memory X.start)) (h : X.Along os c V) :
    ∀ r < V.store.heap.length, ¬ X.geometry.reserved (V.place r) := by
  have outside {V : View w} {mem : Memory w} (held : X.Held V mem) :
      ∀ r < V.store.heap.length, ¬ X.geometry.reserved (V.place r) := by
    intro r hr
    have word := held.clear r 0 (View.inside_header (List.getElem?_eq_getElem hr) (by decide))
    rwa [Geometry.word_zero] at word
  induction h with
  | start => exact outside held
  | moves _ _ _ ih | keeps _ _ _ _ ih | branches _ _ _ ih => exact ih
  | @stores _ _ V r i _ _ _ _ v _ _ _ _ _ _ _ ih =>
    intro q hq
    have same : (V.setCell r i (.ref v)).store.heap.length = V.store.heap.length :=
      List.length_modify ..
    exact ih q (same ▸ hq)
  | @boxes _ _ V r x _ _ _ _ _ _ _ ih =>
    intro q hq
    have same : (V.setCell r 0 (.word x.toInt)).store.heap.length = V.store.heap.length :=
      List.length_modify ..
    exact ih q (same ▸ hq)
  | calls _ _ _ _ _ _ held _ => exact outside held

end Course

end ClassBackend.Machine
