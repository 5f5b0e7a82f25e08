import ClassBackend.Proofs.Machine.Heap

/-! Runs of a machine, and the store that a run carries along. The machine sees words only; which
object a word points at, and which event a call stands for, is told by a view that starts with the
run and follows it step by step. -/
namespace ClassBackend.Machine

open Meaning Lowering

inductive Progress (w : Nat) (K C : Type) where
  | moves (c : C)
  | writes (address value : BitVec w) (c : C)
  | branches (taken : Bool) (c : C)
  /-- Control goes to code outside, and may not come back. -/
  | calls (k : K) (back : Option C)
  | traps
  | stuck

inductive Sight (K : Type) where
  | branch (taken : Bool)
  | call (k : K)

structure Engine (w : Nat) (K : Type) where
  Config : Type
  step : Config → Progress w K Config
  memory : Config → Memory w

/-- The machine gets from one configuration to another, and shows this on the way. -/
inductive Engine.Runs {w : Nat} {K : Type} (E : Engine w K) (start : E.Config) :
    List (Sight K) → E.Config → Prop
  | refl : Runs E start [] start
  | moves {os c c'} : Runs E start os c → E.step c = .moves c' → Runs E start os c'
  | writes {os c a x c'} : Runs E start os c → E.step c = .writes a x c' → Runs E start os c'
  | branches {os c b c'} : Runs E start os c → E.step c = .branches b c' →
    Runs E start (os ++ [.branch b]) c'
  | calls {os c k c'} : Runs E start os c → E.step c = .calls k (some c') →
    Runs E start (os ++ [.call k]) c'

theorem Engine.Runs.trans {w : Nat} {K : Type} {E : Engine w K} {a b c : E.Config}
    {os os' : List (Sight K)} (h : E.Runs a os b) (h' : E.Runs b os' c) :
    E.Runs a (os ++ os') c := by
  induction h' with
  | refl => rwa [List.append_nil]
  | moves _ step ih => exact .moves ih step
  | writes _ step ih => exact .writes ih step
  | branches _ step ih =>
    rw [← List.append_assoc]
    exact .branches ih step
  | calls _ step ih =>
    rw [← List.append_assoc]
    exact .calls ih step

/-- The instructions stand there in the code, and a run may take them. -/
def Laid {ι : Type} (code : Nat → Option ι) (allowed : Nat → Prop) (n : Nat) (is : List ι) : Prop :=
  ∀ j i, is[j]? = some i → code (n + j) = some i ∧ allowed (n + j)

section

variable {ι : Type} {code : Nat → Option ι} {allowed : Nat → Prop} {n : Nat} {i : ι}
  {is js : List ι}

theorem Laid.head (h : Laid code allowed n (i :: is)) : code n = some i ∧ allowed n := h 0 i rfl

theorem Laid.tail (h : Laid code allowed n (i :: is)) : Laid code allowed (n + 1) is := by
  intro j q hq
  have := h (j + 1) q hq
  rwa [← Nat.add_assoc, Nat.add_right_comm] at this

theorem Laid.drop (h : Laid code allowed n (is ++ js)) :
    Laid code allowed (n + is.length) js := by
  induction is generalizing n with
  | nil => exact h
  | cons i is ih =>
    have := ih h.tail
    rwa [List.length_cons, Nat.add_comm is.length, ← Nat.add_assoc]

theorem Laid.take (h : Laid code allowed n (is ++ js)) : Laid code allowed n is := by
  intro j i hi
  refine h j i ?_
  rw [List.getElem?_append_left (List.getElem?_eq_some_iff.mp hi).1]
  exact hi

end

/-- A machine with code, a state that it starts in, and the view of it. -/
structure Course (w : Nat) (K : Type) where
  engine : Engine w K
  geometry : Geometry w
  setting : Setting
  pool : Pool
  means : View w → K → Event → Prop
  allowed : engine.Config → Prop
  start : engine.Config
  view : View w

namespace Course

variable {w : Nat} {K : Type} (X : Course w K)

def Held (V : View w) (mem : Memory w) : Prop := Holds X.geometry X.setting X.pool V mem

/-- The configurations that a run comes to, with what it has shown and with its view. -/
inductive Along : List (Sight K) → X.engine.Config → View w → Prop
  | start : Along [] X.start X.view
  | moves {os c V c'} : Along os c V → X.allowed c → X.engine.step c = .moves c' → Along os c' V
  | keeps {os c V a x c'} : Along os c V → X.allowed c → X.engine.step c = .writes a x c' →
    X.geometry.reserved a → Along os c' V
  | stores {os c V r i x c' o d v} : Along os c V → X.allowed c →
    X.engine.step c = .writes (X.geometry.word (V.place r) (headerWords + i)) x c' →
    V.store.heap[r]? = some o → o.cells[i]? = some d → d.isPointer → V.Rep v x →
    Along os c' (V.setCell r i (.ref v))
  | boxes {os c V r x c' int} : Along os c V → X.allowed c →
    X.engine.step c = .writes (X.geometry.word (V.place r) headerWords) x c' →
    X.setting.classes.find Builtin.intName = .ok int →
    V.store.heap[r]? = some ⟨int.tag, [.unset]⟩ → Along os c' (V.setCell r 0 (.word x.toInt))
  | branches {os c V b c'} : Along os c V → X.allowed c → X.engine.step c = .branches b c' →
    Along (os ++ [.branch b]) c' (V.log (.branch b))
  | calls {os c V k c' e V'} : Along os c V → X.allowed c → X.engine.step c = .calls k (some c') →
    X.means V k e → X.setting.after e V.store = some V'.store → V.Extends V' →
    X.Held V' (X.engine.memory c') → Along (os ++ [.call k]) c' V'

/-- A call that the run makes. -/
def Calling (V : View w) (k : K) : Prop :=
  ∃ os c back, X.Along os c V ∧ X.allowed c ∧ X.engine.step c = .calls k back

/-- How a run ends without coming to the end of the code. -/
def ends : Stop → Prop
  | .halted trace => ∃ os c V k e, X.Along os c V ∧ X.allowed c ∧
    X.engine.step c = .calls k none ∧ X.means V k e ∧ trace = V.store.trace ++ [e]
  | .trapped trace => ∃ os c V, X.Along os c V ∧ X.allowed c ∧ X.engine.step c = .traps ∧
    trace = V.store.trace
  | .exhausted trace => ∃ os c V, X.Along os c V ∧ trace = V.store.trace
  | .wrong => True

def Shows (V : View w) : Sight K → Event → Prop
  | .branch b, .branch b' => b = b'
  | .branch _, _ => False
  | .call k, e => X.means V k e

/-- What a run has shown, up to this view, are these events. -/
def Tells (os : List (Sight K)) (V : View w) (trace : List Event) : Prop :=
  ∃ es, trace = X.view.store.trace ++ es ∧ List.Forall₂ (X.Shows V) os es

/-- How a run ends without coming to the end of the code, and what it has shown until then. -/
def Stops (os : List (Sight K)) (V : View w) : Stop → Prop
  | .halted trace => ∃ os' c k, os = os' ++ [.call k] ∧ X.engine.Runs X.start os' c ∧
    X.engine.step c = .calls k none ∧ X.Tells os V trace
  | .trapped trace => ∃ c, X.engine.Runs X.start os c ∧ X.engine.step c = .traps ∧
    X.Tells os V trace
  | .exhausted trace => ∃ c, X.engine.Runs X.start os c ∧ X.Tells os V trace
  | .wrong => True

variable {X}

theorem Along.extends {os : List (Sight K)} {c : X.engine.Config} {V : View w}
    (h : X.Along os c V) : X.view.Extends V := by
  induction h with
  | start => exact .refl
  | moves _ _ _ ih => exact ih
  | keeps _ _ _ _ ih => exact ih
  | stores _ _ _ _ _ _ _ ih => exact ih.trans (View.extends_setCell ..)
  | boxes _ _ _ _ _ ih => exact ih.trans (View.extends_setCell ..)
  | branches _ _ _ ih => exact ih.trans (View.extends_log ..)
  | calls _ _ _ _ _ grown _ ih => exact ih.trans grown

theorem Along.runs {os : List (Sight K)} {c : X.engine.Config} {V : View w}
    (h : X.Along os c V) : X.engine.Runs X.start os c := by
  induction h with
  | start => exact .refl
  | moves _ _ step ih => exact .moves ih step
  | keeps _ _ step _ ih => exact .writes ih step
  | stores _ _ step _ _ _ _ ih => exact .writes ih step
  | boxes _ _ step _ _ ih => exact .writes ih step
  | branches _ _ step ih => exact .branches ih step
  | calls _ _ step _ _ _ _ ih => exact .calls ih step

/-- What a call stands for does not change as the run goes on. -/
def Steady (X : Course w K) : Prop :=
  ∀ ⦃V V' k e⦄, V.Extends V' → X.means V k e → X.means V' k e

/-- What a run has shown is the trace of its store. -/
theorem Along.tells {os : List (Sight K)} {c : X.engine.Config} {V : View w}
    (mono : X.Steady) (h : X.Along os c V) : X.Tells os V V.store.trace := by
  have keep : ∀ {V V' : View w}, V.Extends V' → ∀ {os es}, List.Forall₂ (X.Shows V) os es →
      List.Forall₂ (X.Shows V') os es := by
    intro V V' grown os es h
    refine h.imp fun o e shows => ?_
    cases o with
    | branch b => cases e <;> exact shows
    | call k => exact mono grown shows
  have snoc : ∀ {V V' : View w} {o e os es}, V.Extends V' → List.Forall₂ (X.Shows V) os es →
      X.Shows V' o e → List.Forall₂ (X.Shows V') (os ++ [o]) (es ++ [e]) :=
    fun grown h ho => List.rel_append (keep grown h) (.cons ho .nil)
  induction h with
  | start => exact ⟨[], by simp, .nil⟩
  | moves _ _ _ ih => exact ih
  | keeps _ _ _ _ ih => exact ih
  | stores _ _ _ _ _ _ _ ih =>
    obtain ⟨es, trace, shows⟩ := ih
    exact ⟨es, trace, keep (View.extends_setCell ..) shows⟩
  | boxes _ _ _ _ _ ih =>
    obtain ⟨es, trace, shows⟩ := ih
    exact ⟨es, trace, keep (View.extends_setCell ..) shows⟩
  | @branches _ _ V b _ _ _ _ ih =>
    obtain ⟨es, trace, shows⟩ := ih
    have here : X.Shows (V.log (.branch b)) (.branch b) (.branch b) := rfl
    refine ⟨es ++ [.branch b], ?_, snoc (View.extends_log ..) shows here⟩
    simp [View.log, trace]
  | @calls _ _ V k _ e V' _ _ _ means after grown _ ih =>
    obtain ⟨es, trace, shows⟩ := ih
    refine ⟨es ++ [e], ?_, snoc grown shows (mono grown means)⟩
    rw [Setting.after_trace after, trace, List.append_assoc]

theorem stops_of_ends (mono : X.Steady) {stop : Stop} (h : X.ends stop) :
    ∃ os V, X.Stops os V stop := by
  cases stop with
  | halted trace =>
    obtain ⟨os, c, V, k, e, along, _, step, means, rfl⟩ := h
    obtain ⟨es, told, shows⟩ := along.tells mono
    refine ⟨os ++ [.call k], V, os, c, k, rfl, along.runs, step, es ++ [e], ?_, ?_⟩
    · rw [told, List.append_assoc]
    · exact List.rel_append shows (.cons means .nil)
  | trapped trace =>
    obtain ⟨os, c, V, along, _, step, rfl⟩ := h
    exact ⟨os, V, c, along.runs, step, along.tells mono⟩
  | exhausted trace =>
    obtain ⟨os, c, V, along, rfl⟩ := h
    exact ⟨os, V, c, along.runs, along.tells mono⟩
  | wrong => exact ⟨[], X.view, trivial⟩

end Course

end ClassBackend.Machine
