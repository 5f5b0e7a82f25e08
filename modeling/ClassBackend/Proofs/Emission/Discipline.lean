import ClassBackend.Fault
import ClassBackend.Proofs.Lowering.Simulation
import ClassBackend.Proofs.Text.Numeral

/-! A judgement on emission that looks at both of its outcomes. Emission under a condition ends in a
result only if the condition holds, and where it holds no fault comes up but those that are
tolerated. -/
namespace ClassBackend.Emission

variable {σ α β : Type} {T : Fault → Prop} {C D : Prop}

def Settles (T : Fault → Prop) (C : Prop) (r : Except Fault α) (Q : α → Prop) : Prop :=
  match r with
  | .ok a => C ∧ Q a
  | .error f => C → T f

section Results

variable {r : Except Fault α} {f : α → Except Fault β} {Q Q' : α → Prop} {R : β → Prop}

theorem Settles.mono (h : Settles T C r Q) (same : C ↔ D) (k : ∀ a, Q a → Q' a) :
    Settles T D r Q' := by
  cases r with
  | ok a => exact ⟨same.mp h.1, k a h.2⟩
  | error e => exact fun d => h (same.mpr d)

theorem Settles.bind (h : Settles T C r Q) (k : ∀ a, Q a → Settles T D (f a) R) :
    Settles T (C ∧ D) (r >>= f) R := by
  cases r with
  | error e => exact fun c => h c.1
  | ok a =>
    have next := k a h.2
    change Settles T (C ∧ D) (f a) R
    cases hf : f a with
    | ok b =>
      rw [hf] at next
      exact ⟨⟨h.1, next.1⟩, next.2⟩
    | error e =>
      rw [hf] at next
      exact fun c => next c.2

theorem Settles.and (h : Settles T C r Q) (k : ∀ a, r = .ok a → Q' a) :
    Settles T C r fun a => Q a ∧ Q' a := by
  cases r with
  | ok a => exact ⟨h.1, h.2, k a rfl⟩
  | error f => exact h

theorem Settles.find {C : α → Prop} (h : ∀ a, r = .ok a → Settles T (C a) (f a) R) :
    Settles T (∃ a, r = .ok a ∧ C a) (r >>= f) R := by
  cases r with
  | error e =>
    rintro ⟨_, found, _⟩
    cases found
  | ok a =>
    have same : C a ↔ ∃ b, (.ok a : Except Fault α) = .ok b ∧ C b := by
      constructor
      · exact fun c => ⟨a, rfl, c⟩
      · rintro ⟨b, found, c⟩
        cases found
        exact c
    exact Settles.mono (h a rfl) same fun _ hb => hb

theorem Settles.then (h : Settles T True r Q) (k : ∀ a, Q a → Settles T D (f a) R) :
    Settles T D (r >>= f) R :=
  (h.bind k).mono (iff_of_eq (true_and D)) fun _ hb => hb

theorem Settles.free (h : Settles T C r Q) (k : ∀ a, Q a → Settles T True (f a) R) :
    Settles T C (r >>= f) R :=
  (h.bind k).mono (iff_of_eq (and_true C)) fun _ hb => hb

theorem Settles.ret {a : α} (ha : Q a) : Settles T True (pure a : Except Fault α) Q :=
  ⟨trivial, ha⟩

theorem Settles.map {g : α → β} (h : Settles T C r fun a => R (g a)) :
    Settles T C (r.map g) R := by
  cases r <;> exact h

theorem Settles.known (there : ∃ a, r = .ok a) (h : ∀ a, r = .ok a → Settles T C (f a) R) :
    Settles T C (r >>= f) R := by
  obtain ⟨a, rfl⟩ := there
  exact h a rfl

/-- Where no tolerated fault comes up, there is a result exactly under the condition. -/
theorem Settles.ok_iff (h : Settles T C r Q) (none : ∀ e, r = .error e → ¬ T e) :
    (∃ a, r = .ok a) ↔ C := by
  cases r with
  | ok a => exact ⟨fun _ => h.1, fun _ => ⟨a, rfl⟩⟩
  | error e =>
    constructor
    · rintro ⟨_, found⟩
      cases found
    · intro c
      exact absurd (h c) (none e rfl)

end Results

/-- Emission from a state with the precondition, whose result and end state are as described. -/
def Emits (T : Fault → Prop) (C : Prop) (pre : σ → Prop) (m : Emit σ α) (R : α → Prop)
    (post : α → σ → Prop) : Prop :=
  ∀ s, pre s → Settles T C (m s) fun p => R p.1 ∧ post p.1 p.2

abbrev anything : α → Prop := fun _ => True

section Rules

variable {pre pre' : σ → Prop} {m : Emit σ α} {f : α → Emit σ β} {R : α → Prop} {R' : β → Prop}
variable {mid mid' : α → σ → Prop} {post : β → σ → Prop}

theorem Emits.weaken (h : Emits T C pre m R mid) (hpre : ∀ s, pre' s → pre s) (same : C ↔ D)
    (hmid : ∀ a s, mid a s → mid' a s) : Emits T D pre' m R mid' :=
  fun s hs => (h s (hpre s hs)).mono same fun _ hp => ⟨hp.1, hmid _ _ hp.2⟩

theorem Emits.when (h : Emits T C pre m R mid) (same : C ↔ D) : Emits T D pre m R mid :=
  h.weaken (fun _ hs => hs) same fun _ _ hs => hs

theorem Emits.bind (h : Emits T C pre m R mid) (k : ∀ a, R a → Emits T D (mid a) (f a) R' post) :
    Emits T (C ∧ D) pre (m >>= f) R' post :=
  fun s hs => Settles.bind (h s hs) fun p hp => k p.1 hp.1 p.2 hp.2

theorem Emits.then (h : Emits T True pre m R mid)
    (k : ∀ a, R a → Emits T D (mid a) (f a) R' post) : Emits T D pre (m >>= f) R' post :=
  (h.bind k).when (iff_of_eq (true_and D))

theorem Emits.free (h : Emits T C pre m R mid)
    (k : ∀ a, R a → Emits T True (mid a) (f a) R' post) : Emits T C pre (m >>= f) R' post :=
  (h.bind k).when (iff_of_eq (and_true C))

theorem Emits.ret {a : α} (ha : R a) (hs : ∀ s, pre s → mid a s) :
    Emits T True pre (pure a) R mid :=
  fun s h => ⟨trivial, ha, hs s h⟩

end Rules

end ClassBackend.Emission

/-! How the lowering uses a backend. A discipline describes the states of emission by what is open
in them; its laws say, operation by operation, in which of these states the operation may be
called and in which it ends. No law speaks of an expression. -/
namespace ClassBackend.Emission

open Lowering

/-- A block that has a name and no place, with the slots that are live where it is entered. A join
has the arms that have left for it so far. -/
structure Pending (B : Backend) where
  name : BlockName
  slots : List (Slot B)
  arms : Option (List B.Arm)

/-- The formals of the open function that have been bound, out of `count`. -/
structure Formals (B : Backend) where
  count : Nat
  bound : List B.Local

structure Discipline (B : Backend) where
  tolerates : Fault → Prop
  idle : B.State → Prop
  /-- Inside a function: its formals, the live slots, newest first, whether the current block takes
  more code, the blocks that wait for a place, and those that may be jumped back to. -/
  inside (F : Formals B) (K : List (Slot B)) (opened : Bool) (O : List (Pending B))
    (H : List (BlockName × List (Slot B))) : B.State → Prop
  value : B.Value → Prop
  word : Int → Prop

variable {B : Backend} {α : Type}

/-- A local that code may read: a live slot, or a formal once all of them are bound. -/
def Reaches (F : Formals B) (K : List (Slot B)) (a : B.Local) : Prop :=
  .inl a ∈ K ∨ (F.bound.length = F.count ∧ a ∈ F.bound)

def Target (K : List (Slot B)) (O : List (Pending B)) (H : List (BlockName × List (Slot B)))
    (b : BlockName) : Prop :=
  ⟨b, K, none⟩ ∈ O ∨ (b, K) ∈ H

namespace Discipline

variable (D : Discipline B)

/-- An operation inside an open block that leaves all as it is. -/
def Keeps (m : Emit B.State α) (R : α → Prop) : Prop :=
  ∀ ⦃F K O H⦄, Emits D.tolerates True (D.inside F K true O H) m R fun _ => D.inside F K true O H

structure Frames : Prop where
  start : D.idle B.start
  beginFunction : ∀ {label n}, Emits D.tolerates True D.idle (B.beginFunction label n) anything
    fun _ => D.inside ⟨n, []⟩ [] true [] []
  formal : ∀ {n as}, as.length < n → Emits D.tolerates True (D.inside ⟨n, as⟩ [] true [] [])
    (B.formal as.length n) anything fun a => D.inside ⟨n, as ++ [a]⟩ [] true [] []
  endFunction : ∀ {v n as H}, Emits D.tolerates True (D.inside ⟨n, as⟩ [] true [] H)
    (B.endFunction v n) anything fun _ => D.idle
  allocLocal : ∀ {v F K O H}, Emits D.tolerates True (D.inside F K true O H) (B.allocLocal v)
    anything fun a => D.inside F (.inl a :: K) true O H
  freeLocal : ∀ {a F K O H}, Emits D.tolerates True (D.inside F (.inl a :: K) true O H)
    (B.freeLocal a) anything fun _ => D.inside F K true O H
  preserve : ∀ {v F K O H}, Emits D.tolerates True (D.inside F K true O H) (B.preserve v)
    anything fun s => D.inside F (.inr s :: K) true O H
  restore : ∀ {s F K O H}, Emits D.tolerates True (D.inside F (.inr s :: K) true O H)
    (B.restore s) D.value fun _ => D.inside F K true O H
  loadLocal : ∀ {a F K O H}, Reaches F K a → Emits D.tolerates True (D.inside F K true O H)
    (B.loadLocal a) D.value fun _ => D.inside F K true O H
  storeLocal : ∀ {a v F K O H}, Reaches F K a → Emits D.tolerates True (D.inside F K true O H)
    (B.storeLocal a v) anything fun _ => D.inside F K true O H

structure Pieces : Prop where
  self : D.value B.selfObject
  void : D.value B.voidValue
  constant : ∀ {c}, D.Keeps (B.constant c) D.value
  loadField : ∀ {obj cls i}, D.value obj → D.Keeps (B.loadField obj cls i) D.value
  storeField : ∀ {obj cls i v}, D.value obj → D.Keeps (B.storeField obj cls i v) anything
  storeNative : ∀ {obj cls i kind}, D.value obj → D.Keeps (B.storeNative obj cls i kind) anything
  writeBarrier : ∀ {obj cls i}, D.value obj → D.Keeps (B.writeBarrier obj cls i) anything
  unbox : ∀ {v cls}, D.value v → D.Keeps (B.unbox v cls) anything
  boxInt : ∀ {raw int}, D.Keeps (B.boxInt raw int) D.value
  rawWord : ∀ {n}, D.word n → D.Keeps (B.rawWord n) anything
  arith : ∀ {op a b}, D.Keeps (B.arith op a b) anything
  negate : ∀ {a}, D.Keeps (B.negate a) anything
  loadTag : ∀ {obj}, D.value obj → D.Keeps (B.loadTag obj) anything
  falsity : D.word 0
  truth : D.word 1

structure Blocks : Prop where
  newBlock : ∀ {hint arms F K o O H}, plainEnd hint = true → arms = none ∨ arms = some [] →
    Emits D.tolerates True (D.inside F K o O H) (B.newBlock hint) anything
      fun b => D.inside F K o (⟨b, K, arms⟩ :: O) H
  switchTo : ∀ {b R F K O H}, Emits D.tolerates True
    (D.inside F K false (R ++ ⟨b, K, none⟩ :: O) H) (B.switchTo b) anything
    fun _ => D.inside F K true (R ++ O) ((b, K) :: H)
  jump : ∀ {b F K O H}, Target K O H b → Emits D.tolerates True (D.inside F K true O H)
    (B.jump b) anything fun _ => D.inside F K false O H
  branchRaw : ∀ {op a b yes no F K O H}, Target K O H yes → Target K O H no →
    Emits D.tolerates True (D.inside F K true O H) (B.branchRaw op a b yes no) anything
      fun _ => D.inside F K false O H
  branchVoid : ∀ {v yes no F K O H}, Target K O H yes → Target K O H no →
    Emits D.tolerates True (D.inside F K true O H) (B.branchVoid v yes no) anything
      fun _ => D.inside F K false O H
  branchSame : ∀ {a b yes no F K O H}, Target K O H yes → Target K O H no →
    Emits D.tolerates True (D.inside F K true O H) (B.branchSame a b yes no) anything
      fun _ => D.inside F K false O H
  closeArm : ∀ {v join arms R F K O H}, Emits D.tolerates True
    (D.inside F K true (R ++ ⟨join, K, some arms⟩ :: O) H) (B.closeArm v join) anything
    fun a => D.inside F K false (R ++ ⟨join, K, some (arms ++ [a])⟩ :: O) H
  merge : ∀ {join arms R F K O H}, Emits D.tolerates True
    (D.inside F K false (R ++ ⟨join, K, some arms⟩ :: O) H) (B.merge arms join) D.value
    fun _ => D.inside F K true (R ++ O) H
  forget : ∀ {F K o O h H s}, D.inside F K o O (h :: H) s → D.inside F K o O H s

structure Calls : Prop where
  allocate : ∀ {cls}, D.Keeps (B.allocate cls) D.value
  callInit : ∀ {cls obj}, D.Keeps (B.callInit cls obj) D.value
  newSelfType : D.Keeps B.newSelfType D.value
  callEquality : ∀ {a b}, D.value a → D.value b → D.Keeps (B.callEquality a b) anything
  callDirect : ∀ {label recv args F K O H}, Emits D.tolerates True
    (D.inside F ((args.map .inr).reverse ++ K) true O H) (B.callDirect label recv args) D.value
    fun _ => D.inside F K true O H
  callDynamic : ∀ {recv cls i args F K O H}, Emits D.tolerates True
    (D.inside F ((args.map .inr).reverse ++ K) true O H) (B.callDynamic recv cls i args) D.value
    fun _ => D.inside F K true O H
  abort : ∀ {kind file line F K O H}, Emits D.tolerates True (D.inside F K true O H)
    (B.abort kind file line) anything fun _ => D.inside F K false O H

structure Lawful : Prop extends D.Frames, D.Pieces, D.Blocks, D.Calls

end Discipline

end ClassBackend.Emission
