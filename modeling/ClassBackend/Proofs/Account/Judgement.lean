import ClassBackend.Proofs.Account.Laws

/-! A judgement on emission in an account: from where it starts, where it gets to, and what is known
there. Code that ends blocks on its way may forget what only they knew. -/
namespace ClassBackend

open Lowering

namespace Account

variable {B : Backend} {α β : Type} (A : Account B)

/-- Emission that gets from one condition on pool and state to another, if it succeeds. -/
def Leads (pre : Pool → B.State → Prop) (m : Lowering B α) (post : α → Pool → B.State → Prop) :
    Prop :=
  ∀ s a s', pre s.pool s.target → m s = .ok (a, s') → post a s'.pool s'.target

/-- A point in a block where all is known that `u` knows. -/
def Ends (u w : A.World) (R : A.World → α → Prop) (a : α) (p : Pool) (t : B.State) : Prop :=
  ∃ w', A.later w w' ∧ A.le u w' ∧ A.inside w' p t ∧ R w' a

def Goes (u w : A.World) (m : Lowering B α) (R : A.World → α → Prop) : Prop :=
  Leads (A.inside w) m (A.Ends u w R)

def Resumes (u w : A.World) (m : Lowering B α) (R : A.World → α → Prop) : Prop :=
  Leads (A.shut w) m (A.Ends u w R)

def Does (w : A.World) (m : Lowering B α) (R : A.World → α → Prop) : Prop :=
  Leads (A.inside w) m fun a p t => ∃ w', A.le w w' ∧ A.inside w' p t ∧ R w' a

/-- The code may stand wherever this is known, and leaves a value. -/
def Fits (w : A.World) (m : Lowering B B.Value) : Prop :=
  ∀ w', A.le w w' → A.Does w' m A.value

variable {A} {u w w' : A.World} {R : A.World → α → Prop} {R' : A.World → β → Prop}
variable {m : Lowering B α} {f : α → Lowering B β} {x : Emit B.State α}

section Operations

variable {y : α → Emit B.State β}

theorem Keeps.ret (law : A.Ordered) {a : α} (h : R w a) : A.Keeps w (pure a) R := by
  intro p t b t' there run
  obtain ⟨rfl, rfl⟩ := pure_ok.mp run
  exact ⟨w, law.refl w, there, h⟩

theorem Keeps.bind (law : A.Ordered) (h : A.Keeps w x R)
    (k : ∀ a w', A.le w w' → R w' a → A.Keeps w' (y a) R') : A.Keeps w (x >>= y) R' := by
  intro p t b t' there run
  obtain ⟨a, t₁, first, second⟩ := bind_ok.mp run
  obtain ⟨w₁, grown, there₁, ha⟩ := h p t a t₁ there first
  obtain ⟨w₂, grown₂, there₂, hb⟩ := k a w₁ grown ha p t₁ b t' there₁ second
  exact ⟨w₂, law.trans grown grown₂, there₂, hb⟩

theorem Keeps.mono {Q : A.World → α → Prop} (h : A.Keeps w x R)
    (k : ∀ w' a, A.le w w' → R w' a → Q w' a) : A.Keeps w x Q := by
  intro p t a t' there run
  obtain ⟨w', grown, there', ha⟩ := h p t a t' there run
  exact ⟨w', grown, there', k w' a grown ha⟩

theorem Keeps.shuts (law : A.Ordered) (h : A.Keeps w x R)
    (k : ∀ a w', A.le w w' → R w' a → A.Shuts w' (y a) R') : A.Shuts w (x >>= y) R' := by
  intro p t b t' there run
  obtain ⟨a, t₁, first, second⟩ := bind_ok.mp run
  obtain ⟨w₁, grown, there₁, ha⟩ := h p t a t₁ there first
  obtain ⟨w₂, grown₂, there₂, hb⟩ := k a w₁ grown ha p t₁ b t' there₁ second
  exact ⟨w₂, law.trans grown grown₂, there₂, hb⟩

end Operations

section Rules

theorem Keeps.does (h : A.Keeps w x R) : A.Does w (target x) R := by
  intro s a s' there run
  obtain ⟨t, op, rfl⟩ := target_ok.mp run
  exact h _ _ _ _ there op

theorem Does.ret (law : A.Lawful) {a : α} (h : R w a) : A.Does w (pure a) R := by
  intro s b s' there run
  obtain ⟨rfl, rfl⟩ := pure_ok.mp run
  exact ⟨w, law.refl w, there, h⟩

theorem Does.bind (law : A.Lawful) (h : A.Does w m R)
    (k : ∀ a w', A.le w w' → R w' a → A.Does w' (f a) R') : A.Does w (m >>= f) R' := by
  intro s b s' there run
  obtain ⟨a, s₁, first, second⟩ := bind_ok.mp run
  obtain ⟨w₁, grown, there₁, ha⟩ := h s a s₁ there first
  obtain ⟨w₂, grown₂, there₂, hb⟩ := k a w₁ grown ha s₁ b s' there₁ second
  exact ⟨w₂, law.trans grown grown₂, there₂, hb⟩

theorem Does.found (law : A.Lawful) {y : Except Fault α} :
    A.Does w (Lowering.ofExcept y) fun _ a => y = .ok a := by
  intro s a s' there run
  obtain ⟨found, rfl⟩ := ofExcept_ok.mp run
  exact ⟨w, law.refl w, there, found⟩

theorem Does.pooled (law : A.Lawful) {g : Pool → Const × Pool}
    (interns : Pool.Interns g) : A.Does w (pooled g) A.const := by
  intro s a s' there run
  cases run
  obtain ⟨l, denotes⟩ := interns.denotes s.pool
  obtain ⟨w', known, there', consts⟩ :=
    law.pool there (interns.grows s.pool) (interns.measured s.pool) (interns.distinct s.pool)
  exact ⟨w', known, there', consts _ l denotes⟩

theorem Goes.does (law : A.Lawful) (h : A.Does w m R) (known : A.le u w) : A.Goes u w m R := by
  intro s a s' there run
  obtain ⟨w', grown, there', ha⟩ := h s a s' there run
  exact ⟨w', law.later grown, law.trans known grown, there', ha⟩

theorem Goes.bind (law : A.Lawful) (h : A.Does w m R)
    (k : ∀ a w', A.le w w' → R w' a → A.Goes u w' (f a) R') : A.Goes u w (m >>= f) R' := by
  intro s b s' there run
  obtain ⟨a, s₁, first, second⟩ := bind_ok.mp run
  obtain ⟨w₁, grown, there₁, ha⟩ := h s a s₁ there first
  obtain ⟨w₂, later, known, there₂, hb⟩ := k a w₁ grown ha s₁ b s' there₁ second
  exact ⟨w₂, law.later_trans (law.later grown) later, known, there₂, hb⟩

theorem Goes.shut (law : A.Lawful) (h : A.Shuts w x R)
    (k : ∀ a w', A.le w w' → R w' a → A.Resumes u w' (f a) R') :
    A.Goes u w (target x >>= f) R' := by
  intro s b s' there run
  obtain ⟨a, s₁, first, second⟩ := bind_ok.mp run
  obtain ⟨t, op, rfl⟩ := target_ok.mp first
  obtain ⟨w₁, grown, there₁, ha⟩ := h _ _ _ _ there op
  obtain ⟨w₂, later, known, there₂, hb⟩ := k a w₁ grown ha _ b s' there₁ second
  exact ⟨w₂, law.later_trans (law.later grown) later, known, there₂, hb⟩

theorem Resumes.open (law : A.Lawful) {v : A.World} (h : A.Opens w v x R)
    (k : ∀ a w', A.later w w' → A.le v w' → R w' a → A.Goes u w' (f a) R') :
    A.Resumes u w (target x >>= f) R' := by
  intro s b s' there run
  obtain ⟨a, s₁, first, second⟩ := bind_ok.mp run
  obtain ⟨t, op, rfl⟩ := target_ok.mp first
  obtain ⟨w₁, later, known, there₁, ha⟩ := h _ _ _ _ there op
  obtain ⟨w₂, later₂, known₂, there₂, hb⟩ := k a w₁ later known ha _ b s' there₁ second
  exact ⟨w₂, law.later_trans later later₂, known₂, there₂, hb⟩

theorem Resumes.last (law : A.Lawful) {v : A.World} (h : A.Opens w v x R) (known : A.le u v) :
    A.Resumes u w (target x) R := by
  intro s a s' there run
  obtain ⟨t, op, rfl⟩ := target_ok.mp run
  obtain ⟨w', later, known', there', ha⟩ := h _ _ _ _ there op
  exact ⟨w', later, law.trans known known', there', ha⟩

theorem Resumes.block (law : A.Lawful) {v : A.World} {hint : String}
    {g : BlockName → Lowering B β} (hinted : hint ∈ blockHints) (known : A.le v w)
    (k : ∀ b w', A.le w w' → A.entered w' b v → A.Resumes u w' (g b) R') :
    A.Resumes u w (target (B.newBlock hint) >>= g) R' := by
  intro s c s' there run
  obtain ⟨b, s₁, first, second⟩ := bind_ok.mp run
  obtain ⟨t, op, rfl⟩ := target_ok.mp first
  obtain ⟨w₁, grown, there₁, hb⟩ := law.nextBlock hinted known there op
  obtain ⟨w₂, later, known₂, there₂, hc⟩ := k b w₁ grown hb _ c s' there₁ second
  exact ⟨w₂, law.later_trans (law.later grown) later, known₂, there₂, hc⟩

theorem Goes.whole (h : A.Goes w w m R) : A.Does w m R := by
  intro s a s' there run
  obtain ⟨w', _, known, there', ha⟩ := h s a s' there run
  exact ⟨w', known, there', ha⟩

theorem Fits.does (law : A.Lawful) {m : Lowering B B.Value} (h : A.Fits w m) :
    A.Does w m A.value :=
  h w (law.refl w)

theorem Goes.then (law : A.Lawful) {v : A.World} (h : A.Goes u w m R)
    (k : ∀ a w', A.later w w' → A.le u w' → R w' a → A.Goes v w' (f a) R') :
    A.Goes v w (m >>= f) R' := by
  intro s b s' there run
  obtain ⟨a, s₁, first, second⟩ := bind_ok.mp run
  obtain ⟨w₁, later, known, there₁, ha⟩ := h s a s₁ there first
  obtain ⟨w₂, later₂, known₂, there₂, hb⟩ := k a w₁ later known ha s₁ b s' there₁ second
  exact ⟨w₂, law.later_trans later later₂, known₂, there₂, hb⟩

end Rules

end Account

end ClassBackend
