import ClassBackend.Proofs.Llvm.Emission

/-! The machine for LLVM IR as a model of the backend. Variables are stack slots; every other value
is a temporary with a number below the next fresh one, which new code does not assign again. -/
namespace ClassBackend.Llvm

open Meaning Machine Lowering

structure Point where
  seen : List (Sight Call)
  config : Config
  view : View 64

/-- Temporaries in the operand have smaller numbers. -/
def Operand.Below (n : Nat) : Operand → Prop
  | .temp t => t.id < n
  | _ => True

theorem Operand.Below.mono {n m : Nat} (h : n ≤ m) {v : Operand} (hv : v.Below n) :
    v.Below m := by
  cases v with
  | temp t => exact Nat.lt_of_lt_of_le hv h
  | self | arg | const | symbol | null | int => trivial

def Builder.labels (b : Body) : List Label := b.blocks.map (·.label)

/-- The block with that label has its last instruction. -/
def Builder.Shut (b : Body) (l : Label) : Prop :=
  ∃ k ∈ b.blocks, k.label = l ∧ k.terminated = true

/-- One body is an earlier state of another; slots that are new come from fresh numbers. -/
structure Within (n : Nat) (b b' : Body) : Prop where
  code : ∀ l k i, b.instr? l k = some i → b'.instr? l k = some i
  shut : ∀ l, b.Shut l → b'.Shut l
  kept : ∀ q ∈ b.allocas, q ∈ b'.allocas
  fresh : ∀ q ∈ b'.allocas, q ∈ b.allocas ∨ n ≤ q.id

def State.Le (t t' : State) : Prop :=
  t.fresh.next ≤ t'.fresh.next ∧
    ∀ b, t.body? = some b → ∃ b', t'.body? = some b' ∧ Within t.fresh.next b b'

/-- Labels and slots come from the numbers so far, and no block is there twice. -/
structure Formed (n : Nat) (b : Body) : Prop where
  labels : ∀ d, .block d ∈ b.labels → d.id < n
  nodup : b.labels.Nodup
  allocas : ∀ q ∈ b.allocas, q.id < n

structure Shape (t : State) (K : List (Slot backend)) (O : List BlockName) : Prop where
  body : ∃ b, t.body? = some b ∧ Formed t.fresh.next b ∧
    (∀ a, .inl a ∈ K → ∃ q ∈ b.allocas, a = .temp q) ∧ ∀ d ∈ O, Label.block d ∉ b.labels
  opened : ∀ d ∈ O, d.id < t.fresh.next
  nodup : O.Nodup

namespace Scenario

variable (X : Scenario)

def eval (c : Point) (v : Operand) : BitVec 64 := X.site.eval c.config.temps v

structure Ready (c : Point) : Prop where
  along : X.course.Along c.seen c.config c.view
  held : X.course.Held c.view c.config.memory
  image : ∀ a x, X.image a = some x → c.config.memory a = some x
  allocas : ∀ q ∈ X.site.body.allocas, c.config.temps q = X.slotAt q
  self : X.site.self = c.view.place X.setting.self

def At (p : Spot backend) (t : State) (c : Point) : Prop :=
  match p with
  | .here => ∃ b, t.body? = some b ∧ c.config.label = b.current.label ∧
    c.config.index = b.current.instrs.size
  | .block d => c.config.label = .block d ∧ c.config.index = 0
  | .arm join arm x => (c.config.label = .block join ∧ c.config.index = 0) ∧
    c.config.before = arm.2 ∧ arm.1.Below t.fresh.next ∧ c.view.Rep x (X.eval c arm.1)

/-- Saved values are among the temporaries so far. -/
def Firm (t : State) (K : List (Slot backend)) : Prop :=
  ∀ v, .inr v ∈ K → v.Below t.fresh.next

structure Located (p : Spot backend) (t : State) (K : List (Slot backend)) (σ : Store)
    (c : Point) : Prop extends X.Ready c where
  store : c.view.store = σ
  firm : Firm t K
  at_ : X.At p t c

def SlotHas (c : Point) : Slot backend → Val → Prop
  | .inl a, x => ∃ y, c.config.memory (X.eval c a) = some y ∧ c.view.Rep x y
  | .inr v, x => c.view.Rep x (X.eval c v)

/-- New code is part of the function, and a run may take it. -/
def Placed (t t' : State) : Prop :=
  ∃ b b', t.body? = some b ∧ t'.body? = some b' ∧ Within t'.fresh.next b' X.site.body ∧
    ∀ l n, (b'.instr? l n).isSome → b.instr? l n = none → X.allowed l n

def model (capacity : Nat) : Model backend where
  Config := Point
  le := State.Le
  placed := X.Placed
  shape := Shape
  located := X.Located
  firm := Firm
  slot := X.SlotHas
  value t c v x := v.Below t.fresh.next ∧ c.view.Rep x (X.eval c v)
  raw t c r n := r.Below t.fresh.next ∧ (X.eval c r).toInt = n
  result _ := True
  loaded _ := True
  recent _ _ := True
  shut t a := ∃ b, t.body? = some b ∧ b.Shut a.2
  apart a a' := a.2 ≠ a'.2
  word n := -9223372036854775808 ≤ n ∧ n < 9223372036854775808
  ends := X.course.ends
  capacity := capacity
  pool := X.pool

end Scenario

section

variable {n m : Nat} {b b' b'' : Body} {t t' t'' : State}

theorem Within.refl (n : Nat) (b : Body) : Within n b b :=
  ⟨fun _ _ _ h => h, fun _ h => h, fun _ h => h, fun _ h => .inl h⟩

theorem Within.trans (le : n ≤ m) (h : Within n b b') (k : Within m b' b'') :
    Within n b b'' := by
  refine ⟨fun l j i hi => k.code l j i (h.code l j i hi), fun l hl => k.shut l (h.shut l hl),
    fun q hq => k.kept q (h.kept q hq), fun q hq => ?_⟩
  rcases k.fresh q hq with old | new
  · exact h.fresh q old
  · exact .inr (Nat.le_trans le new)

theorem State.Le.refl (t : State) : State.Le t t :=
  ⟨Nat.le_refl _, fun b open_ => ⟨b, open_, .refl _ b⟩⟩

theorem State.Le.trans (h : State.Le t t') (k : State.Le t' t'') : State.Le t t'' := by
  refine ⟨Nat.le_trans h.1 k.1, fun b open_ => ?_⟩
  obtain ⟨b', open', first⟩ := h.2 b open_
  obtain ⟨b'', open'', second⟩ := k.2 b' open'
  exact ⟨b'', open'', first.trans h.1 second⟩

end

end ClassBackend.Llvm
