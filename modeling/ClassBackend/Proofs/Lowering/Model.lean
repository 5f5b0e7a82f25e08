import Mathlib.Data.List.Forall2
import ClassBackend.Proofs.Meaning.Evaluation

/-! What a machine must do with the code of a backend. A model relates states of emission to
configurations of a machine that runs the code; its laws say, operation by operation, how the
machine gets from the code before to the code after. No law speaks of an expression. -/
namespace ClassBackend.Lowering

open Meaning

/-- What lives across evaluations: a local, or a saved value. -/
abbrev Slot (B : Backend) := B.Local ⊕ B.Saved

/-- Where the machine is, seen from the end of the code so far. -/
inductive Spot (B : Backend) where
  | here
  /-- At the start of a block, which may not have been placed yet. -/
  | block (b : BlockName)
  /-- At a join, come from an arm with this value. -/
  | arm (join : BlockName) (arm : B.Arm) (v : Val)

/-- A pooled constant and the literal that it stands for. -/
def Denotes (p : Pool) : Const → Literal → Prop
  | .int i, .int v => p.ints[i]? = some v
  | .str i, .str s => p.strings[i]? = some s
  | .bool a, .bool b => a = b
  | _, _ => False

structure Model (B : Backend) where
  Config : Type
  /-- The second state comes from the first by emission. -/
  le : B.State → B.State → Prop
  /-- The code between the two states is part of the code that runs. -/
  placed : B.State → B.State → Prop
  /-- The live slots, newest first, and the blocks that have a name and no place. -/
  shape : B.State → List (Slot B) → List BlockName → Prop
  /-- The machine is there, with these slots on its stack. -/
  located : Spot B → B.State → List (Slot B) → Store → Config → Prop
  /-- Code that comes after the state does not touch what these slots hold. -/
  firm : B.State → List (Slot B) → Prop
  slot : Config → Slot B → Val → Prop
  value : B.State → Config → B.Value → Val → Prop
  raw : B.State → Config → B.Raw → Int → Prop
  /-- Values that outlast the restoring of another. -/
  result : B.Value → Prop
  loaded : B.Raw → Prop
  recent : B.State → B.Raw → Prop
  /-- Arms that leave from a block which is closed. -/
  shut : B.State → B.Arm → Prop
  apart : B.Arm → B.Arm → Prop
  word : Int → Prop
  ends : Stop → Prop
  capacity : Nat
  pool : Pool

namespace Model

variable {B : Backend} (M : Model B)

/-- Emission that leaves the slots and the blocks as they are. -/
def Same (t t' : B.State) : Prop := M.le t t' ∧ ∀ {K O}, M.shape t K O → M.shape t' K O

def Kept (K : List (Slot B)) (c c' : M.Config) : Prop :=
  ∀ s ∈ K, ∀ x, M.slot c s x → M.slot c' s x

def Values (t t' : B.State) (c c' : M.Config) : Prop :=
  ∀ v x, M.value t c v x → M.value t' c' v x

def Results (t t' : B.State) (c c' : M.Config) : Prop :=
  ∀ v x, M.result v → M.value t c v x → M.value t' c' v x

def Raws (t t' : B.State) (c c' : M.Config) : Prop := ∀ r n, M.raw t c r n → M.raw t' c' r n

/-- A configuration at the end of the new code, with the slots as they were. -/
def Moves (K : List (Slot B)) (t' : B.State) (σ' : Store) (c : M.Config)
    (Q : M.Config → Prop) : Prop :=
  ∃ c', M.located .here t' K σ' c' ∧ M.Kept K c c' ∧ Q c'

/-- A configuration elsewhere, with everything as it was. -/
def Turns (p : Spot B) (K : List (Slot B)) (t t' : B.State) (σ' : Store) (c : M.Config) : Prop :=
  ∃ c', M.located p t' K σ' c' ∧ M.Kept K c c' ∧ M.Values t t' c c' ∧ M.Raws t t' c c'

def Answered (S : Setting) (K : List (Slot B)) (t' : B.State) (σ : Store) (c : M.Config)
    (label : String) (recv : Val) (args : List Val) (v : B.Value) : Prop :=
  S.takes label args.length → let σ' := σ.log (.call label recv args)
  match S.oracle.call label recv args σ' with
  | some (x, heap) => M.Moves K t' { σ' with heap } c fun c' => M.value t' c' v x
  | none => M.ends (.halted σ'.trace)

def Computed (K : List (Slot B)) (t' : B.State) (σ : Store) (c : M.Config) (r : B.Raw) :
    Calc → Prop
  | .result n => M.Moves K t' σ c fun c' => M.raw t' c' r n
  | .trap => M.ends (.trapped σ.trace)
  | .undefined => True

def Lives : Prop := ∃ p t K σ c, M.located p t K σ c

variable {M}

theorem Answered.from {S : Setting} {K : List (Slot B)} {t : B.State} {σ : Store}
    {c c' : M.Config} {label : String} {recv : Val} {xs : List Val} {v : B.Value}
    (kept : M.Kept K c c') (h : M.Answered S K t σ c' label recv xs v) :
    M.Answered S K t σ c label recv xs v := by
  intro takes
  have answer := h takes
  dsimp only at answer ⊢
  split at answer
  · obtain ⟨c'', there, after, value⟩ := answer
    exact ⟨c'', there, fun s hs x slot => after s hs x (kept s hs x slot), value⟩
  · exact answer

end Model

end ClassBackend.Lowering
