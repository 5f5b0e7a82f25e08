import ClassBackend.Proofs.Account.Interning
import ClassBackend.Proofs.Text.GlobalName

/-! Accounts of emission. An account says what is known at each point of the code that is being
emitted: which values, words and slots may be used there, and which blocks may be gone to. Its laws
say, operation by operation, what an operation may use and what is known after it. No law speaks of
an expression. -/
namespace ClassBackend

open Lowering

def blockHints : List String := [
  "true_branch", "false_branch", "merge_block", "eq_slow",
  "case_void", "case_dispatch", "case_next", "case_upper", "case_branch", "case_end",
  "loop_header", "loop_body", "loop_tail", "dispatch_void", "dispatch_call"]

structure Account (B : Backend) where
  World : Type
  /-- All that is known at the first point is known at the second. -/
  le : World → World → Prop
  /-- Emission has got from the first point to the second, maybe in another block. -/
  later : World → World → Prop
  /-- Between functions, with the labels of those so far. -/
  idle : List String → Pool → B.State → Prop
  inside : World → Pool → B.State → Prop
  shut : World → Pool → B.State → Prop
  /-- The labels of the functions so far, the open one last, and the number of its formals. -/
  frame : World → List String → Nat → Prop
  const : World → Const → Prop
  value : World → B.Value → Prop
  raw : World → B.Raw → Prop
  slot : World → B.Local → Prop
  saved : World → B.Saved → Prop
  /-- The block is gone to only where the other world is known. -/
  entered : World → BlockName → World → Prop
  arm : World → BlockName → B.Arm → Prop
  cls : ClassLayout → Prop
  label : String → Prop

namespace Account

variable {B : Backend} {α : Type} (A : Account B)

def Keeps (w : A.World) (m : Emit B.State α) (R : A.World → α → Prop) : Prop :=
  ∀ p t a t', A.inside w p t → m t = .ok (a, t') → ∃ w', A.le w w' ∧ A.inside w' p t' ∧ R w' a

def Shuts (w : A.World) (m : Emit B.State α) (R : A.World → α → Prop) : Prop :=
  ∀ p t a t', A.inside w p t → m t = .ok (a, t') → ∃ w', A.le w w' ∧ A.shut w' p t' ∧ R w' a

/-- An operation that opens a block, where all is known that the other world knows. -/
def Opens (w u : A.World) (m : Emit B.State α) (R : A.World → α → Prop) : Prop :=
  ∀ p t a t', A.shut w p t → m t = .ok (a, t') →
    ∃ w', A.later w w' ∧ A.le u w' ∧ A.inside w' p t' ∧ R w' a

abbrev whatever : A.World → α → Prop := fun _ _ => True

structure Ordered : Prop where
  refl : ∀ w, A.le w w
  trans : ∀ {w w' w''}, A.le w w' → A.le w' w'' → A.le w w''
  later_trans : ∀ {w w' w''}, A.later w w' → A.later w' w'' → A.later w w''
  later : ∀ {w w'}, A.le w w' → A.later w w'
  const : ∀ {w w' c}, A.le w w' → A.const w c → A.const w' c
  value : ∀ {w w' v}, A.le w w' → A.value w v → A.value w' v
  raw : ∀ {w w' r}, A.le w w' → A.raw w r → A.raw w' r
  slot : ∀ {w w' a}, A.le w w' → A.slot w a → A.slot w' a
  saved : ∀ {w w' s}, A.le w w' → A.saved w s → A.saved w' s
  frame : ∀ {w w' L n}, A.later w w' → A.frame w L n → A.frame w' L n
  entered : ∀ {w w' b u}, A.later w w' → A.entered w b u → A.entered w' b u
  arm : ∀ {w w' join a}, A.later w w' → A.arm w join a → A.arm w' join a

structure Storage : Prop where
  self : ∀ {w}, A.value w B.selfObject
  void : ∀ {w}, A.value w B.voidValue
  bool : ∀ {w b}, A.const w (.bool b)
  /-- The pool grows, and all that is in it may be used. -/
  pool : ∀ {w p q t}, A.inside w p t → PoolLe p q → (p.Measured → q.Measured) →
    (p.Distinct → q.Distinct) →
    ∃ w', A.le w w' ∧ A.inside w' q t ∧ ∀ c l, Denotes q c l → A.const w' c
  constant : ∀ {w c}, A.const w c → A.Keeps w (B.constant c) A.value
  allocLocal : ∀ {w v}, A.value w v → A.Keeps w (B.allocLocal v) A.slot
  freeLocal : ∀ {w a}, A.slot w a → A.Keeps w (B.freeLocal a) A.whatever
  loadLocal : ∀ {w a}, A.slot w a → A.Keeps w (B.loadLocal a) A.value
  storeLocal : ∀ {w a v}, A.slot w a → A.value w v → A.Keeps w (B.storeLocal a v) A.whatever
  loadField : ∀ {w obj k i}, A.value w obj → A.cls k → A.Keeps w (B.loadField obj k i) A.value
  storeField : ∀ {w obj k i v}, A.value w obj → A.cls k → A.value w v →
    A.Keeps w (B.storeField obj k i v) A.whatever
  storeNative : ∀ {w obj k i n}, A.value w obj → A.cls k →
    A.Keeps w (B.storeNative obj k i n) A.whatever
  writeBarrier : ∀ {w obj k i}, A.value w obj → A.cls k →
    A.Keeps w (B.writeBarrier obj k i) A.whatever
  preserve : ∀ {w v}, A.value w v → A.Keeps w (B.preserve v) A.saved
  restore : ∀ {w s}, A.saved w s → A.Keeps w (B.restore s) A.value

structure Words : Prop where
  unbox : ∀ {w v k}, A.value w v → A.cls k → A.Keeps w (B.unbox v k) A.raw
  boxInt : ∀ {w r k}, A.raw w r → A.cls k → A.Keeps w (B.boxInt r k) A.value
  rawWord : ∀ {w n}, A.Keeps w (B.rawWord n) A.raw
  arith : ∀ {w op a b}, A.raw w a → A.raw w b → A.Keeps w (B.arith op a b) A.raw
  negate : ∀ {w a}, A.raw w a → A.Keeps w (B.negate a) A.raw
  loadTag : ∀ {w v}, A.value w v → A.Keeps w (B.loadTag v) A.raw

structure Blocks : Prop where
  newBlock : ∀ {w u hint}, hint ∈ blockHints → A.le u w →
    A.Keeps w (B.newBlock hint) fun w' b => A.entered w' b u
  nextBlock : ∀ {w u hint p t b t'}, hint ∈ blockHints → A.le u w → A.shut w p t →
    B.newBlock hint t = .ok (b, t') → ∃ w', A.le w w' ∧ A.shut w' p t' ∧ A.entered w' b u
  switchTo : ∀ {w u b}, A.entered w b u → A.Opens w u (B.switchTo b) A.whatever
  jump : ∀ {w u b}, A.entered w b u → A.le u w → A.Shuts w (B.jump b) A.whatever
  branchRaw : ∀ {w u v op a b yes no}, A.raw w a → A.raw w b → A.entered w yes u → A.le u w →
    A.entered w no v → A.le v w → A.Shuts w (B.branchRaw op a b yes no) A.whatever
  branchVoid : ∀ {w u v x yes no}, A.value w x → A.entered w yes u → A.le u w →
    A.entered w no v → A.le v w → A.Shuts w (B.branchVoid x yes no) A.whatever
  branchSame : ∀ {w u v x y yes no}, A.value w x → A.value w y → A.entered w yes u → A.le u w →
    A.entered w no v → A.le v w → A.Shuts w (B.branchSame x y yes no) A.whatever
  closeArm : ∀ {w u v join}, A.value w v → A.entered w join u → A.le u w →
    A.Shuts w (B.closeArm v join) fun w' a => A.arm w' join a
  merge : ∀ {w u arms join}, A.entered w join u → (∀ a ∈ arms, A.arm w join a) →
    A.Opens w u (B.merge arms join) A.value
  abort : ∀ {w kind file line}, A.const w file → A.Shuts w (B.abort kind file line) A.whatever

structure Calls : Prop where
  allocate : ∀ {w k}, A.cls k → A.Keeps w (B.allocate k) A.value
  callInit : ∀ {w k v}, A.cls k → A.value w v → A.Keeps w (B.callInit k v) A.value
  newSelfType : ∀ {w}, A.Keeps w B.newSelfType A.value
  callEquality : ∀ {w x y}, A.value w x → A.value w y → A.Keeps w (B.callEquality x y) A.raw
  callDirect : ∀ {w l recv args}, A.label l → A.value w recv → (∀ s ∈ args, A.saved w s) →
    A.Keeps w (B.callDirect l recv args) A.value
  callDynamic : ∀ {w recv k i args}, A.value w recv → A.cls k → (∀ s ∈ args, A.saved w s) →
    A.Keeps w (B.callDynamic recv k i args) A.value

structure Lawful : Prop extends A.Ordered, A.Storage, A.Words, A.Blocks, A.Calls

structure Framed : Prop where
  start : A.idle [] {} B.start
  beginFunction : ∀ {L p t t' label n}, A.idle L p t → B.beginFunction label n t = .ok ((), t') →
    ∃ w, A.inside w p t' ∧ A.frame w (L ++ [label]) n
  formal : ∀ {w L i n}, A.frame w L n → i < n → A.Keeps w (B.formal i n) A.slot
  endFunction : ∀ {w L p t t' v n}, A.inside w p t → A.frame w L n → A.value w v →
    B.endFunction v n t = .ok ((), t') → A.idle L p t'

end Account

end ClassBackend

/-! What emitted code may refer to by name: pooled constants, what is emitted once for each class,
methods, and some names besides. -/
namespace ClassBackend

open Lowering

/-- What a backend emits for each class, and the names besides. -/
structure Vocabulary where
  artifacts : List Artifact
  others : List String

inductive Nameable (V : Vocabulary) (t : ClassTable) (p : Pool) : String → Prop
  | const {c : Const} {l : Meaning.Literal} : Denotes p c l → Nameable V t p c.label
  | artifact {k : ClassLayout} {a : Artifact} :
    k ∈ t.classes → a ∈ V.artifacts → Nameable V t p (k.name ++ a.suffix)
  | method {k : ClassLayout} {m : Method} : k ∈ t.classes → m ∈ k.methods → Nameable V t p m.label
  | other {s : String} : s ∈ V.others → Nameable V t p s

theorem Nameable.mono {V : Vocabulary} {t : ClassTable} {p q : Pool} {s : String}
    (h : Nameable V t p s) (grown : PoolLe p q) : Nameable V t q s := by
  cases h with
  | const denotes => exact .const (denotes.mono grown)
  | artifact hk ha => exact .artifact hk ha
  | method hk hm => exact .method hk hm
  | other hs => exact .other hs

/-- The pool, and the labels of the functions so far. -/
structure Directory where
  pool : Pool
  labels : List String

namespace Directory

variable {w w' w'' : Directory}

structure Le (w w' : Directory) : Prop where
  pool : PoolLe w.pool w'.pool
  labels : w.labels = w'.labels

theorem Le.refl (w : Directory) : w.Le w := ⟨.refl _, rfl⟩

theorem Le.trans (h : w.Le w') (h' : w'.Le w'') : w.Le w'' :=
  ⟨h.pool.trans h'.pool, h.labels.trans h'.labels⟩

/-- The constant is in the pool. -/
def Holds (w : Directory) (c : Const) : Prop := ∃ l, Denotes w.pool c l

theorem Holds.mono {c : Const} (h : w.Holds c) (known : w.Le w') : w'.Holds c :=
  h.imp fun _ => Denotes.mono known.pool

theorem holds_bool (w : Directory) (b : Bool) : w.Holds (.bool b) := ⟨.bool b, rfl⟩

end Directory

def ClassTable.Labels (t : ClassTable) (label : String) : Prop :=
  ∃ k ∈ t.classes, ∃ m ∈ k.methods, m.label = label

theorem ClassTable.labels_of_methodLabel {t : ClassTable} {k : ClassLayout} {name label : String}
    (hk : k ∈ t.classes) (h : k.methodLabel name = .ok label) : t.Labels label := by
  unfold ClassLayout.methodLabel at h
  split at h
  · rename_i m found
    cases h
    exact ⟨k, hk, m, List.mem_of_find?_eq_some found, rfl⟩
  · cases h

end ClassBackend
