import ClassBackend.Proofs.Llvm.Machine

/-! What emitted LLVM IR may rely on: the stack slots, the tables of the module, and the conventions
of code outside. Conventions are asked only of the calls that a run makes. -/
namespace ClassBackend.Llvm

open Meaning Machine Lowering

structure Scenario where
  setting : Setting
  pool : Pool
  site : Site
  /-- Where the stack slot is that the temporary points at. -/
  slotAt : Temp → BitVec 64
  image : Memory 64
  allowed : Label → Nat → Prop
  start : Config
  view : View 64

namespace Scenario

variable (X : Scenario)

def geometry : Geometry 64 where
  stride := slotSize
  symbol := X.site.symbol
  reserved a := (∃ t ∈ X.site.body.allocas, a = X.slotAt t) ∨ (X.image a).isSome

def means (V : View 64) (k : Call) : Event → Prop
  | .branch _ => False
  | .allocate tag => k.target = X.site.symbol Routine.gcAlloc.symbol ∧
    ∃ cls ∈ X.setting.classes.classes, cls.tag = tag ∧ ∃ x size,
      k.args = [x, size, X.site.symbol (Linkage.dispatchTable cls.name)] ∧
      x.toInt = tag ∧ size.toInt = objectSize cls
  | .call label recv args => X.setting.takes label args.length = true ∧
    k.target = X.site.symbol label ∧ List.Forall₂ V.Rep (recv :: args) k.args
  | .equality a b => k.target = X.site.symbol Routine.equals.symbol ∧
    List.Forall₂ V.Rep [a, b] k.args
  | .barrier o i => k.target = X.site.symbol Routine.writeBarrier.symbol ∧
    ∃ r, o = .obj r ∧ r < V.store.heap.length ∧
      k.args = [X.geometry.word (V.place r) (headerWords + i)]
  | .abort kind file line => k.target = X.site.symbol (Routine.ofAbort kind).symbol ∧
    ∃ c, Denotes X.pool c (.str file) ∧
      k.args = [X.site.symbol c.label, BitVec.ofNat 64 line.toNat]

def course : Course 64 Call where
  engine := X.site.engine
  geometry := X.geometry
  setting := X.setting
  pool := X.pool
  means := X.means
  allowed c := X.allowed c.label c.index
  start := X.start
  view := X.view

structure Tables : Prop where
  rows : X.site.structs.find? (·.name == classObject) = some ⟨classObject, classObjectTypes⟩
  tag : ∀ k ∈ X.setting.classes.classes,
    ∃ x, X.image (X.geometry.word (X.site.symbol Linkage.classObjects) (4 * k.tag)) = some x ∧
      x.toInt = k.tag
  size : ∀ k ∈ X.setting.classes.classes,
    ∃ x, X.image (X.geometry.word (X.site.symbol Linkage.classObjects) (4 * k.tag + 1)) = some x ∧
      x.toInt = objectSize k
  table : ∀ k ∈ X.setting.classes.classes,
    X.image (X.geometry.word (X.site.symbol Linkage.classObjects) (4 * k.tag + 2)) =
      some (X.site.symbol (Linkage.dispatchTable k.name))
  initializer : ∀ k ∈ X.setting.classes.classes,
    X.image (X.geometry.word (X.site.symbol Linkage.classObjects) (4 * k.tag + 3)) =
      some (X.site.symbol (Linkage.initializer k.name))
  method : ∀ k ∈ X.setting.classes.classes, ∀ i m, k.methods[i]? = some m →
    X.image (X.geometry.word (X.site.symbol (Linkage.dispatchTable k.name)) i) =
      some (X.site.symbol m.label)

/-- The stack slots are different words, apart from those of the module. -/
structure Framed : Prop where
  distinct : ∀ t ∈ X.site.body.allocas, ∀ q ∈ X.site.body.allocas,
    X.slotAt t = X.slotAt q → t = q
  apart : ∀ t ∈ X.site.body.allocas, X.image (X.slotAt t) = none

/-- Storage for an object, made of words that were not in use, with its header set. -/
structure Allocated (mem mem' : Memory 64) (q tag size table : BitVec 64) : Prop where
  nonzero : q ≠ 0
  fresh : ∀ j, slotSize * j < size.toNat → mem (X.geometry.word q j) = none
  distinct : ∀ i j, slotSize * i < size.toNat → slotSize * j < size.toNat →
    X.geometry.word q i = X.geometry.word q j → i = j
  mapped : ∀ j, slotSize * j < size.toNat → (mem' (X.geometry.word q j)).isSome
  tag : mem' q = some tag
  size : mem' (X.geometry.word q 1) = some size
  table : mem' (X.geometry.word q 2) = some table
  old : ∀ a, (mem a).isSome → mem' a = mem a

/-- The words that belong to the activation and to the module are as they were. -/
def Spared (mem mem' : Memory 64) : Prop := ∀ a, X.geometry.reserved a → mem' a = mem a

/-- The conventions of code outside, for the calls of the run. -/
structure Conventions : Prop where
  allocate : ∀ V k tag, X.course.Calling V k → X.means V k (.allocate tag) →
    ∃ q mem', X.site.outside k = some (q, mem') ∧ ∀ x size table, k.args = [x, size, table] →
      X.Allocated k.memory mem' q x size table
  equality : ∀ V k a b, X.course.Calling V k → X.means V k (.equality a b) →
    X.site.outside k = some
      (if X.setting.oracle.equal a b (V.store.log (.equality a b)) then 1 else 0, k.memory)
  barrier : ∀ V k o i, X.course.Calling V k → X.means V k (.barrier o i) →
    ∃ x, X.site.outside k = some (x, k.memory)
  call : ∀ V k label recv args, X.course.Calling V k → X.means V k (.call label recv args) →
    match X.setting.oracle.call label recv args (V.store.log (.call label recv args)) with
    | none => X.site.outside k = none
    | some (v, heap) => ∃ x mem' V', X.site.outside k = some (x, mem') ∧
      X.Spared k.memory mem' ∧ V.Extends V' ∧
      V'.store = { V.store.log (.call label recv args) with heap } ∧
      X.course.Held V' mem' ∧ V'.Rep v x
  abort : ∀ V k kind file line, X.course.Calling V k → X.means V k (.abort kind file line) →
    X.site.outside k = none

end Scenario

end ClassBackend.Llvm
