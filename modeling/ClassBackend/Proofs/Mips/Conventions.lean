import ClassBackend.Proofs.Mips.Machine

/-! What emitted MIPS code may rely on: the frame, the tables of the data section, and the
conventions of code outside. Conventions are asked only of the calls that a run makes. -/
namespace ClassBackend.Mips

open Meaning Machine Lowering

structure Scenario where
  setting : Setting
  pool : Pool
  site : Site
  fp : BitVec 32
  arguments : Nat
  /-- How many words there are for locals and temporaries. -/
  room : Nat
  /-- The words of the data section that never change. -/
  image : Memory 32
  allowed : Nat → Prop
  start : Config
  view : View 32

namespace Scenario

variable (X : Scenario)

def frameWord (off : Int) : BitVec 32 := X.fp + BitVec.ofInt 32 off

def InFrame (off : Int) : Prop := -12 - 4 * (X.room : Int) < off ∧ off ≤ 4 * (X.arguments : Int)

def geometry : Geometry 32 where
  stride := 4
  symbol := X.site.symbol
  reserved a := (∃ off, X.InFrame off ∧ a = X.frameWord off) ∨ (X.image a).isSome

def means (V : View 32) (k : Call) : Event → Prop
  | .branch _ => False
  | .allocate tag => k.target = X.site.symbol Routine.objectCopy.symbol ∧
    ∃ cls ∈ X.setting.classes.classes, cls.tag = tag ∧
      k.cpu.get .a0 = X.site.symbol (Linkage.prototype cls.name)
  | .call label recv args => X.setting.takes label args.length = true ∧
    k.target = X.site.symbol label ∧ V.Rep recv (k.cpu.get .a0) ∧
    ∀ (i : Nat) x, args.reverse[i]? = some x →
      ∃ y, k.cpu.mem (k.cpu.get .sp + BitVec.ofInt 32 (4 * (i + 1))) = some y ∧ V.Rep x y
  | .equality a b => k.target = X.site.symbol Routine.equalityTest.symbol ∧
    V.Rep a (k.cpu.get .t1) ∧ V.Rep b (k.cpu.get .t2)
  | .barrier o i => k.target = X.site.symbol Routine.gcAssign.symbol ∧
    ∃ r, o = .obj r ∧ r < V.store.heap.length ∧
      k.cpu.get .a1 = X.geometry.word (V.place r) (headerWords + i)
  | .abort kind file line => k.target = X.site.symbol (Routine.ofAbort kind).symbol ∧
    (∃ c, Denotes X.pool c (.str file) ∧ k.cpu.get .a0 = X.site.symbol c.label) ∧
    k.cpu.get .t1 = BitVec.ofNat 32 line.toNat

def course : Course 32 Call where
  engine := X.site.engine
  geometry := X.geometry
  setting := X.setting
  pool := X.pool
  means := X.means
  allowed c := X.allowed c.pc
  start := X.start
  view := X.view

structure Tables : Prop where
  prototype : ∀ k ∈ X.setting.classes.classes, ∀ j < headerWords + k.fields.length,
    (X.image (X.geometry.word (X.site.symbol (Linkage.prototype k.name)) j)).isSome
  tag : ∀ k ∈ X.setting.classes.classes,
    ∃ x, X.image (X.site.symbol (Linkage.prototype k.name)) = some x ∧ x.toInt = k.tag
  size : ∀ k ∈ X.setting.classes.classes,
    ∃ x, X.image (X.geometry.word (X.site.symbol (Linkage.prototype k.name)) 1) = some x ∧
      x.toNat = headerWords + k.fields.length
  table : ∀ k ∈ X.setting.classes.classes,
    X.image (X.geometry.word (X.site.symbol (Linkage.prototype k.name)) 2) =
      some (X.site.symbol (Linkage.dispatchTable k.name))
  method : ∀ k ∈ X.setting.classes.classes, ∀ i m, k.methods[i]? = some m →
    X.image (X.geometry.word (X.site.symbol (Linkage.dispatchTable k.name)) i) =
      some (X.site.symbol m.label)
  classObject : ∀ k ∈ X.setting.classes.classes,
    X.image (X.geometry.word (X.site.symbol Linkage.classObjects) (2 * k.tag)) =
      some (X.site.symbol (Linkage.prototype k.name))
  initializer : ∀ k ∈ X.setting.classes.classes,
    X.image (X.geometry.word (X.site.symbol Linkage.classObjects) (2 * k.tag + 1)) =
      some (X.site.symbol (Linkage.initializer k.name))

/-- The frame is no larger than memory and apart from the data section. -/
structure Framed : Prop where
  span : 12 + 4 * X.room + 4 * X.arguments < 4294967296
  apart : ∀ off, X.InFrame off → X.image (X.frameWord off) = none

def Preserves (rs : List Reg) (s s' : Cpu) : Prop := ∀ r ∈ rs, s'.get r = s.get r

/-- A copy of the object in `$a0`, made of words that were not in use. -/
structure Copied (s s' : Cpu) (n : Nat) : Prop where
  nonzero : s'.get .a0 ≠ 0
  fresh : ∀ j < n, s.mem (X.geometry.word (s'.get .a0) j) = none
  distinct : ∀ i < n, ∀ j < n,
    X.geometry.word (s'.get .a0) i = X.geometry.word (s'.get .a0) j → i = j
  copied : ∀ j < n,
    s'.mem (X.geometry.word (s'.get .a0) j) = s.mem (X.geometry.word (s.get .a0) j)
  old : ∀ a, (s.mem a).isSome → s'.mem a = s.mem a

/-- What a called method or initializer leaves behind: the arguments are popped, and the words
above them, which are the caller's, are as they were. -/
structure Returned (s s' : Cpu) (arguments : Nat) : Prop where
  registers : Preserves [.s0, .fp] s s'
  popped : s'.get .sp = s.get .sp + BitVec.ofInt 32 (4 * arguments)
  frame : ∀ top off, X.InFrame off → s'.get .sp = X.frameWord top → X.InFrame (top + 1) →
    top < off → s'.mem (X.frameWord off) = s.mem (X.frameWord off)
  image : ∀ a, (X.image a).isSome → s'.mem a = s.mem a

/-- The conventions of code outside, for the calls of the run. -/
structure Conventions : Prop where
  copy : ∀ V k tag, X.course.Calling V k → X.means V k (.allocate tag) →
    ∃ s', X.site.outside k.target k.cpu = some s' ∧ Preserves [.t5, .s0, .fp, .sp] k.cpu s' ∧
      ∀ x, k.cpu.mem (X.geometry.word (k.cpu.get .a0) 1) = some x →
        X.Copied k.cpu s' x.toNat
  equality : ∀ V k a b, X.course.Calling V k → X.means V k (.equality a b) →
    ∃ s', X.site.outside k.target k.cpu = some s' ∧ Preserves [.s0, .fp, .sp] k.cpu s' ∧
      s'.mem = k.cpu.mem ∧
      s'.get .a0 = if X.setting.oracle.equal a b (V.store.log (.equality a b))
        then k.cpu.get .a0 else k.cpu.get .a1
  barrier : ∀ V k o i, X.course.Calling V k → X.means V k (.barrier o i) →
    ∃ s', X.site.outside k.target k.cpu = some s' ∧ Preserves [.a0, .s0, .fp, .sp] k.cpu s' ∧
      s'.mem = k.cpu.mem
  call : ∀ V k label recv args, X.course.Calling V k → X.means V k (.call label recv args) →
    match X.setting.oracle.call label recv args (V.store.log (.call label recv args)) with
    | none => X.site.outside k.target k.cpu = none
    | some (v, heap) => ∃ s' V', X.site.outside k.target k.cpu = some s' ∧
      X.Returned k.cpu s' args.length ∧ V.Extends V' ∧
      V'.store = { V.store.log (.call label recv args) with heap } ∧
      X.course.Held V' s'.mem ∧ V'.Rep v (s'.get .a0)
  abort : ∀ V k kind file line, X.course.Calling V k → X.means V k (.abort kind file line) →
    X.site.outside k.target k.cpu = none

end Scenario

end ClassBackend.Mips
