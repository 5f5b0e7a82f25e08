import ClassBackend.Lowering.Unit
import ClassBackend.Mips.Data

/-! The MIPS backend. Every lowered expression leaves its object in `$a0`, `self` stays in `$s0`,
and what has to outlive another evaluation is pushed. Unboxed words go to scratch registers and
never to the stack, where the collector takes every word for a root. -/
namespace ClassBackend.Mips

structure State where
  fresh : Fresh := {}
  code : Array Instr := #[]
  frame : Option Frame := none
  nextScratch : Nat := 0

abbrev Asm (α : Type) := Emit State α

namespace Asm

def emit (i : Instr) : Asm Unit := fun s => .ok ((), { s with code := s.code.push i })

def emitAll : List Instr → Asm Unit
  | [] => pure ()
  | i :: is => do
    emit i
    emitAll is

def ofExcept {α : Type} (x : Except Fault α) : Asm α := fun s =>
  match x with
  | .ok a => .ok (a, s)
  | .error f => .error f

def frame : Asm Frame := fun s =>
  match s.frame with
  | some f => .ok (f, s)
  | none => .error .outsideMethod

def setFrame (f : Frame) : Asm Unit := fun s => .ok ((), { s with frame := some f })

def scratch : Asm Reg := fun s =>
  .ok (Reg.scratchAt s.nextScratch, { s with nextScratch := s.nextScratch + 1 })

def intoAcc (v : Reg) : Asm Unit := if v = .a0 then pure () else emit (.move .a0 v)

def inReg : Operand → Asm Reg
  | .reg r => pure r
  | .imm i => do
    let r ← scratch
    emit (.li r i)
    pure r

/-- Pushes a register; answers the slot. -/
def push (r : Reg) : Asm Int := do
  let (slot, f) ← ofExcept (← frame).push
  setFrame f
  emitAll (Frame.pushCode r)
  pure slot

def pop (into : Reg) (slot : Int) : Asm Unit := do
  let f ← ofExcept ((← frame).release slot)
  setFrame f
  emitAll (Frame.popCode into)

def discard (slot : Int) : Asm Unit := do
  let f ← ofExcept ((← frame).release slot)
  setFrame f
  emitAll Frame.discardCode

/-- The callee pops its arguments, which must be the newest words. -/
def afterCall (args : List Int) : Asm Unit := do
  let f ← frame
  match args with
  | [] => pure ()
  | first :: _ =>
    let bottom ← ofExcept do Word.add f.spOffset (← Word.mul wordSize (Word.low args.length))
    if bottom = first then pure () else ofExcept (.error .argumentsNotOnTop)
  setFrame (← ofExcept (f.calleePopped args.length))

def call (r : Routine) : Asm Unit := emit (.jal r.symbol)

def beginFunction (label : String) (formals : Nat) : Asm Unit := do
  emit (.label (.symbol label))
  emitAll Frame.prologue
  fun s => .ok ((), { s with frame := some (Frame.new formals), nextScratch := 0 })

def formal (index : Nat) : Asm Int := do ofExcept ((← frame).formalOffset index)

def closeFrame : Asm Frame := fun s =>
  match s.frame with
  | some f => .ok (f, { s with frame := none })
  | none => .error .endWithoutBegin

def endFunction (result : Reg) (formals : Nat) : Asm Unit := do
  intoAcc result
  let f ← closeFrame
  if formals = f.formals then emitAll (← ofExcept f.epilogue)
  else ofExcept (.error .formalCountChanged)

def constant (c : Const) : Asm Reg := do
  emit (.la .a0 c.label)
  pure .a0

def loadLocal (slot : Int) : Asm Reg := do
  emit (.lw .a0 slot .fp)
  pure .a0

def storeLocal (slot : Int) (v : Reg) : Asm Unit := emit (.sw v slot .fp)

def loadField (obj : Reg) (slot : Nat) : Asm Reg := do
  emit (.lw .a0 (← ofExcept (fieldOffset slot)) obj)
  pure .a0

def storeField (obj : Reg) (slot : Nat) (v : Reg) : Asm Unit := do
  emit (.sw v (← ofExcept (fieldOffset slot)) obj)

def writeBarrier (obj : Reg) (slot : Nat) : Asm Unit := do
  emit (.addiu .a1 obj (← ofExcept (fieldOffset slot)))
  call .gcAssign

def restore (slot : Int) : Asm Reg := do
  pop .t1 slot
  pure .t1

def unbox (v : Reg) (cls : ClassLayout) : Asm Operand := do
  let r ← scratch
  emit (.lw r (← ofExcept (fieldOffset cls.ownStart)) v)
  pure (.reg r)

/-- The word rides through `Object.copy` in `$t5`. The copy is reachable from nowhere else yet, so
the store needs no barrier. -/
def boxInt (raw : Operand) (int : ClassLayout) : Asm Reg := do
  match raw with
  | .reg .t5 => pure ()
  | .reg r => emit (.move .t5 r)
  | .imm i => emit (.li .t5 i)
  emit (.la .a0 (Linkage.prototype int.name))
  call .objectCopy
  emit (.sw .t5 (← ofExcept (fieldOffset int.ownStart)) .a0)
  pure .a0

def arithOp : ArithOp → Arith
  | .add => .add
  | .sub => .sub
  | .mul => .mul
  | .div => .div

def arith (op : ArithOp) (a b : Operand) : Asm Operand := do
  let a ← inReg a
  let d ← scratch
  emit (.arith (arithOp op) d a b)
  pure (.reg d)

def negate (a : Operand) : Asm Operand := do
  let a ← inReg a
  let d ← scratch
  emit (.neg d a)
  pure (.reg d)

def loadTag (obj : Reg) : Asm Operand := do
  let r ← scratch
  emit (.lw r tagOffset obj)
  pure (.reg r)

def newBlock (hint : String) : Asm BlockName := fun s =>
  let (b, fresh) := s.fresh.block hint
  .ok (b, { s with fresh })

def switchTo (block : BlockName) : Asm Unit := emit (.label (.block block))

def jump (block : BlockName) : Asm Unit := emit (.goto (.block block))

def branchCond : Relop → Cond
  | .eq => .eq
  | .lt => .lt
  | .le => .le
  | .gt => .gt

def branchRaw (op : Relop) (a b : Operand) (onTrue onFalse : BlockName) : Asm Unit := do
  let a ← inReg a
  emit (.branch (branchCond op) a b (.block onTrue))
  emit (.goto (.block onFalse))

def closeArm (v : Reg) (join : BlockName) : Asm Unit := do
  intoAcc v
  jump join

def merge (join : BlockName) : Asm Reg := do
  switchTo join
  pure .a0

def allocate (cls : ClassLayout) : Asm Reg := do
  emit (.la .a0 (Linkage.prototype cls.name))
  call .objectCopy
  pure .a0

def callInit (cls : ClassLayout) (obj : Reg) : Asm Reg := do
  intoAcc obj
  emit (.jal (Linkage.initializer cls.name))
  pure .a0

/-- `class_objTab` holds a prototype and an initializer for each tag. -/
def newSelfType : Asm Reg := do
  emit (.la .t1 Linkage.classObjects)
  emit (.lw .t2 tagOffset .s0)
  emit (.sll .t2 .t2 3)
  emit (.addu .t1 .t1 .t2)
  let entry ← push .t1
  emit (.lw .a0 0 .t1)
  call .objectCopy
  emit (.lw .t1 wordSize .sp)
  emit (.lw .t1 wordSize .t1)
  emit (.jalr .t1)
  discard entry
  pure .a0

/-- `equality_test` compares `$t1` with `$t2` and answers `$a0` or `$a1`. -/
def callEquality (a b : Reg) : Asm Operand := do
  if a = .t2 then ofExcept (.error .equalityClobbered) else pure ()
  if b = .t2 then pure () else emit (.move .t2 b)
  if a = .t1 then pure () else emit (.move .t1 a)
  emit (.la .a0 (Const.bool true).label)
  emit (.la .a1 (Const.bool false).label)
  call .equalityTest
  let r ← scratch
  emit (.lw r (← ofExcept (fieldOffset 0)) .a0)
  pure (.reg r)

def callDirect (label : String) (recv : Reg) (args : List Int) : Asm Reg := do
  intoAcc recv
  emit (.jal label)
  afterCall args
  pure .a0

def callDynamic (recv : Reg) (slot : Nat) (args : List Int) : Asm Reg := do
  intoAcc recv
  emit (.lw .t1 dispatchTableOffset .a0)
  emit (.lw .t1 (← ofExcept (Word.mul wordSize (Word.low slot))) .t1)
  emit (.jalr .t1)
  afterCall args
  pure .a0

/-- The line is passed as one machine word. -/
def abort (kind : AbortKind) (file : Const) (line : UInt64) : Asm Unit := do
  emit (.la .a0 file.label)
  emit (.li .t1 (Word.low line.toNat))
  call (Routine.ofAbort kind)

end Asm

/-- Values are registers, and a local or saved value is an offset from `$fp`. -/
@[reducible] def backend : Backend where
  State := State
  Value := Reg
  Raw := Operand
  Local := Int
  Saved := Int
  Arm := Unit
  selfObject := .s0
  voidValue := .zero
  start := {}
  beginFunction := Asm.beginFunction
  formal index _ := Asm.formal index
  endFunction := Asm.endFunction
  constant := Asm.constant
  allocLocal := Asm.push
  freeLocal := Asm.discard
  loadLocal := Asm.loadLocal
  storeLocal := Asm.storeLocal
  loadField obj _ slot := Asm.loadField obj slot
  storeField obj _ slot v := Asm.storeField obj slot v
  storeNative obj _ slot _ := Asm.storeField obj slot .zero
  writeBarrier obj _ slot := Asm.writeBarrier obj slot
  preserve := Asm.push
  restore := Asm.restore
  unbox := Asm.unbox
  boxInt := Asm.boxInt
  rawWord v := Asm.ofExcept ((Word.ofLiteral v).map Operand.imm)
  arith := Asm.arith
  negate := Asm.negate
  loadTag := Asm.loadTag
  newBlock := Asm.newBlock
  switchTo := Asm.switchTo
  jump := Asm.jump
  branchRaw := Asm.branchRaw
  branchVoid v void nonVoid := Asm.branchRaw .eq (.reg v) (.reg .zero) void nonVoid
  branchSame a b same differ := Asm.branchRaw .eq (.reg a) (.reg b) same differ
  closeArm := Asm.closeArm
  merge _ join := Asm.merge join
  allocate := Asm.allocate
  callInit := Asm.callInit
  newSelfType := Asm.newSelfType
  callEquality := Asm.callEquality
  callDirect := Asm.callDirect
  callDynamic recv _ slot args := Asm.callDynamic recv slot args
  abort := Asm.abort

structure Assembly where
  data : List Line
  exported : List String
  code : List Instr

namespace Assembly

def entryPoints : List String := [
  Linkage.initializer Builtin.mainName,
  Linkage.initializer Builtin.intName,
  Linkage.initializer Builtin.stringName,
  Linkage.initializer Builtin.boolName,
  Linkage.method Builtin.mainName Builtin.mainMethod]

def lines (a : Assembly) : List String :=
  a.data.map Line.text ++ "\t.text" :: a.exported.map (fun s => (Line.globl s).text) ++
    a.code.map Instr.text

def text (a : Assembly) : String := String.join (a.lines.map fun l => l ++ "\n")

def ofState (gcTest : Bool) (classes : ClassTable) (pool : Pool) (s : State) :
    Except Fault Assembly :=
  match s.frame with
  | some _ => .error .unterminatedMethod
  | none => do
    let data ← Data.emit gcTest classes pool
    pure ⟨data, entryPoints, s.code.toList⟩

end Assembly

def assemble (gcTest : Bool) (classes : ClassTable) : Except Fault Assembly := do
  let s ← Lowering.emitUnit backend classes
  Assembly.ofState gcTest classes s.pool s.target

end ClassBackend.Mips
