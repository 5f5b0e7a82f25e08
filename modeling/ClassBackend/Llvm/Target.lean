import ClassBackend.Lowering.Unit
import ClassBackend.Llvm.Module

/-! The native backend. Every value is a temporary assigned once, so keeping one alive costs nothing
and a join is a `phi`. -/
namespace ClassBackend.Llvm

structure State where
  fresh : Fresh := {}
  function : Option Function := none
  functions : Array Function := #[]

abbrev Gen (α : Type) := Emit State α

namespace Gen

def body (f : Builder Temp Label Instr → Except Fault (Builder Temp Label Instr)) : Gen Unit :=
  fun s =>
  match s.function with
  | none => .error .outsideFunction
  | some g =>
    match f g.body with
    | .ok b => .ok ((), { s with function := some { g with body := b } })
    | .error e => .error e

def emit (i : Instr) : Gen Unit := body fun b => b.emit i
def terminate (i : Instr) : Gen Unit := body fun b => b.terminate i

def temp : Gen Temp := fun s =>
  let (t, fresh) := s.fresh.temp
  .ok (t, { s with fresh })

def assign (rhs : Rhs) : Gen Operand := do
  let t ← temp
  emit (.assign t rhs)
  pure (.temp t)

def fieldAddress (obj : Operand) (cls : ClassLayout) (slot : Nat) : Gen Operand :=
  match fieldIndex slot with
  | .ok index => assign (.element cls.name obj index)
  | .error f => fun _ => .error f

/-- The address of a word of the header, which all objects share with `Object`. -/
def headerAddress (obj : Operand) (index : Nat) : Gen Operand :=
  assign (.element Builtin.objectName obj index)

def objects (vs : List Operand) : List (Ty × Operand) := vs.map fun v => (.ptr, v)

/-- A slot in the entry block that holds the value. -/
def slotFor (v : Operand) : Gen Operand := do
  let t ← temp
  body fun b => .ok (b.alloca t)
  emit (.store .ptr v (.temp t))
  pure (.temp t)

def beginFunction (label : String) (formals : Nat) : Gen Unit := fun s =>
  .ok ((), { s with function := some ⟨label, formals, Builder.new⟩ })

def endFunction (result : Operand) : Gen Unit := do
  terminate (.ret result)
  fun s =>
    match s.function with
    | some f => .ok ((), { s with function := none, functions := s.functions.push f })
    | none => .error .endWithoutBegin

def loadLocal (slot : Operand) : Gen Operand := assign (.load .ptr slot)

def storeLocal (slot v : Operand) : Gen Unit := emit (.store .ptr v slot)

def loadField (obj : Operand) (cls : ClassLayout) (slot : Nat) : Gen Operand := do
  let p ← fieldAddress obj cls slot
  assign (.load .ptr p)

def storeField (obj : Operand) (cls : ClassLayout) (slot : Nat) (v : Operand) : Gen Unit := do
  let p ← fieldAddress obj cls slot
  emit (.store .ptr v p)

def storeNative (obj : Operand) (cls : ClassLayout) (slot : Nat) (kind : NativeKind) :
    Gen Unit := do
  let p ← fieldAddress obj cls slot
  match kind with
  | .int | .bool => emit (.store .i64 (.int 0) p)
  | .string => emit (.store .ptr .null p)

def writeBarrier (obj : Operand) (cls : ClassLayout) (slot : Nat) : Gen Unit := do
  let p ← fieldAddress obj cls slot
  emit (.callVoid (.symbol Routine.writeBarrier.symbol) (objects [p]))

def unbox (v : Operand) (cls : ClassLayout) : Gen Operand := do
  let p ← fieldAddress v cls cls.ownStart
  assign (.load .i64 p)

def allocate (cls : ClassLayout) : Gen Operand :=
  assign (.call .ptr (.symbol Routine.gcAlloc.symbol) (Module.header cls))

def boxInt (raw : Operand) (int : ClassLayout) : Gen Operand := do
  let obj ← allocate int
  let p ← fieldAddress obj int int.ownStart
  emit (.store .i64 raw p)
  pure obj

def arith (op : ArithOp) (a b : Operand) : Gen Operand := assign (.arith op a b)

def negate (a : Operand) : Gen Operand := assign (.arith .sub (.int 0) a)

def loadTag (obj : Operand) : Gen Operand := do
  let p ← headerAddress obj 0
  assign (.load .i64 p)

def newBlock (hint : String) : Gen BlockName := fun s =>
  let (b, fresh) := s.fresh.block hint
  .ok (b, { s with fresh })

def switchTo (block : BlockName) : Gen Unit := body fun b => b.startBlock (.block block)

def jump (block : BlockName) : Gen Unit := terminate (.br (.block block))

def branchOn (op : Relop) (ty : Ty) (a b : Operand) (onTrue onFalse : BlockName) : Gen Unit := do
  let c ← assign (.compare op ty a b)
  terminate (.condBr c (.block onTrue) (.block onFalse))

def currentLabel : Gen Label := fun s =>
  match s.function with
  | some f => .ok (f.body.current.label, s)
  | none => .error .outsideFunction

def closeArm (v : Operand) (join : BlockName) : Gen (Operand × Label) := do
  let source ← currentLabel
  jump join
  pure (v, source)

def merge (arms : List (Operand × Label)) (join : BlockName) : Gen Operand := do
  switchTo join
  if arms.isEmpty then pure .null else assign (.phi arms)

def callInit (cls : ClassLayout) (obj : Operand) : Gen Operand :=
  assign (.call .ptr (.symbol (Linkage.initializer cls.name)) (objects [obj]))

def classElement (row : Operand) (index : Nat) (ty : Ty) : Gen Operand := do
  let p ← assign (.element classObject row index)
  assign (.load ty p)

def newSelfType : Gen Operand := do
  let tag ← loadTag .self
  let row ← assign (.row classObject (.symbol Linkage.classObjects) tag)
  let size ← classElement row 1 .i64
  let table ← classElement row 2 .ptr
  let init ← classElement row 3 .ptr
  let obj ← assign
    (.call .ptr (.symbol Routine.gcAlloc.symbol) [(.i64, tag), (.i64, size), (.ptr, table)])
  assign (.call .ptr init (objects [obj]))

def callEquality (a b : Operand) : Gen Operand :=
  assign (.call .i64 (.symbol Routine.equals.symbol) (objects [a, b]))

def callDirect (label : String) (recv : Operand) (args : List Operand) : Gen Operand :=
  assign (.call .ptr (.symbol label) (objects (recv :: args)))

def callDynamic (recv : Operand) (slot : Nat) (args : List Operand) : Gen Operand := do
  let p ← headerAddress recv 2
  let table ← assign (.load .ptr p)
  let entry ← assign (.entry table slot)
  let method ← assign (.load .ptr entry)
  assign (.call .ptr method (objects (recv :: args)))

def abort (kind : AbortKind) (file : Const) (line : UInt64) : Gen Unit := do
  emit (.callVoid (.symbol (Routine.ofAbort kind).symbol)
    [(.ptr, .const file), (.i64, .int line.toNat)])
  terminate .unreachable

end Gen

@[reducible] def backend : Backend where
  State := State
  Value := Operand
  Raw := Operand
  Local := Operand
  Saved := Operand
  Arm := Operand × Label
  selfObject := .self
  voidValue := .null
  start := {}
  beginFunction := Gen.beginFunction
  formal index _ := Gen.slotFor (.arg index)
  endFunction result _ := Gen.endFunction result
  constant c := pure (.const c)
  allocLocal := Gen.slotFor
  freeLocal _ := pure ()
  loadLocal := Gen.loadLocal
  storeLocal := Gen.storeLocal
  loadField := Gen.loadField
  storeField := Gen.storeField
  storeNative := Gen.storeNative
  writeBarrier := Gen.writeBarrier
  preserve v := pure v
  restore v := pure v
  unbox := Gen.unbox
  boxInt := Gen.boxInt
  rawWord v := pure (.int v)
  arith := Gen.arith
  negate := Gen.negate
  loadTag := Gen.loadTag
  newBlock := Gen.newBlock
  switchTo := Gen.switchTo
  jump := Gen.jump
  branchRaw op a b onTrue onFalse := Gen.branchOn op .i64 a b onTrue onFalse
  branchVoid v void nonVoid := Gen.branchOn .eq .ptr v .null void nonVoid
  branchSame a b same differ := Gen.branchOn .eq .ptr a b same differ
  closeArm := Gen.closeArm
  merge := Gen.merge
  allocate := Gen.allocate
  callInit := Gen.callInit
  newSelfType := Gen.newSelfType
  callEquality := Gen.callEquality
  callDirect := Gen.callDirect
  callDynamic recv _ slot args := Gen.callDynamic recv slot args
  abort := Gen.abort

namespace Module

def ofState (sourceName : String) (classes : ClassTable) (pool : Pool) (s : State) :
    Except Fault Module :=
  match s.function with
  | some _ => .error .unterminatedFunction
  | none => build sourceName classes pool s.functions.toList

def assemble (sourceName : String) (classes : ClassTable) : Except Fault Module := do
  let s ← Lowering.emitUnit backend classes
  ofState sourceName classes s.pool s.target

end Module

end ClassBackend.Llvm
