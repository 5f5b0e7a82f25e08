import ClassBackend.Mips.Target

/-! The backend with a record of its functions. An instruction of a function's body is noted with
the offset of `$sp` from `$fp` that the frame has where the operation that emits it begins. -/
namespace ClassBackend.Mips

/-- An instruction, the offset that it is noted with, and how many arguments are popped if it calls
a method. -/
structure Noted where
  instr : Instr
  offset : Int
  pops : Nat
  deriving DecidableEq, Repr

/-- A function. Its body stands between the prologue and the epilogue. -/
structure Activation where
  label : String
  formals : Nat
  body : List Noted
  deriving DecidableEq, Repr

namespace Activation

def epilogue (a : Activation) : List Instr :=
  (Frame.new a.formals).epilogue.toOption.getD []

def code (a : Activation) : List Instr :=
  .label (.symbol a.label) :: Frame.prologue ++ a.body.map (·.instr) ++ a.epilogue

end Activation

/-- The functions that are finished, and the label and body of the one that is open. -/
structure Record where
  plain : State := {}
  label : String := ""
  body : List Noted := []
  done : List Activation := []

namespace Record

variable {α : Type}

def offset (s : Record) : Int :=
  match s.plain.frame with
  | some f => f.spOffset
  | none => 0

/-- An operation with a note on each instruction that it emits. Its calls pop so many arguments. -/
def noted (pops : Nat) (m : Asm α) : Emit Record α := fun s =>
  match m s.plain with
  | .ok (a, t) =>
    let added := t.code.toList.drop s.plain.code.size
    .ok (a, { s with plain := t, body := s.body ++ added.map fun i => ⟨i, s.offset, pops⟩ })
  | .error f => .error f

def aside (m : Asm α) (mark : Record → Record) : Emit Record α := fun s =>
  match m s.plain with
  | .ok (a, t) => .ok (a, mark { s with plain := t })
  | .error f => .error f

def beginFunction (label : String) (formals : Nat) : Emit Record Unit :=
  aside (Asm.beginFunction label formals) fun s => { s with label, body := [] }

def endFunction (result : Reg) (formals : Nat) : Emit Record Unit := do
  noted 0 (Asm.intoAcc result)
  let f ← aside Asm.closeFrame id
  aside (if formals = f.formals then do Asm.emitAll (← Asm.ofExcept f.epilogue)
    else Asm.ofExcept (.error .formalCountChanged))
    fun s => { s with done := s.done ++ [⟨s.label, formals, s.body⟩], body := [] }

/-- The one operation that is made of others: the entry of the class is on the stack across the
copying and the initializer. -/
def newSelfType : Emit Record Reg := do
  noted 0 (Asm.emit (.la .t1 Linkage.classObjects))
  noted 0 (Asm.emit (.lw .t2 tagOffset .s0))
  noted 0 (Asm.emit (.sll .t2 .t2 3))
  noted 0 (Asm.emit (.addu .t1 .t1 .t2))
  let entry ← noted 0 (Asm.push .t1)
  noted 0 (Asm.emit (.lw .a0 0 .t1))
  noted 0 (Asm.call .objectCopy)
  noted 0 (Asm.emit (.lw .t1 wordSize .sp))
  noted 0 (Asm.emit (.lw .t1 wordSize .t1))
  noted 0 (Asm.emit (.jalr .t1))
  noted 0 (Asm.discard entry)
  pure .a0

end Record

open Record

@[reducible] def annotated : Backend where
  State := Record
  Value := Reg
  Raw := Operand
  Local := Int
  Saved := Int
  Arm := Unit
  selfObject := .s0
  voidValue := .zero
  start := {}
  beginFunction := beginFunction
  formal index _ := noted 0 (Asm.formal index)
  endFunction := endFunction
  constant c := noted 0 (Asm.constant c)
  allocLocal v := noted 0 (Asm.push v)
  freeLocal slot := noted 0 (Asm.discard slot)
  loadLocal slot := noted 0 (Asm.loadLocal slot)
  storeLocal slot v := noted 0 (Asm.storeLocal slot v)
  loadField obj _ slot := noted 0 (Asm.loadField obj slot)
  storeField obj _ slot v := noted 0 (Asm.storeField obj slot v)
  storeNative obj _ slot _ := noted 0 (Asm.storeField obj slot .zero)
  writeBarrier obj _ slot := noted 0 (Asm.writeBarrier obj slot)
  preserve v := noted 0 (Asm.push v)
  restore slot := noted 0 (Asm.restore slot)
  unbox v cls := noted 0 (Asm.unbox v cls)
  boxInt raw int := noted 0 (Asm.boxInt raw int)
  rawWord v := noted 0 (backend.rawWord v)
  arith op a b := noted 0 (Asm.arith op a b)
  negate a := noted 0 (Asm.negate a)
  loadTag obj := noted 0 (Asm.loadTag obj)
  newBlock hint := noted 0 (Asm.newBlock hint)
  switchTo block := noted 0 (Asm.switchTo block)
  jump block := noted 0 (Asm.jump block)
  branchRaw op a b yes no := noted 0 (Asm.branchRaw op a b yes no)
  branchVoid v void nonVoid := noted 0 (backend.branchVoid v void nonVoid)
  branchSame a b same differ := noted 0 (backend.branchSame a b same differ)
  closeArm v join := noted 0 (Asm.closeArm v join)
  merge _ join := noted 0 (Asm.merge join)
  allocate cls := noted 0 (Asm.allocate cls)
  callInit cls obj := noted 0 (Asm.callInit cls obj)
  newSelfType := newSelfType
  callEquality a b := noted 0 (Asm.callEquality a b)
  callDirect label recv args := noted args.length (Asm.callDirect label recv args)
  callDynamic recv _ slot args := noted args.length (Asm.callDynamic recv slot args)
  abort kind file line := noted 0 (Asm.abort kind file line)

def activations (classes : ClassTable) : Except Fault (List Activation) := do
  return (← Lowering.emitUnit annotated classes).target.done

end ClassBackend.Mips
