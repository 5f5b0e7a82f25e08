import ClassBackend.Layout.ClassTable
import ClassBackend.Pool
import ClassBackend.Names
import ClassBackend.Scope.Table

/-! What a backend supplies to the lowering. A value is sure to last only until the next operation,
so what must outlive the evaluation of another expression goes through `preserve` and
`restore`. -/
namespace ClassBackend

inductive ArithOp where
  | add | sub | mul | div
  deriving DecidableEq, Repr

inductive Relop where
  | eq | lt | le | gt
  deriving DecidableEq, Repr

/-- The three ways in which emitted code gives up. -/
inductive AbortKind where
  | caseNoMatch | caseOnVoid | dispatchOnVoid
  deriving DecidableEq, Repr

structure Backend where
  State : Type
  /-- An object pointer. -/
  Value : Type
  /-- An unboxed word. -/
  Raw : Type
  /-- A mutable slot that holds an object pointer. -/
  Local : Type
  /-- A value kept alive across other evaluations. -/
  Saved : Type
  /-- One incoming edge of a join. -/
  Arm : Type
  selfObject : Value
  voidValue : Value
  start : State
  beginFunction (label : String) (formals : Nat) : Emit State Unit
  formal (index count : Nat) : Emit State Local
  endFunction (result : Value) (formals : Nat) : Emit State Unit
  constant (c : Const) : Emit State Value
  allocLocal (init : Value) : Emit State Local
  freeLocal (slot : Local) : Emit State Unit
  loadLocal (slot : Local) : Emit State Value
  storeLocal (slot : Local) (v : Value) : Emit State Unit
  loadField (obj : Value) (cls : ClassLayout) (slot : Nat) : Emit State Value
  /-- A plain store. A barrier follows it unless the object is still being filled with defaults. -/
  storeField (obj : Value) (cls : ClassLayout) (slot : Nat) (v : Value) : Emit State Unit
  storeNative (obj : Value) (cls : ClassLayout) (slot : Nat) (kind : NativeKind) : Emit State Unit
  writeBarrier (obj : Value) (cls : ClassLayout) (slot : Nat) : Emit State Unit
  preserve (v : Value) : Emit State Saved
  restore (s : Saved) : Emit State Value
  unbox (v : Value) (cls : ClassLayout) : Emit State Raw
  boxInt (raw : Raw) (int : ClassLayout) : Emit State Value
  rawWord (v : Int) : Emit State Raw
  arith (op : ArithOp) (a b : Raw) : Emit State Raw
  negate (a : Raw) : Emit State Raw
  loadTag (obj : Value) : Emit State Raw
  newBlock (hint : String) : Emit State BlockName
  switchTo (block : BlockName) : Emit State Unit
  jump (block : BlockName) : Emit State Unit
  branchRaw (op : Relop) (a b : Raw) (onTrue onFalse : BlockName) : Emit State Unit
  branchVoid (v : Value) (void nonVoid : BlockName) : Emit State Unit
  branchSame (a b : Value) (same differ : BlockName) : Emit State Unit
  closeArm (v : Value) (join : BlockName) : Emit State Arm
  merge (arms : List Arm) (join : BlockName) : Emit State Value
  /-- Storage for an object, its header set and its fields not. -/
  allocate (cls : ClassLayout) : Emit State Value
  callInit (cls : ClassLayout) (obj : Value) : Emit State Value
  newSelfType : Emit State Value
  callEquality (a b : Value) : Emit State Raw
  callDirect (label : String) (recv : Value) (args : List Saved) : Emit State Value
  callDynamic (recv : Value) (cls : ClassLayout) (slot : Nat) (args : List Saved) :
    Emit State Value
  abort (kind : AbortKind) (file : Const) (line : UInt64) : Emit State Unit

/-! The state that lowering threads through a unit: the pool, the names in scope and the
backend's own state. -/

inductive Binding (L : Type) where
  | field (slot : Nat)
  | stack (access : L)

structure Session (B : Backend) where
  pool : Pool := {}
  names : Interner := {}
  scopes : SymbolTable (Binding B.Local) := {}
  target : B.State

abbrev Lowering (B : Backend) (α : Type) := Emit (Session B) α

structure Context where
  classes : ClassTable
  current : ClassLayout

namespace Lowering

variable {B : Backend} {α : Type}

def target (x : Emit B.State α) : Lowering B α := fun ⟨pool, names, scopes, t⟩ =>
  match x t with
  | .ok (a, t) => .ok (a, ⟨pool, names, scopes, t⟩)
  | .error f => .error f

def pooled (f : Pool → α × Pool) : Lowering B α := fun s =>
  let (a, pool) := f s.pool
  .ok (a, { s with pool })

def fault (f : Fault) : Lowering B α := fun _ => .error f

def ofExcept (x : Except Fault α) : Lowering B α := fun s =>
  match x with
  | .ok a => .ok (a, s)
  | .error f => .error f

def pushScope : Lowering B Unit := fun s => .ok ((), { s with scopes := s.scopes.pushScope })

def popScope : Lowering B Unit := fun s =>
  match s.scopes.popScope with
  | .ok scopes => .ok ((), { s with scopes })
  | .error f => .error f

def bindName (name : String) (b : Binding B.Local) : Lowering B Unit := fun s =>
  let (sym, names) := s.names.intern name
  match s.scopes.addSymbol sym b with
  | .ok scopes => .ok ((), { s with names, scopes })
  | .error f => .error f

def binding (name : String) : Lowering B (Binding B.Local) := fun s =>
  if name = selfName then .error .selfHasNoBinding
  else
    match s.names.get? name with
    | none => .error (.unresolvedIdentifier name)
    | some sym =>
      match s.scopes.lookup sym with
      | .ok b => .ok (b, s)
      | .error f => .error f

end Lowering

end ClassBackend
