import ClassBackend.Lowering.Backend

/-! Lowering of every form of expression. Each form is a combinator over the lowerings of its
parts, and `lower` only says which. Parts are evaluated left to right; the result of arithmetic
is a fresh Int, and a truth value is one of the two pooled Bools. -/
namespace ClassBackend

namespace Lowering

variable (B : Backend) (cx : Context)

def intClass : Lowering B ClassLayout := ofExcept (cx.classes.find Builtin.intName)
def boolClass : Lowering B ClassLayout := ofExcept (cx.classes.find Builtin.boolName)

def defaultValue (ty : String) : Lowering B B.Value := do
  match ← pooled (fun p => p.initValue ty) with
  | some c => target (B.constant c)
  | none => pure B.voidValue

def intLiteral (v : Int64) : Lowering B B.Value := do
  let c ← pooled (fun p => p.int v)
  target (B.constant c)

def stringLiteral (s : String) : Lowering B B.Value := do
  let c ← pooled (fun p => p.string s)
  target (B.constant c)

def identifier (name : String) : Lowering B B.Value := do
  if name = selfName then pure B.selfObject
  else
    match ← binding name with
    | .field slot => target (B.loadField B.selfObject cx.current slot)
    | .stack access => target (B.loadLocal access)

/-- Both operands, the left one kept alive across the right. -/
def operands (lhs rhs : Lowering B B.Value) : Lowering B (B.Value × B.Value) := do
  let l ← lhs
  let saved ← target (B.preserve l)
  let r ← rhs
  let l ← target (B.restore saved)
  pure (l, r)

def arithmetic (op : ArithOp) (lhs rhs : Lowering B B.Value) : Lowering B B.Value := do
  let int ← intClass B cx
  let (l, r) ← operands B lhs rhs
  let a ← target (B.unbox l int)
  let b ← target (B.unbox r int)
  let raw ← target (B.arith op a b)
  target (B.boxInt raw int)

def boolBlocks : Lowering B (BlockName × BlockName) := do
  let yes ← target (B.newBlock "true_branch")
  let no ← target (B.newBlock "false_branch")
  pure (yes, no)

/-- Joins the two outcomes of a test into the pooled Bools. -/
def selectBool (yes no : BlockName) : Lowering B B.Value := do
  let join ← target (B.newBlock "merge_block")
  target (B.switchTo yes)
  let t ← target (B.constant (.bool true))
  let fromYes ← target (B.closeArm t join)
  target (B.switchTo no)
  let f ← target (B.constant (.bool false))
  let fromNo ← target (B.closeArm f join)
  target (B.merge [fromYes, fromNo] join)

def comparison (op : Relop) (lhs rhs : Lowering B B.Value) : Lowering B B.Value := do
  let int ← intClass B cx
  let (l, r) ← operands B lhs rhs
  let a ← target (B.unbox l int)
  let b ← target (B.unbox r int)
  let (yes, no) ← boolBlocks B
  target (B.branchRaw op a b yes no)
  selectBool B yes no

/-- Equal pointers are equal; only distinct ones go to the runtime's comparison. -/
def equality (lhs rhs : Lowering B B.Value) : Lowering B B.Value := do
  let (l, r) ← operands B lhs rhs
  let (yes, no) ← boolBlocks B
  let slow ← target (B.newBlock "eq_slow")
  target (B.branchSame l r yes slow)
  target (B.switchTo slow)
  let equal ← target (B.callEquality l r)
  let truth ← target (B.rawWord 1)
  target (B.branchRaw .eq equal truth yes no)
  selectBool B yes no

def binary : BinOp → Lowering B B.Value → Lowering B B.Value → Lowering B B.Value
  | .plus => arithmetic B cx .add
  | .minus => arithmetic B cx .sub
  | .mul => arithmetic B cx .mul
  | .div => arithmetic B cx .div
  | .lt => comparison B cx .lt
  | .le => comparison B cx .le
  | .eq => equality B

def isVoid (operand : Lowering B B.Value) : Lowering B B.Value := do
  let v ← operand
  let (yes, no) ← boolBlocks B
  target (B.branchVoid v yes no)
  selectBool B yes no

def complement (operand : Lowering B B.Value) : Lowering B B.Value := do
  let v ← operand
  let bool ← boolClass B cx
  let raw ← target (B.unbox v bool)
  let falsity ← target (B.rawWord 0)
  let (yes, no) ← boolBlocks B
  target (B.branchRaw .eq raw falsity yes no)
  selectBool B yes no

def negation (operand : Lowering B B.Value) : Lowering B B.Value := do
  let v ← operand
  let int ← intClass B cx
  let raw ← target (B.unbox v int)
  let negated ← target (B.negate raw)
  target (B.boxInt negated int)

def unary : UnOp → Lowering B B.Value → Lowering B B.Value
  | .isVoid => isVoid B
  | .not => complement B cx
  | .neg => negation B cx

def newObject (ty : String) : Lowering B B.Value := do
  if ty = selfType then target B.newSelfType
  else
    let cls ← ofExcept (cx.classes.find ty)
    let obj ← target (B.allocate cls)
    target (B.callInit cls obj)

/-- Binds `name` to a fresh slot that holds `init`, for the extent of `body`. -/
def inScope (name : String) (init : B.Value) (body : Lowering B B.Value) : Lowering B B.Value := do
  let access ← target (B.allocLocal init)
  pushScope
  bindName name (.stack access)
  let v ← body
  popScope
  target (B.freeLocal access)
  pure v

def letIn (name : String) (init body : Lowering B B.Value) : Lowering B B.Value := do
  let v ← init
  inScope B name v body

/-- The value of the last part; void if there is none. -/
def sequence : List (Lowering B B.Value) → Lowering B B.Value
  | [] => pure B.voidValue
  | [e] => e
  | e :: es => do
    let _ ← e
    sequence es

def branchClasses : List (Branch (Lowering B B.Value)) →
    Lowering B (List (ClassLayout × Branch (Lowering B B.Value)))
  | [] => pure []
  | b :: bs => do
    let cls ← ofExcept (cx.classes.find b.ty)
    let rest ← branchClasses bs
    pure ((cls, b) :: rest)

/-- Puts a branch in front of the first whose tag is not greater. -/
def placeByTag {β : Type} (b : ClassLayout × β) : List (ClassLayout × β) → List (ClassLayout × β)
  | [] => [b]
  | c :: cs => if c.1.tag ≤ b.1.tag then b :: c :: cs else c :: placeByTag b cs

/-- A descendant has a greater tag than its ancestors, so it is tested before them. Branches on
one class keep their source order. -/
def testOrder {β : Type} (bs : List (ClassLayout × β)) : List (ClassLayout × β) :=
  bs.foldr placeByTag []

/-- One range test and the branch that it guards. -/
def caseArm (tag : B.Raw) (v : B.Value) (join : BlockName) (cls : ClassLayout)
    (b : Branch (Lowering B B.Value)) : Lowering B B.Arm := do
  let next ← target (B.newBlock "case_next")
  let upper ← target (B.newBlock "case_upper")
  let matched ← target (B.newBlock "case_branch")
  let lo ← target (B.rawWord cls.tag)
  target (B.branchRaw .lt tag lo next upper)
  target (B.switchTo upper)
  let hi ← target (B.rawWord cls.lastTag)
  target (B.branchRaw .gt tag hi next matched)
  target (B.switchTo matched)
  let result ← inScope B b.name v b.body
  let arm ← target (B.closeArm result join)
  target (B.switchTo next)
  pure arm

def caseArms (tag : B.Raw) (v : B.Value) (join : BlockName) :
    List (ClassLayout × Branch (Lowering B B.Value)) → Lowering B (List B.Arm)
  | [] => pure []
  | (cls, b) :: rest => do
    let arm ← caseArm B tag v join cls b
    let arms ← caseArms tag v join rest
    pure (arm :: arms)

def caseOf (line : UInt64) (scrutinee : Lowering B B.Value)
    (branches : List (Branch (Lowering B B.Value))) : Lowering B B.Value := do
  let file ← pooled (fun p => p.string cx.current.fileName)
  let v ← scrutinee
  let onVoid ← target (B.newBlock "case_void")
  let dispatch ← target (B.newBlock "case_dispatch")
  target (B.branchVoid v onVoid dispatch)
  target (B.switchTo onVoid)
  target (B.abort .caseOnVoid file line)
  target (B.switchTo dispatch)
  let tag ← target (B.loadTag v)
  let join ← target (B.newBlock "case_end")
  let classes ← branchClasses B cx branches
  let arms ← caseArms B tag v join (testOrder classes)
  target (B.abort .caseNoMatch file line)
  target (B.merge arms join)

def loop (pred body : Lowering B B.Value) : Lowering B B.Value := do
  let header ← target (B.newBlock "loop_header")
  let looping ← target (B.newBlock "loop_body")
  let tail ← target (B.newBlock "loop_tail")
  target (B.jump header)
  target (B.switchTo header)
  let p ← pred
  let bool ← boolClass B cx
  let raw ← target (B.unbox p bool)
  let truth ← target (B.rawWord 1)
  target (B.branchRaw .eq raw truth looping tail)
  target (B.switchTo looping)
  let _ ← body
  target (B.jump header)
  target (B.switchTo tail)
  pure B.voidValue

def cond (pred onTrue onFalse : Lowering B B.Value) : Lowering B B.Value := do
  let p ← pred
  let bool ← boolClass B cx
  let raw ← target (B.unbox p bool)
  let truth ← target (B.rawWord 1)
  let yes ← target (B.newBlock "true_branch")
  let no ← target (B.newBlock "false_branch")
  let join ← target (B.newBlock "merge_block")
  target (B.branchRaw .eq raw truth yes no)
  target (B.switchTo yes)
  let v ← onTrue
  let fromTrue ← target (B.closeArm v join)
  target (B.switchTo no)
  let v ← onFalse
  let fromFalse ← target (B.closeArm v join)
  target (B.merge [fromTrue, fromFalse] join)

/-- Evaluates the arguments, each kept alive across what follows. -/
def arguments : List (Lowering B B.Value) → Lowering B (List B.Saved)
  | [] => pure []
  | e :: es => do
    let v ← e
    let saved ← target (B.preserve v)
    let rest ← arguments es
    pure (saved :: rest)

/-- Arguments, then the receiver, then the void check. -/
def dispatch (line : UInt64) (receiverType : String) (receiver : Lowering B B.Value)
    (staticType : Option String) (method : String) (args : List (Lowering B B.Value)) :
    Lowering B B.Value := do
  let file ← pooled (fun p => p.string cx.current.fileName)
  let saved ← arguments B args
  let recv ← receiver
  let onVoid ← target (B.newBlock "dispatch_void")
  let call ← target (B.newBlock "dispatch_call")
  target (B.branchVoid recv onVoid call)
  target (B.switchTo onVoid)
  target (B.abort .dispatchOnVoid file line)
  target (B.switchTo call)
  match staticType with
  | some ty =>
    let cls ← ofExcept (cx.classes.find ty)
    let label ← ofExcept (cls.methodLabel method)
    target (B.callDirect label recv saved)
  | none =>
    let cls ← ofExcept (cx.classes.resolve receiverType cx.current)
    let slot ← ofExcept (cls.methodSlot method)
    target (B.callDynamic recv cls slot saved)

def assign (name : String) (value : Lowering B B.Value) : Lowering B B.Value := do
  let v ← value
  match ← binding name with
  | .field slot =>
    target (B.storeField B.selfObject cx.current slot v)
    target (B.writeBarrier B.selfObject cx.current slot)
  | .stack access => target (B.storeLocal access v)
  pure v

end Lowering

open Lowering

variable (B : Backend) (cx : Context)

mutual

def lower : Expr → Lowering B B.Value
  | .bool _ b => target (B.constant (.bool b))
  | .int _ v => intLiteral B v
  | .str _ s => stringLiteral B s
  | .ident _ name => identifier B cx name
  | .binary _ op lhs rhs => Lowering.binary B cx op (lower lhs) (lower rhs)
  | .unary _ op e => Lowering.unary B cx op (lower e)
  | .new _ ty => newObject B cx ty
  | .caseOf _ e branches => Lowering.caseOf B cx e.line (lower e) (lowerBranches branches)
  | .letIn _ name ty none body => Lowering.letIn B name (defaultValue B ty) (lower body)
  | .letIn _ name _ (some init) body => Lowering.letIn B name (lower init) (lower body)
  | .block _ es => sequence B (lowerAll es)
  | .loop _ pred body => Lowering.loop B cx (lower pred) (lower body)
  | .cond _ pred onTrue onFalse =>
    Lowering.cond B cx (lower pred) (lower onTrue) (lower onFalse)
  | .dispatch _ recv staticType method args =>
    Lowering.dispatch B cx recv.line recv.ty (lower recv) staticType method (lowerAll args)
  | .assign _ name e => Lowering.assign B cx name (lower e)

def lowerAll : List Expr → List (Lowering B B.Value)
  | [] => []
  | e :: es => lower e :: lowerAll es

def lowerBranches : List (Branch Expr) → List (Branch (Lowering B B.Value))
  | [] => []
  | ⟨name, ty, body⟩ :: bs => ⟨name, ty, lower body⟩ :: lowerBranches bs

end

end ClassBackend
