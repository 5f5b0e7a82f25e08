import ClassBackend.Names
import ClassBackend.Lowering.Expr
import ClassBackend.Proofs.Meaning.World

/-! The meaning of expressions: a big-step evaluation from left to right. It follows the language
and not the code: a case expression takes the branch on the nearest ancestor, and a method is
looked up by name in the class of the receiver. The number bounds the rounds of each loop. -/
namespace ClassBackend.Meaning

variable {α β : Type}

def wrong : Eval α := fun _ => .error .wrong

def log (e : Event) : Eval Unit := fun w => .ok ((), { w with store := w.store.log e })

def decided (b : Bool) : Eval Unit := log (.branch b)

/-- Ends the evaluation with a call that does not return. -/
def halt : Eval α := fun w => .error (.halted w.store.trace)

def ofExcept : Except Fault α → Eval α
  | .ok a => pure a
  | .error _ => wrong

def object : Val → Eval Obj
  | .void => wrong
  | .obj r => fun w =>
    match w.store.heap[r]? with
    | some o => .ok (o, w)
    | none => .error .wrong

def allocate (tag : Nat) (cells : List Cell) : Eval Val := do
  log (.allocate tag)
  fun w => .ok (.obj w.store.heap.length, { w with store := w.store.add ⟨tag, cells⟩ })

def Setting.context (S : Setting) : Context := ⟨S.classes, S.current⟩

/-- The word of a boxed Int or Bool is its first field, and an Int has no other. -/
structure Setting.Plain (S : Setting) : Prop where
  int : ∀ k, S.classes.find Builtin.intName = .ok k → k.ownStart = 0 ∧ k.fields.length = 1
  bool : ∀ k, S.classes.find Builtin.boolName = .ok k → k.ownStart = 0

/-- The classes are those of a program, and the code stands in one of them. -/
structure Setting.Built (S : Setting) : Prop where
  program : ∃ p, ClassTable.build p = .ok S.classes
  current : S.current ∈ S.classes.classes

variable (S : Setting)

def intClass : Eval ClassLayout := ofExcept (S.classes.find Builtin.intName)
def boolClass : Eval ClassLayout := ofExcept (S.classes.find Builtin.boolName)

def constant (l : Literal) : Eval Val := pure (.obj (S.literal l))

def unbox (v : Val) : Eval Int := do
  let o ← object v
  match o.cells with
  | .word n :: _ => pure n
  | _ => wrong

def boxInt (n : Int) : Eval Val := do
  let int ← intClass S
  allocate int.tag [.word n]

def compute (op : ArithOp) (a b : Int) : Eval Int :=
  match S.compute op a b with
  | .result n => pure n
  | .trap => fun w => .error (.trapped w.store.trace)
  | .undefined => wrong

def invoke (label : String) (recv : Val) (args : List Val) : Eval Val :=
  if S.takes label args.length then do
    log (.call label recv args)
    fun w =>
      match S.oracle.call label recv args w.store with
      | some (v, heap) => .ok (v, { w with store := { w.store with heap } })
      | none => .error (.halted w.store.trace)
  else wrong

def abort (kind : AbortKind) (line : UInt64) : Eval α := do
  log (.abort kind S.current.fileName line)
  halt

/-- A new object whose fields are set by the initializer alone. -/
def create (k : ClassLayout) : Eval Val := do
  let obj ← allocate k.tag (List.replicate k.fields.length .unset)
  invoke S (Linkage.initializer k.name) obj []

def var (name : String) : Eval Var := fun w =>
  match w.env.lookup name with
  | some x => .ok (x, w)
  | none => .error .wrong

def loadAttribute (slot : Nat) : Eval Val := fun w =>
  match (w.store.heap[S.self]?).bind (·.cells[slot]?) with
  | some (.ref v) => .ok (v, w)
  | _ => .error .wrong

def storeAttribute (slot : Nat) (v : Val) : Eval Unit := fun w =>
  match (w.store.heap[S.self]?).bind (·.cells[slot]?) with
  | some d =>
    if d.isPointer then .ok ((), { w with store := w.store.setField S.self slot v })
    else .error .wrong
  | none => .error .wrong

def identifier (name : String) : Eval Val := do
  if name = selfName then pure (.obj S.self)
  else
    match ← var name with
    | .field slot => loadAttribute S slot
    | .stack v => pure v

def defaultValue (ty : String) : Eval Val :=
  if ty = Builtin.intName then constant S (.int 0)
  else if ty = Builtin.boolName then constant S (.bool false)
  else if ty = Builtin.stringName then constant S (.str "")
  else pure .void

def operands (lhs rhs : Eval Val) : Eval (Val × Val) := do
  let l ← lhs
  let r ← rhs
  pure (l, r)

def arithmetic (op : ArithOp) (lhs rhs : Eval Val) : Eval Val := do
  let _ ← intClass S
  let (l, r) ← operands lhs rhs
  let a ← unbox l
  let b ← unbox r
  let n ← compute S op a b
  boxInt S n

def holds : Relop → Int → Int → Bool
  | .eq, a, b => a == b
  | .lt, a, b => a < b
  | .le, a, b => a ≤ b
  | .gt, a, b => b < a

def comparison (op : Relop) (lhs rhs : Eval Val) : Eval Val := do
  let _ ← intClass S
  let (l, r) ← operands lhs rhs
  let a ← unbox l
  let b ← unbox r
  decided (holds op a b)
  constant S (.bool (holds op a b))

def ask (a b : Val) : Eval Bool := do
  log (.equality a b)
  fun w => .ok (S.oracle.equal a b w.store, w)

def equality (lhs rhs : Eval Val) : Eval Val := do
  let (l, r) ← operands lhs rhs
  decided (l = r)
  if l = r then constant S (.bool true)
  else do
    let equal ← ask S l r
    decided equal
    constant S (.bool equal)

def binary : BinOp → Eval Val → Eval Val → Eval Val
  | .plus => arithmetic S .add
  | .minus => arithmetic S .sub
  | .mul => arithmetic S .mul
  | .div => arithmetic S .div
  | .lt => comparison S .lt
  | .le => comparison S .le
  | .eq => equality S

def unary : UnOp → Eval Val → Eval Val
  | .isVoid, e => do
    let v ← e
    decided (v = .void)
    constant S (.bool (v = .void))
  | .not, e => do
    let v ← e
    let _ ← boolClass S
    let n ← unbox v
    decided (n = 0)
    constant S (.bool (n = 0))
  | .neg, e => do
    let v ← e
    let _ ← intClass S
    let n ← unbox v
    boxInt S (← compute S .sub 0 n)

def newObject (ty : String) : Eval Val := do
  if ty = selfType then
    let o ← object (.obj S.self)
    create S (← ofExcept (S.classes.atTag o.tag))
  else create S (← ofExcept (S.classes.find ty))

def declare (name : String) (v : Val) : Eval Unit := fun w =>
  .ok ((), { w with env := (name, .stack v) :: w.env })

def forget : Eval Unit := fun w => .ok ((), { w with env := w.env.tail })

def inScope (name : String) (v : Val) (body : Eval Val) : Eval Val := do
  declare name v
  let x ← body
  forget
  pure x

def letIn (name : String) (init body : Eval Val) : Eval Val := do
  let v ← init
  inScope name v body

def sequence : List (Eval Val) → Eval Val
  | [] => pure .void
  | [e] => e
  | e :: es => do
    let _ ← e
    sequence es

/-- A class and its ancestors, the nearest first. -/
def lineage (t : ClassTable) : Nat → ClassLayout → List ClassLayout
  | 0, k => [k]
  | n + 1, k => k ::
    match k.parent.map t.find with
    | some (.ok p) => lineage t n p
    | _ => []

def ancestors (t : ClassTable) (k : ClassLayout) : List ClassLayout :=
  lineage t t.classes.length k

/-- The alternative on the nearest class of a lineage, the first of those on one class. -/
def nearest (line : List ClassLayout) (bs : List (ClassLayout × β)) : Option (ClassLayout × β) :=
  line.findSome? fun k => bs.find? fun b => b.1.name == k.name

/-- How the tests of a tag against a row of ranges go, up to the first range that holds it. -/
def rangeTests (tag : Nat) : List (ClassLayout × β) → List Bool
  | [] => []
  | (k, _) :: bs =>
    if tag < k.tag then true :: rangeTests tag bs
    else if k.lastTag < tag then false :: true :: rangeTests tag bs
    else [false, false]

def branchClasses : List (Branch β) → Eval (List (ClassLayout × Branch β))
  | [] => pure []
  | b :: bs => do
    let cls ← ofExcept (S.classes.find b.ty)
    let rest ← branchClasses bs
    pure ((cls, b) :: rest)

def logAll : List Bool → Eval Unit
  | [] => pure ()
  | b :: bs => do
    decided b
    logAll bs

def caseOf (line : UInt64) (scrutinee : Eval Val) (branches : List (Branch (Eval Val))) :
    Eval Val := do
  let v ← scrutinee
  decided (v = .void)
  if v = .void then abort S .caseOnVoid line
  else do
    let o ← object v
    let cls ← ofExcept (S.classes.atTag o.tag)
    let bs ← branchClasses S branches
    logAll (rangeTests o.tag (Lowering.testOrder bs))
    match nearest (ancestors S.classes cls) bs with
    | some (_, b) => inScope b.name v b.body
    | none => abort S .caseNoMatch line

def loop (pred body : Eval Val) : Nat → Eval Val
  | 0 => fun w => .error (.exhausted w.store.trace)
  | n + 1 => do
    let p ← pred
    let _ ← boolClass S
    let b ← unbox p
    decided (b = 1)
    if b = 1 then do
      let _ ← body
      loop pred body n
    else pure .void

def cond (pred onTrue onFalse : Eval Val) : Eval Val := do
  let p ← pred
  let _ ← boolClass S
  let b ← unbox p
  decided (b = 1)
  if b = 1 then onTrue else onFalse

def arguments : List (Eval Val) → Eval (List Val)
  | [] => pure []
  | e :: es => do
    let v ← e
    let rest ← arguments es
    pure (v :: rest)

/-- The method of that name in the class of the receiver, which must inherit from the static
class. -/
def lookup (static : ClassLayout) (recv : Val) (method : String) : Eval String := do
  let o ← object recv
  let cls ← ofExcept (S.classes.atTag o.tag)
  if static.name ∈ (ancestors S.classes cls).map (·.name) then ofExcept (cls.methodLabel method)
  else wrong

def dispatch (line : UInt64) (receiverType : String) (receiver : Eval Val)
    (staticType : Option String) (method : String) (args : List (Eval Val)) : Eval Val := do
  let vs ← arguments args
  let recv ← receiver
  decided (recv = .void)
  if recv = .void then abort S .dispatchOnVoid line
  else
    match staticType with
    | some ty => do
      let cls ← ofExcept (S.classes.find ty)
      invoke S (← ofExcept (cls.methodLabel method)) recv vs
    | none => do
      let cls ← ofExcept (S.classes.resolve receiverType S.current)
      invoke S (← lookup S cls recv method) recv vs

def setVariable (name : String) (value : Eval Val) : Eval Val := do
  let v ← value
  match ← var name with
  | .field slot =>
    storeAttribute S slot v
    log (.barrier (.obj S.self) slot)
  | .stack _ => fun w => .ok ((), { w with env := rebind name v w.env })
  pure v

variable (rounds : Nat)

mutual

def evaluate : Expr → Eval Val
  | .bool _ b => constant S (.bool b)
  | .int _ v => constant S (.int v)
  | .str _ s => constant S (.str s)
  | .ident _ name => identifier S name
  | .binary _ op lhs rhs => binary S op (evaluate lhs) (evaluate rhs)
  | .unary _ op e => unary S op (evaluate e)
  | .new _ ty => newObject S ty
  | .caseOf _ e branches => caseOf S e.line (evaluate e) (evaluateBranches branches)
  | .letIn _ name ty none body => letIn name (defaultValue S ty) (evaluate body)
  | .letIn _ name _ (some init) body => letIn name (evaluate init) (evaluate body)
  | .block _ es => sequence (evaluateAll es)
  | .loop _ pred body => loop S (evaluate pred) (evaluate body) rounds
  | .cond _ pred onTrue onFalse => cond S (evaluate pred) (evaluate onTrue) (evaluate onFalse)
  | .dispatch _ recv staticType method args =>
    dispatch S recv.line recv.ty (evaluate recv) staticType method (evaluateAll args)
  | .assign _ name e => setVariable S name (evaluate e)

def evaluateAll : List Expr → List (Eval Val)
  | [] => []
  | e :: es => evaluate e :: evaluateAll es

def evaluateBranches : List (Branch Expr) → List (Branch (Eval Val))
  | [] => []
  | ⟨name, ty, body⟩ :: bs => ⟨name, ty, evaluate body⟩ :: evaluateBranches bs

end

end ClassBackend.Meaning
