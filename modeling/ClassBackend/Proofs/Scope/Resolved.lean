import ClassBackend.Lowering.Unit

/-! Emission without a symbol table. Code is told which variables are in scope; a name that is
none of them stands for the field that the layout of the class gives it. -/
namespace ClassBackend.Resolved

open Lowering

abbrev Vars (B : Backend) := List (String × B.Local)

variable (B : Backend) (cx : Context)

def resolve (k : ClassLayout) (vars : Vars B) (name : String) : Except Fault (Binding B.Local) :=
  if name = selfName then .error .selfHasNoBinding
  else
    match vars.lookup name with
    | some access => .ok (.stack access)
    | none => (k.fieldSlot name).map .field

def identifier (vars : Vars B) (name : String) : Lowering B B.Value := do
  if name = selfName then pure B.selfObject
  else
    match ← Lowering.ofExcept (resolve B cx.current vars name) with
    | .field slot => target (B.loadField B.selfObject cx.current slot)
    | .stack access => target (B.loadLocal access)

/-- A slot that holds `init` for the extent of the body, which is told of it. -/
def hold (init : B.Value) (body : B.Local → Lowering B B.Value) : Lowering B B.Value := do
  let access ← target (B.allocLocal init)
  let v ← body access
  target (B.freeLocal access)
  pure v

def letIn (init : Lowering B B.Value) (body : B.Local → Lowering B B.Value) :
    Lowering B B.Value := do
  let v ← init
  hold B v body

def branchClasses {ε : Type} : List (Branch ε) → Lowering B (List (ClassLayout × Branch ε))
  | [] => pure []
  | b :: bs => do
    let cls ← Lowering.ofExcept (cx.classes.find b.ty)
    let rest ← branchClasses bs
    pure ((cls, b) :: rest)

def caseArm (tag : B.Raw) (join : BlockName) (cls : ClassLayout) (body : Lowering B B.Value) :
    Lowering B B.Arm := do
  let next ← target (B.newBlock "case_next")
  let upper ← target (B.newBlock "case_upper")
  let matched ← target (B.newBlock "case_branch")
  let lo ← target (B.rawWord cls.tag)
  target (B.branchRaw .lt tag lo next upper)
  target (B.switchTo upper)
  let hi ← target (B.rawWord cls.lastTag)
  target (B.branchRaw .gt tag hi next matched)
  target (B.switchTo matched)
  let result ← body
  let arm ← target (B.closeArm result join)
  target (B.switchTo next)
  pure arm

/-- The arms of branches that are entered with the scrutinee. -/
def caseArms {ε : Type} (enter : Branch ε → Lowering B B.Value) (tag : B.Raw) (join : BlockName) :
    List (ClassLayout × Branch ε) → Lowering B (List B.Arm)
  | [] => pure []
  | (cls, b) :: rest => do
    let arm ← caseArm B tag join cls (enter b)
    let arms ← caseArms enter tag join rest
    pure (arm :: arms)

def caseOf {ε : Type} (enter : B.Value → Branch ε → Lowering B B.Value) (line : UInt64)
    (scrutinee : Lowering B B.Value) (branches : List (Branch ε)) : Lowering B B.Value := do
  let file ← pooled (fun p => p.string cx.current.fileName)
  let v ← scrutinee
  let onVoid ← target (B.newBlock "case_void")
  let dispatch ← target (B.newBlock "case_dispatch")
  target (B.branchVoid v onVoid dispatch)
  target (B.switchTo onVoid)
  target (B.abort .caseOnVoid file line)
  target (B.switchTo dispatch)
  let tag ← target (B.loadTag v)
  let join ← target (B.newBlock "case_end")
  let classes ← branchClasses B cx branches
  let arms ← caseArms B (enter v) tag join (testOrder classes)
  target (B.abort .caseNoMatch file line)
  target (B.merge arms join)

/-- A branch is entered with its variable holding the scrutinee. -/
def enter (v : B.Value) (b : Branch (B.Local → Lowering B B.Value)) : Lowering B B.Value :=
  hold B v b.body

def assign (vars : Vars B) (name : String) (value : Lowering B B.Value) : Lowering B B.Value := do
  let v ← value
  match ← Lowering.ofExcept (resolve B cx.current vars name) with
  | .field slot =>
    target (B.storeField B.selfObject cx.current slot v)
    target (B.writeBarrier B.selfObject cx.current slot)
  | .stack access => target (B.storeLocal access v)
  pure v

mutual

def lower (vars : Vars B) : Expr → Lowering B B.Value
  | .bool _ b => target (B.constant (.bool b))
  | .int _ v => intLiteral B v
  | .str _ s => stringLiteral B s
  | .ident _ name => identifier B cx vars name
  | .binary _ op lhs rhs => Lowering.binary B cx op (lower vars lhs) (lower vars rhs)
  | .unary _ op e => Lowering.unary B cx op (lower vars e)
  | .new _ ty => newObject B cx ty
  | .caseOf _ e branches =>
    caseOf B cx (enter B) e.line (lower vars e) (lowerBranches vars branches)
  | .letIn _ name ty none body =>
    letIn B (defaultValue B ty) fun access => lower ((name, access) :: vars) body
  | .letIn _ name _ (some init) body =>
    letIn B (lower vars init) fun access => lower ((name, access) :: vars) body
  | .block _ es => sequence B (lowerAll vars es)
  | .loop _ pred body => Lowering.loop B cx (lower vars pred) (lower vars body)
  | .cond _ pred onTrue onFalse =>
    Lowering.cond B cx (lower vars pred) (lower vars onTrue) (lower vars onFalse)
  | .dispatch _ recv staticType method args =>
    Lowering.dispatch B cx recv.line recv.ty (lower vars recv) staticType method
      (lowerAll vars args)
  | .assign _ name e => assign B cx vars name (lower vars e)

def lowerAll (vars : Vars B) : List Expr → List (Lowering B B.Value)
  | [] => []
  | e :: es => lower vars e :: lowerAll vars es

def lowerBranches (vars : Vars B) :
    List (Branch Expr) → List (Branch (B.Local → Lowering B B.Value))
  | [] => []
  | ⟨name, ty, body⟩ :: bs =>
    ⟨name, ty, fun access => lower ((name, access) :: vars) body⟩ :: lowerBranches vars bs

end

/-- The stores of initializer expressions, in which no variable is in scope. -/
def storeInits (slot : Nat) : List Attribute → Lowering B Unit
  | [] => pure ()
  | a :: rest => do
    match a.init with
    | some init =>
      let v ← lower B cx [] init
      target (B.storeField B.selfObject cx.current slot v)
      target (B.writeBarrier B.selfObject cx.current slot)
    | none => pure ()
    storeInits (slot + 1) rest

def initializer : Lowering B Unit := do
  let k := cx.current
  target (B.beginFunction (Linkage.initializer k.name) 0)
  storeDefaults B cx k.ownStart k.ownFields
  match k.parent with
  | some p =>
    let parent ← Lowering.ofExcept (cx.classes.find p)
    let _ ← target (B.callInit parent B.selfObject)
    pure ()
  | none => pure ()
  storeInits B cx k.ownStart k.decl.attributes
  target (B.endFunction B.selfObject 0)

/-- The formals as variables, from number `index` on, out of `count`. -/
def formals (index count : Nat) (vars : Vars B) : List Formal → Lowering B (Vars B)
  | [] => pure vars
  | f :: fs => do
    let access ← target (B.formal index count)
    formals (index + 1) count ((f.name, access) :: vars) fs

def method (name : String) (fs : List Formal) (body : Expr) : Lowering B Unit := do
  target (B.beginFunction (Linkage.method cx.current.name name) fs.length)
  let vars ← formals B 0 fs.length [] fs
  let result ← lower B cx vars body
  target (B.endFunction result fs.length)

def methods : List MethodDecl → Lowering B Unit
  | [] => pure ()
  | m :: ms => do
    match m.body with
    | some body => method B cx m.name m.formals body
    | none => fault (.missingBody cx.current.name m.name)
    methods ms

def classCode : Lowering B Unit := do
  initializer B cx
  if cx.current.isBuiltin then pure () else methods B cx cx.current.decl.methods

def classCodes (t : ClassTable) : List ClassLayout → Lowering B Unit
  | [] => pure ()
  | k :: ks => do
    classCode B ⟨t, k⟩
    classCodes t ks

/-- What emission of a whole unit leaves: the pool and the state of the backend. -/
def emitUnit (t : ClassTable) : Except Fault (Pool × B.State) := do
  let ((), s) ← classCodes B t t.classes { target := B.start }
  pure (s.pool, s.target)

end ClassBackend.Resolved
