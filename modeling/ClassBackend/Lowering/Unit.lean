import ClassBackend.Names
import ClassBackend.Lowering.Expr

/-! Emission of a whole unit: for every class, parents first, the initializer and then the methods.
A class sees its ancestors' attributes through the scopes around its own. -/
namespace ClassBackend.Lowering

variable (B : Backend) (cx : Context)

/-- Binds the class's own attributes to their slots, the first of which is `slot`. -/
def bindFields (slot : Nat) : List Field → Lowering B Unit
  | [] => pure ()
  | f :: fs => do
    bindName f.name (.field slot)
    bindFields (slot + 1) fs

/-- Stores the defaults of the class's own fields. -/
def storeDefaults (slot : Nat) : List Field → Lowering B Unit
  | [] => pure ()
  | f :: fs => do
    match NativeKind.ofType? f.ty with
    | some kind => target (B.storeNative B.selfObject cx.current slot kind)
    | none =>
      let v ← defaultValue B f.ty
      target (B.storeField B.selfObject cx.current slot v)
    storeDefaults (slot + 1) fs

/-- Evaluates and stores the initializer expressions, in declaration order. -/
def storeInits (slot : Nat) : List Attribute → Lowering B Unit
  | [] => pure ()
  | a :: rest => do
    match a.init with
    | some init =>
      let v ← lower B cx init
      target (B.storeField B.selfObject cx.current slot v)
      target (B.writeBarrier B.selfObject cx.current slot)
    | none => pure ()
    storeInits (slot + 1) rest

/-- Own defaults, then the parent's initializer, then the initializer expressions. -/
def emitInit : Lowering B Unit := do
  let k := cx.current
  target (B.beginFunction (Linkage.initializer k.name) 0)
  storeDefaults B cx k.ownStart k.ownFields
  match k.parent with
  | some p =>
    let parent ← ofExcept (cx.classes.find p)
    let _ ← target (B.callInit parent B.selfObject)
    pure ()
  | none => pure ()
  storeInits B cx k.ownStart k.decl.attributes
  target (B.endFunction B.selfObject 0)

/-- Binds the formals from number `index` on, out of `count`. -/
def bindFormals (index count : Nat) : List Formal → Lowering B Unit
  | [] => pure ()
  | f :: fs => do
    let access ← target (B.formal index count)
    bindName f.name (.stack access)
    bindFormals (index + 1) count fs

def emitMethod (name : String) (formals : List Formal) (body : Expr) : Lowering B Unit := do
  target (B.beginFunction (Linkage.method cx.current.name name) formals.length)
  pushScope
  bindFormals B 0 formals.length formals
  let result ← lower B cx body
  popScope
  target (B.endFunction result formals.length)

def emitMethods : List MethodDecl → Lowering B Unit
  | [] => pure ()
  | m :: ms => do
    match m.body with
    | some body => emitMethod B cx m.name m.formals body
    | none => fault (.missingBody cx.current.name m.name)
    emitMethods ms

/-- The functions of one class. A built-in class has its methods from the runtime. -/
def emitClass : Lowering B Unit := do
  emitInit B cx
  if cx.current.isBuiltin then pure () else emitMethods B cx cx.current.decl.methods

mutual

def emitTree (classes : ClassTable) : Tree ClassLayout → Lowering B Unit
  | .node k ts => do
    pushScope
    bindFields B k.ownStart k.ownFields
    emitClass B ⟨classes, k⟩
    emitTrees classes ts
    popScope

def emitTrees (classes : ClassTable) : List (Tree ClassLayout) → Lowering B Unit
  | [] => pure ()
  | t :: ts => do
    emitTree classes t
    emitTrees classes ts

end

/-- Runs the backend over every class, from an empty pool and no open scope. -/
def emitUnit (classes : ClassTable) : Except Fault (Session B) := do
  let ((), s) ← emitTree B classes classes.tree { target := B.start }
  if s.scopes.depth = 0 then pure s else .error .unbalancedScopes

end ClassBackend.Lowering
