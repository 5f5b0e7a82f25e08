/-! The typed class hierarchy that the analyzer hands over. Every expression carries its static
type and source line, and nothing here is checked again. -/
namespace ClassBackend

def selfName : String := "self"
def selfType : String := "SELF_TYPE"

inductive BinOp where
  | plus | minus | mul | div | lt | le | eq
  deriving DecidableEq, Repr

inductive UnOp where
  | isVoid | not | neg
  deriving DecidableEq, Repr

/-- What the analyzer knows of an expression: its static type, which may be `SELF_TYPE`, and
the line it stands on. -/
structure Info where
  ty : String
  line : UInt64
  deriving DecidableEq, Repr, Inhabited

structure Branch (ε : Type) where
  name : String
  ty : String
  body : ε
  deriving Repr

inductive Expr where
  | bool (info : Info) (value : Bool)
  | int (info : Info) (value : Int64)
  | str (info : Info) (text : String)
  /-- An identifier, `self` included. -/
  | ident (info : Info) (name : String)
  | binary (info : Info) (op : BinOp) (lhs rhs : Expr)
  | unary (info : Info) (op : UnOp) (operand : Expr)
  | new (info : Info) (cls : String)
  | caseOf (info : Info) (scrutinee : Expr) (branches : List (Branch Expr))
  | letIn (info : Info) (name ty : String) (init : Option Expr) (body : Expr)
  | block (info : Info) (exprs : List Expr)
  | loop (info : Info) (pred body : Expr)
  | cond (info : Info) (pred onTrue onFalse : Expr)
  /-- `staticType` is present in `e@T.m(...)`. -/
  | dispatch (info : Info) (receiver : Expr) (staticType : Option String) (method : String)
      (args : List Expr)
  | assign (info : Info) (name : String) (value : Expr)

structure Formal where
  name : String
  ty : String
  deriving DecidableEq, Repr

inductive Feature where
  | attribute (name ty : String) (init : Option Expr)
  /-- The body is absent where the runtime provides it. -/
  | method (name : String) (formals : List Formal) (returnType : String) (body : Option Expr)

structure ClassDecl where
  name : String
  /-- Absent only for the root. -/
  parent : Option String
  features : List Feature
  fileName : String

structure Program where
  classes : List ClassDecl

structure Attribute where
  name : String
  ty : String
  init : Option Expr

structure MethodDecl where
  name : String
  formals : List Formal
  body : Option Expr

namespace Expr

def info : Expr → Info
  | .bool i _ | .int i _ | .str i _ | .ident i _ | .binary i _ _ _ | .unary i _ _ | .new i _
  | .caseOf i _ _ | .letIn i _ _ _ _ | .block i _ | .loop i _ _ | .cond i _ _ _
  | .dispatch i _ _ _ _ | .assign i _ _ => i

def ty (e : Expr) : String := e.info.ty
def line (e : Expr) : UInt64 := e.info.line

def kindName : Expr → String
  | .bool .. => "Bool"
  | .int .. => "Int"
  | .str .. => "Str"
  | .ident .. => "Object"
  | .binary .. => "Binary"
  | .unary .. => "Unary"
  | .new .. => "New"
  | .caseOf .. => "Case"
  | .letIn .. => "Let"
  | .block .. => "Block"
  | .loop .. => "While"
  | .cond .. => "If"
  | .dispatch .. => "Dispatch"
  | .assign .. => "Assign"

end Expr

namespace ClassDecl

def attributes (c : ClassDecl) : List Attribute :=
  c.features.filterMap fun
    | .attribute name ty init => some ⟨name, ty, init⟩
    | .method .. => none

def methods (c : ClassDecl) : List MethodDecl :=
  c.features.filterMap fun
    | .method name formals _ body => some ⟨name, formals, body⟩
    | .attribute .. => none

end ClassDecl

def Program.find? (p : Program) (name : String) : Option ClassDecl :=
  p.classes.find? fun c => c.name == name

end ClassBackend
