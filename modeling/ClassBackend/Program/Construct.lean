import ClassBackend.Program.Basic
import ClassBackend.Text.Unicode

/-! Constructors for programs written by hand. They fill in the static types that follow from the
parts, and stand on line 1 unless told otherwise. -/
namespace ClassBackend

namespace Expr

def intLit (v : Int64) : Expr := .int ⟨"Int", 1⟩ v
def boolLit (b : Bool) : Expr := .bool ⟨"Bool", 1⟩ b
def strLit (s : String) : Expr := .str ⟨"String", 1⟩ s
def identOf (name ty : String) : Expr := .ident ⟨ty, 1⟩ name
def selfObject : Expr := identOf selfName selfType

def binaryOf (op : BinOp) (lhs rhs : Expr) : Expr :=
  let ty :=
    match op with
    | .plus | .minus | .mul | .div => "Int"
    | .lt | .le | .eq => "Bool"
  .binary ⟨ty, 1⟩ op lhs rhs

def unaryOf (op : UnOp) (operand : Expr) : Expr :=
  let ty :=
    match op with
    | .neg => "Int"
    | .isVoid | .not => "Bool"
  .unary ⟨ty, 1⟩ op operand

def newOf (cls : String) : Expr := .new ⟨cls, 1⟩ cls

def dispatchOf (receiver : Expr) (method : String) (args : List Expr) (ty : String)
    (line : UInt64) : Expr :=
  .dispatch ⟨ty, line⟩ receiver none method args

def staticDispatchOf (receiver : Expr) (staticType method : String) (args : List Expr)
    (ty : String) : Expr :=
  .dispatch ⟨ty, 1⟩ receiver (some staticType) method args

/-- An assignment has the type of its value. -/
def assignOf (name : String) (value : Expr) : Expr := .assign ⟨value.ty, 1⟩ name value

/-- A let has the type of its body. -/
def letOf (name ty : String) (init : Option Expr) (body : Expr) : Expr :=
  .letIn ⟨body.ty, 1⟩ name ty init body

/-- A block has the type of its last part. -/
def blockOf (exprs : List Expr) : Expr :=
  .block ⟨(exprs.getLast?.map Expr.ty).getD "Object", 1⟩ exprs

def loopOf (pred body : Expr) : Expr := .loop ⟨"Object", 1⟩ pred body

def condOf (pred onTrue onFalse : Expr) (ty : String) : Expr :=
  .cond ⟨ty, 1⟩ pred onTrue onFalse

def caseExprOf (scrutinee : Expr) (branches : List (Branch Expr)) (ty : String)
    (line : UInt64) : Expr :=
  .caseOf ⟨ty, line⟩ scrutinee branches

end Expr

def ClassDecl.inOwnFile (name parent : String) (features : List Feature) : ClassDecl :=
  ⟨name, some parent, features, Text.lowerCase name ++ ".cl"⟩

end ClassBackend
