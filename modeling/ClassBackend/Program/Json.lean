import ClassBackend.Program.Basic
import ClassBackend.Json.Value

/-! The JSON form of a program, written in full: absent parts are `null`. -/
namespace ClassBackend

open Json (Value)

def BinOp.name : BinOp → String
  | .plus => "Plus"
  | .minus => "Minus"
  | .mul => "Mul"
  | .div => "Div"
  | .lt => "Lt"
  | .le => "Le"
  | .eq => "Eq"

def UnOp.name : UnOp → String
  | .isVoid => "IsVoid"
  | .not => "Not"
  | .neg => "Neg"

/-- An expression around its kind, whose name is the only key. -/
def Info.toJson (info : Info) (kind : String) (content : Value) : Value :=
  .obj [("kind", .obj [(kind, content)]), ("ty", .str info.ty), ("line", .int info.line.toNat)]

namespace Expr

mutual

def toJson : Expr → Value
  | .bool i b => i.toJson "Bool" (.bool b)
  | .int i v => i.toJson "Int" (.int v.toInt)
  | .str i s => i.toJson "Str" (.str s)
  | .ident i name => i.toJson "Object" (.str name)
  | .binary i op lhs rhs =>
    i.toJson "Binary" (.obj [("op", .str op.name), ("lhs", toJson lhs), ("rhs", toJson rhs)])
  | .unary i op e => i.toJson "Unary" (.obj [("op", .str op.name), ("expr", toJson e)])
  | .new i cls => i.toJson "New" (.str cls)
  | .caseOf i e branches =>
    i.toJson "Case" (.obj [("scrutinee", toJson e), ("branches", .arr (branchesToJson branches))])
  | .letIn i name ty init body =>
    i.toJson "Let" (.obj [
      ("name", .str name), ("ty", .str ty), ("init", optionToJson init), ("body", toJson body)])
  | .block i es => i.toJson "Block" (.arr (listToJson es))
  | .loop i pred body => i.toJson "While" (.obj [("pred", toJson pred), ("body", toJson body)])
  | .cond i pred onTrue onFalse =>
    i.toJson "If" (.obj [
      ("pred", toJson pred), ("then", toJson onTrue), ("els", toJson onFalse)])
  | .dispatch i recv staticType method args =>
    i.toJson "Dispatch" (.obj [
      ("receiver", toJson recv), ("static_type", .ofOption .str staticType),
      ("method", .str method), ("args", .arr (listToJson args))])
  | .assign i name e => i.toJson "Assign" (.obj [("name", .str name), ("expr", toJson e)])

def listToJson : List Expr → List Value
  | [] => []
  | e :: es => toJson e :: listToJson es

def branchesToJson : List (Branch Expr) → List Value
  | [] => []
  | ⟨name, ty, body⟩ :: bs =>
    .obj [("name", .str name), ("ty", .str ty), ("body", toJson body)] :: branchesToJson bs

def optionToJson : Option Expr → Value
  | none => .null
  | some e => toJson e

end

end Expr

def Formal.toJson (f : Formal) : Value := .obj [("name", .str f.name), ("ty", .str f.ty)]

def Feature.toJson : Feature → Value
  | .attribute name ty init =>
    .obj [("Attribute", .obj [
      ("name", .str name), ("ty", .str ty), ("init", Expr.optionToJson init)])]
  | .method name formals returnType body =>
    .obj [("Method", .obj [
      ("name", .str name), ("formals", .arr (formals.map Formal.toJson)),
      ("return_type", .str returnType), ("body", Expr.optionToJson body)])]

def ClassDecl.toJson (c : ClassDecl) : Value :=
  .obj [
    ("name", .str c.name), ("parent", .ofOption .str c.parent),
    ("features", .arr (c.features.map Feature.toJson)), ("file_name", .str c.fileName)]

def Program.toJson (p : Program) : Value :=
  .obj [("classes", .arr (p.classes.map ClassDecl.toJson))]

end ClassBackend
