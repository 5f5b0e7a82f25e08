import ClassBackend.Program.Json
import ClassBackend.Json.Record

/-! Reading a program from its JSON form. -/
namespace ClassBackend

open Json (Decoder Fields Variant Refusal)

open Json.Fields (required optional build1 build2 build3 build4)
open Json.Variant (constant content)

def BinOp.all : List BinOp := [.plus, .minus, .mul, .div, .lt, .le, .eq]
def UnOp.all : List UnOp := [.isVoid, .not, .neg]

def BinOp.decoder : Decoder BinOp := Json.oneOf (BinOp.all.map fun op => constant op.name op)
def UnOp.decoder : Decoder UnOp := Json.oneOf (UnOp.all.map fun op => constant op.name op)

namespace Expr

def branch (expr : Decoder Expr) : Decoder (Branch Expr) :=
  Json.record (build3 Branch.mk
    (required "name" Json.string) (required "ty" Json.string) (required "body" expr))

/-- The content of an expression, which waits for its type and line. -/
def kinds (expr : Decoder Expr) : List (Variant (Info → Expr)) := [
  content "Bool" fun l => (fun b i => .bool i b) <$> Json.bool l,
  content "Int" fun l => (fun v i => .int i v) <$> Json.int64 l,
  content "Str" fun l => (fun s i => .str i s) <$> Json.string l,
  content "Object" fun l => (fun x i => .ident i x) <$> Json.string l,
  content "Binary" (Json.record (build3 (fun op lhs rhs i => .binary i op lhs rhs)
    (required "op" BinOp.decoder) (required "lhs" expr) (required "rhs" expr))),
  content "Unary" (Json.record (build2 (fun op e i => .unary i op e)
    (required "op" UnOp.decoder) (required "expr" expr))),
  content "New" fun l => (fun ty i => .new i ty) <$> Json.string l,
  content "Case" (Json.record (build2 (fun e bs i => .caseOf i e bs)
    (required "scrutinee" expr) (required "branches" (Json.list (branch expr))))),
  content "Let" (Json.record (build4 (fun name ty init body i => .letIn i name ty init body)
    (required "name" Json.string) (required "ty" Json.string) (optional "init" expr)
    (required "body" expr))),
  content "Block" fun l => (fun es i => .block i es) <$> Json.list expr l,
  content "While" (Json.record (build2 (fun pred body i => .loop i pred body)
    (required "pred" expr) (required "body" expr))),
  content "If" (Json.record (build3 (fun pred onTrue onFalse i => .cond i pred onTrue onFalse)
    (required "pred" expr) (required "then" expr) (required "els" expr))),
  content "Dispatch" (Json.record (build4
    (fun recv staticType method args i => .dispatch i recv staticType method args)
    (required "receiver" expr) (optional "static_type" Json.string)
    (required "method" Json.string) (required "args" (Json.list expr)))),
  content "Assign" (Json.record (build2 (fun name e i => .assign i name e)
    (required "name" Json.string) (required "expr" expr)))]

def decoderWith (inner : Decoder Expr) : Decoder Expr :=
  Json.record (build3 (fun kind ty line => kind ⟨ty, line⟩)
    (required "kind" (Json.oneOf (kinds inner))) (required "ty" Json.string)
    (required "line" Json.uint64))

def decoderUpTo : Nat → Decoder Expr
  | 0 => fun _ => Json.refuse .malformed
  | n + 1 => fun l => decoderWith (decoderUpTo n) l

/-- Every expression opens an object, so the limit on nesting bounds the depth. -/
def decoder : Decoder Expr := fun l => decoderUpTo (l.nesting + 1) l

end Expr

def Formal.decoder : Decoder Formal :=
  Json.record (build2 Formal.mk (required "name" Json.string) (required "ty" Json.string))

def Feature.decoder : Decoder Feature :=
  Json.oneOf [
    content "Attribute" (Json.record (build3 Feature.attribute
      (required "name" Json.string) (required "ty" Json.string) (optional "init" Expr.decoder))),
    content "Method" (Json.record (build4 Feature.method
      (required "name" Json.string) (required "formals" (Json.list Formal.decoder))
      (required "return_type" Json.string) (optional "body" Expr.decoder)))]

def ClassDecl.decoder : Decoder ClassDecl :=
  Json.record (build4 ClassDecl.mk
    (required "name" Json.string) (optional "parent" Json.string)
    (required "features" (Json.list Feature.decoder)) (required "file_name" Json.string))

namespace Program

def decoder : Decoder Program :=
  Json.record (build1 Program.mk (required "classes" (Json.list ClassDecl.decoder)))

def maxNesting : Nat := 127

def ofJson (text : String) : Except Refusal Program := Json.decode decoder maxNesting text

end Program

end ClassBackend
