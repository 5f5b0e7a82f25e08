import ClassBackend.Program.Basic

/-! The five built-in classes. The runtime holds their method bodies; layout and code
generation need only their fields and signatures. -/
namespace ClassBackend

/-- Raw, unboxed field contents. Only built-in classes have such fields. -/
inductive NativeKind where
  | int | bool | string
  deriving DecidableEq, Repr

namespace NativeKind

def name : NativeKind → String
  | .int => "native_int"
  | .bool => "native_bool"
  | .string => "native_string"

def ofType? (ty : String) : Option NativeKind :=
  if ty = "native_int" then some .int
  else if ty = "native_bool" then some .bool
  else if ty = "native_string" then some .string
  else none

end NativeKind

namespace Builtin

def objectName : String := "Object"
def ioName : String := "IO"
def intName : String := "Int"
def boolName : String := "Bool"
def stringName : String := "String"

def mainName : String := "Main"
def mainMethod : String := "main"

def fileName : String := "<basic class>"

def isBuiltin (name : String) : Bool :=
  name == objectName || name == ioName || name == intName || name == boolName || name == stringName

def runtimeMethod (name : String) (formals : List Formal) (returnType : String) : Feature :=
  .method name formals returnType none

def nativeField (name ty : String) : Feature := .attribute name ty none

def object : ClassDecl where
  name := objectName
  parent := none
  features := [
    runtimeMethod "abort" [] objectName,
    runtimeMethod "type_name" [] stringName,
    runtimeMethod "copy" [] selfType]
  fileName := fileName

def io : ClassDecl where
  name := ioName
  parent := some objectName
  features := [
    runtimeMethod "out_string" [⟨"x", stringName⟩] selfType,
    runtimeMethod "out_int" [⟨"x", intName⟩] selfType,
    runtimeMethod "in_string" [] stringName,
    runtimeMethod "in_int" [] intName]
  fileName := fileName

def int : ClassDecl where
  name := intName
  parent := some objectName
  features := [nativeField "_val" "native_int"]
  fileName := fileName

def bool : ClassDecl where
  name := boolName
  parent := some objectName
  features := [nativeField "_val" "native_bool"]
  fileName := fileName

def string : ClassDecl where
  name := stringName
  parent := some objectName
  features := [
    nativeField "_len" intName,
    nativeField "_str" "native_string",
    runtimeMethod "length" [] intName,
    runtimeMethod "concat" [⟨"s", stringName⟩] stringName,
    runtimeMethod "substr" [⟨"i", intName⟩, ⟨"l", intName⟩] stringName]
  fileName := fileName

def classes : List ClassDecl := [object, io, int, bool, string]

end Builtin

/-- Puts the built-in classes that are not declared in front of the others. -/
def Program.withBuiltins (p : Program) : Program :=
  ⟨Builtin.classes.filter (fun b => (p.find? b.name).isNone) ++ p.classes⟩

end ClassBackend
