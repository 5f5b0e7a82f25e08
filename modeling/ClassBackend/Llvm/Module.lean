import ClassBackend.Llvm.Code

/-! Entry points of the native runtime and their declarations. -/
namespace ClassBackend.Llvm

structure Declaration where
  result : Option Ty
  symbol : String
  params : List Ty
  noreturn : Bool
  deriving DecidableEq, Repr

def Declaration.text (d : Declaration) : String :=
  "declare " ++ (match d.result with
    | some ty => ty.text
    | none => "void") ++
    " @" ++ d.symbol ++ "(" ++ commas (d.params.map Ty.text) ++ ")" ++
    (if d.noreturn then " noreturn" else "")

inductive Routine where
  | gcAlloc | equals | writeBarrier | caseAbort | caseAbort2 | dispatchAbort
  deriving DecidableEq, Repr

namespace Routine

def symbol : Routine → String
  | .gcAlloc => "_gc_alloc"
  | .equals => "_equals"
  | .writeBarrier => "_gc_write_barrier"
  | .caseAbort => "_case_abort"
  | .caseAbort2 => "_case_abort2"
  | .dispatchAbort => "_dispatch_abort"

def all : List Routine := [gcAlloc, equals, writeBarrier, caseAbort, caseAbort2, dispatchAbort]

def declaration (r : Routine) : Declaration :=
  match r with
  | .gcAlloc => ⟨some .ptr, r.symbol, [.i64, .i64, .ptr], false⟩
  | .equals => ⟨some .i64, r.symbol, [.ptr, .ptr], false⟩
  | .writeBarrier => ⟨none, r.symbol, [.ptr], false⟩
  | .caseAbort | .caseAbort2 | .dispatchAbort => ⟨none, r.symbol, [.ptr, .i64], true⟩

def ofAbort : AbortKind → Routine
  | .caseNoMatch => .caseAbort
  | .caseOnVoid => .caseAbort2
  | .dispatchOnVoid => .dispatchAbort

end Routine

end ClassBackend.Llvm

/-! Objects in memory: three header words and then the fields, each in a slot of 64 bits. -/
namespace ClassBackend.Llvm

def slotSize : Nat := 8
def headerFields : Nat := 3

/-- One row of the class-object table: tag, size, dispatch table, initializer. -/
def classObject : String := "class_obj"

def fieldType (ty : String) : Ty :=
  match NativeKind.ofType? ty with
  | some .int | some .bool => .i64
  | some .string | none => .ptr

def objectSize (k : ClassLayout) : Nat := slotSize * (headerFields + k.fields.length)

/-- Indices are counted in 64 bits. -/
def indexLimit : Nat := 18446744073709551616

/-- The element of the struct that holds a field. -/
def fieldIndex (slot : Nat) : Except Fault Nat :=
  if headerFields + slot < indexLimit then .ok (headerFields + slot) else .error (.overflow .add)

def structTypes (k : ClassLayout) : List Ty :=
  [.i64, .i64, .ptr] ++ k.fields.map fun f => fieldType f.ty

def classObjectTypes : List Ty := [.i64, .i64, .ptr, .ptr]

end ClassBackend.Llvm

/-! A module of the native backend: struct types, dispatch tables, pooled constants, the tables of
all classes, declarations, functions and the entry point. -/
namespace ClassBackend.Llvm

def hexByte (b : UInt8) : String :=
  let digit (n : Nat) : Char := if n < 10 then Char.ofNat (48 + n) else Char.ofNat (55 + n)
  String.ofList [digit (b.toNat / 16), digit (b.toNat % 16)]

/-- One byte inside `c"..."`: a printable character, or a backslash and two digits. -/
def escapeByte (b : UInt8) : String :=
  if 32 ≤ b ∧ b ≤ 126 ∧ b ≠ 34 ∧ b ≠ 92 then String.singleton (Char.ofNat b.toNat)
  else "\\" ++ hexByte b

/-- The bytes of a text and a final zero, as they stand inside `c"..."`. -/
def cString (s : String) : String := String.join ((s.toUTF8.toList ++ [0]).map escapeByte)

inductive Global where
  | pointers (name : String) (entries : List String)
  | object (name struct : String) (elements : List (Ty × Operand))
  /-- The bytes of a text and a final zero. -/
  | bytes (name text : String)
  | records (name struct : String) (rows : List (List (Ty × Operand)))
  deriving DecidableEq, Repr

def braces (s : String) : String := "\x7b " ++ s ++ " \x7d"

def Global.text : Global → String
  | .pointers name entries =>
    "@" ++ name ++ " = constant [" ++ toString entries.length ++ " x ptr] [" ++
      commas (entries.map fun e => "ptr @" ++ e) ++ "]"
  | .object name struct elements =>
    "@" ++ name ++ " = global " ++ Linkage.struct struct ++ " " ++
      braces (commas (elements.map typed))
  | .bytes name s =>
    "@" ++ name ++ " = private unnamed_addr constant [" ++ toString (s.utf8ByteSize + 1) ++
      " x i8] c\"" ++ cString s ++ "\""
  | .records name struct rows =>
    "@" ++ name ++ " = constant [" ++ toString rows.length ++ " x " ++ Linkage.struct struct ++
      "] [" ++
      commas (rows.map fun r => Linkage.struct struct ++ " " ++ braces (commas (r.map typed))) ++
      "]"

structure StructType where
  name : String
  elements : List Ty
  deriving DecidableEq, Repr

def StructType.text (t : StructType) : String :=
  Linkage.struct t.name ++ " = type " ++ braces (commas (t.elements.map Ty.text))

structure Module where
  sourceName : String
  structs : List StructType
  dispatchTables : List Global
  constants : List Global
  classTables : List Global
  declarations : List Declaration
  functions : List Function
  main : ClassLayout

namespace Module

/-- Tag, size and dispatch table, as in every object's header. -/
def header (k : ClassLayout) : List (Ty × Operand) := [
  (.i64, .int k.tag),
  (.i64, .int (objectSize k)),
  (.ptr, .symbol (Linkage.dispatchTable k.name))]

def structsOf (classes : ClassTable) : List StructType :=
  ⟨classObject, classObjectTypes⟩ :: classes.classes.map fun k => ⟨k.name, structTypes k⟩

def dispatchTablesOf (classes : ClassTable) : List Global :=
  classes.classes.map fun k =>
    .pointers (Linkage.dispatchTable k.name) (k.methods.map Method.label)

def intObject (int : ClassLayout) (c : Const) (v : Int64) : Global :=
  .object c.label Builtin.intName (header int ++ [(.i64, .int v.toInt)])

def boolObject (bool : ClassLayout) (v : Bool) : Global :=
  .object (Const.bool v).label Builtin.boolName
    (header bool ++ [(.i64, .int (if v then 1 else 0))])

def stringData (index : Nat) : String := "str_data" ++ toString index

/-- The bytes of the text number `index`, and the object that points at them. -/
def stringObject (string : ClassLayout) (index : Nat) (c : Const) (s : String) (length : Const) :
    List Global := [
  .bytes (stringData index) s,
  .object c.label Builtin.stringName
    (header string ++ [(.ptr, .const length), (.ptr, .symbol (stringData index))])]

def constantsOf (classes : ClassTable) (pool : Pool) : Except Fault (List Global) := do
  let int ← classes.find Builtin.intName
  let bool ← classes.find Builtin.boolName
  let string ← classes.find Builtin.stringName
  let entries ← pool.toTables.stringEntries
  pure <|
    pool.intEntries.map (fun (c, v) => intObject int c v) ++
    [boolObject bool false, boolObject bool true] ++
    entries.zipIdx.flatMap fun ((c, s, length), i) => stringObject string i c s length

/-- The class-object table and the class-name table, both in tag order. -/
def classTablesOf (classes : ClassTable) (pool : Pool) : List Global := [
  .records Linkage.classObjects classObject
    (classes.classes.map fun k => header k ++ [(.ptr, .symbol (Linkage.initializer k.name))]),
  .pointers Linkage.classNames (classes.classes.map fun k => (pool.string k.name).1.label)]

/-- Runtime entry points, and the methods whose bodies the runtime provides. -/
def declarationsOf (classes : ClassTable) : List Declaration :=
  Routine.all.map Routine.declaration ++
    (classes.classes.filter ClassLayout.isBuiltin).flatMap fun k =>
      k.decl.methods.map fun m =>
        ⟨some .ptr, Linkage.method k.name m.name, List.replicate (m.formals.length + 1) .ptr,
          false⟩

/-- The pool with the names of all classes. -/
def complete (classes : ClassTable) (pool : Pool) : Pool :=
  classes.classes.foldl (fun p k => (p.string k.name).2) pool

def build (sourceName : String) (classes : ClassTable) (pool : Pool) (functions : List Function) :
    Except Fault Module := do
  let pool := complete classes pool
  let constants ← constantsOf classes pool
  let main ← classes.find Builtin.mainName
  pure {
    sourceName
    structs := structsOf classes
    dispatchTables := dispatchTablesOf classes
    constants
    classTables := classTablesOf classes pool
    declarations := declarationsOf classes
    functions
    main }

/-- Makes an object of `Main`, initializes it and runs its method `main`. -/
def entryPoint (main : ClassLayout) : List String := [
  "define i32 @main() \x7b",
  "entry:",
  "  %obj = " ++ callText "ptr" (.symbol Routine.gcAlloc.symbol) (header main),
  "  %main = call ptr @" ++ Linkage.initializer Builtin.mainName ++ "(ptr %obj)",
  "  %result = call ptr @" ++ Linkage.method Builtin.mainName Builtin.mainMethod ++ "(ptr %main)",
  "  ret i32 0",
  "\x7d"]

/-- The source name is written as it is. -/
def sourceLine (name : String) : String := "source_filename = \"" ++ name ++ "\""

def lines (m : Module) : List String :=
  ["; ModuleID = 'coolc'", sourceLine m.sourceName, ""] ++
    m.structs.map StructType.text ++ [""] ++
    m.dispatchTables.map Global.text ++ [""] ++
    m.constants.map Global.text ++ [""] ++
    m.classTables.map Global.text ++ [""] ++
    m.declarations.map Declaration.text ++ [""] ++
    m.functions.map Function.text ++
    entryPoint m.main

def text (m : Module) : String := String.join (m.lines.map fun l => l ++ "\n")

end Module

end ClassBackend.Llvm
