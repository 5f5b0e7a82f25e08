import ClassBackend.Names
import ClassBackend.Lowering.Backend
import ClassBackend.Llvm.Builder

/-! Instructions of the native backend and their text in LLVM IR with opaque pointers. Objects are
`ptr` and unboxed words `i64`; a value is a temporary assigned once. -/
namespace ClassBackend.Llvm

inductive Ty where
  | i64 | ptr
  deriving DecidableEq, Repr

def Ty.text : Ty → String
  | .i64 => "i64"
  | .ptr => "ptr"

inductive Operand where
  | self
  /-- A parameter, counted without `self`. -/
  | arg (index : Nat)
  | temp (t : Temp)
  | const (c : Const)
  | symbol (name : String)
  | null
  | int (value : Int)
  deriving DecidableEq, Repr

def Operand.text : Operand → String
  | .self => "%self"
  | .arg i => "%arg" ++ toString i
  | .temp t => "%" ++ t.text
  | .const c => "@" ++ c.label
  | .symbol s => "@" ++ s
  | .null => "null"
  | .int v => toString v

inductive Label where
  | entry
  | block (b : BlockName)
  deriving DecidableEq, Repr

def Label.text : Label → String
  | .entry => "entry"
  | .block b => b.text

def opcode : ArithOp → String
  | .add => "add"
  | .sub => "sub"
  | .mul => "mul"
  | .div => "sdiv"

def condition : Relop → String
  | .eq => "eq"
  | .lt => "slt"
  | .le => "sle"
  | .gt => "sgt"

inductive Rhs where
  | load (ty : Ty) (address : Operand)
  | element (struct : String) (base : Operand) (index : Nat)
  | row (struct : String) (base : Operand) (index : Operand)
  | entry (base : Operand) (slot : Nat)
  | arith (op : ArithOp) (a b : Operand)
  | compare (op : Relop) (ty : Ty) (a b : Operand)
  | phi (incoming : List (Operand × Label))
  | call (result : Ty) (callee : Operand) (args : List (Ty × Operand))
  deriving DecidableEq, Repr

inductive Instr where
  | assign (t : Temp) (rhs : Rhs)
  | store (ty : Ty) (value address : Operand)
  | callVoid (callee : Operand) (args : List (Ty × Operand))
  | br (target : Label)
  | condBr (cond : Operand) (onTrue onFalse : Label)
  | ret (value : Operand)
  | unreachable
  deriving DecidableEq, Repr

def commas (items : List String) : String := ", ".intercalate items

def typed (a : Ty × Operand) : String := a.1.text ++ " " ++ a.2.text

def callText (result : String) (callee : Operand) (args : List (Ty × Operand)) : String :=
  "call " ++ result ++ " " ++ callee.text ++ "(" ++ commas (args.map typed) ++ ")"

def Rhs.text : Rhs → String
  | .load ty p => "load " ++ ty.text ++ ", ptr " ++ p.text
  | .element s p i =>
    "getelementptr " ++ Linkage.struct s ++ ", ptr " ++ p.text ++ ", i32 0, i32 " ++ toString i
  | .row s p i => "getelementptr " ++ Linkage.struct s ++ ", ptr " ++ p.text ++ ", i64 " ++ i.text
  | .entry p i => "getelementptr ptr, ptr " ++ p.text ++ ", i64 " ++ toString i
  | .arith op a b => opcode op ++ " i64 " ++ a.text ++ ", " ++ b.text
  | .compare op ty a b =>
    "icmp " ++ condition op ++ " " ++ ty.text ++ " " ++ a.text ++ ", " ++ b.text
  | .phi incoming =>
    "phi ptr " ++ commas (incoming.map fun (v, l) => "[ " ++ v.text ++ ", %" ++ l.text ++ " ]")
  | .call result callee args => callText result.text callee args

def Instr.text : Instr → String
  | .assign t rhs => "%" ++ t.text ++ " = " ++ rhs.text
  | .store ty v p => "store " ++ ty.text ++ " " ++ v.text ++ ", ptr " ++ p.text
  | .callVoid callee args => callText "void" callee args
  | .br l => "br label %" ++ l.text
  | .condBr c t f => "br i1 " ++ c.text ++ ", label %" ++ t.text ++ ", label %" ++ f.text
  | .ret v => "ret ptr " ++ v.text
  | .unreachable => "unreachable"

instance : CodeText Temp Label Instr where
  entry := .entry
  branch := .br
  slotText t := (Operand.temp t).text
  labelText := Label.text
  instrText := Instr.text

structure Function where
  label : String
  formals : Nat
  body : Builder Temp Label Instr

namespace Function

def signature (f : Function) : String :=
  "ptr @" ++ f.label ++ "(" ++
    commas ("ptr %self" :: (List.range f.formals).map fun i => "ptr %arg" ++ toString i) ++ ")"

def text (f : Function) : String := f.body.render f.signature

end Function

end ClassBackend.Llvm
