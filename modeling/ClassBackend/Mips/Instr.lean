import ClassBackend.Names
import ClassBackend.Lowering.Backend

/-! MIPS instructions and their assembly text. -/
namespace ClassBackend.Mips

inductive Reg where
  | zero
  /-- The accumulator: every lowered expression leaves its object here. -/
  | a0
  /-- The address argument of the write barrier. -/
  | a1
  | t1 | t2 | t3 | t4 | t5 | t6
  /-- Holds `self` for the whole method body. -/
  | s0
  | sp | fp | ra
  deriving DecidableEq, Repr

namespace Reg

def text : Reg → String
  | .zero => "$zero"
  | .a0 => "$a0"
  | .a1 => "$a1"
  | .t1 => "$t1"
  | .t2 => "$t2"
  | .t3 => "$t3"
  | .t4 => "$t4"
  | .t5 => "$t5"
  | .t6 => "$t6"
  | .s0 => "$s0"
  | .sp => "$sp"
  | .fp => "$fp"
  | .ra => "$ra"

def all : List Reg := [.zero, .a0, .a1, .t1, .t2, .t3, .t4, .t5, .t6, .s0, .sp, .fp, .ra]

/-- The registers handed out for unboxed words, in turn. -/
def scratch : List Reg := [.t2, .t3, .t4, .t5, .t6]

def scratchAt (n : Nat) : Reg := (scratch[n % 5]?).getD .t2

theorem scratchAt_mem (n : Nat) : scratchAt n ∈ scratch := by
  have each : ∀ k < 5, (scratch[k]?).getD .t2 ∈ scratch := by decide
  exact each _ (Nat.mod_lt n (by decide))

theorem scratchAt_succ (n : Nat) : scratchAt n ≠ scratchAt (n + 1) := by
  have each : ∀ k < 5, (scratch[k]?).getD .t2 ≠ (scratch[(k + 1 % 5) % 5]?).getD .t2 := by decide
  have next := each _ (Nat.mod_lt n (by decide))
  rwa [← Nat.add_mod] at next

end Reg

/-- An unboxed word: in a register, or riding in the instruction. -/
inductive Operand where
  | reg (r : Reg)
  | imm (value : Int)
  deriving DecidableEq, Repr

def Operand.text : Operand → String
  | .reg r => r.text
  | .imm i => toString i

/-- A place in the code: a symbol of the unit, or a block inside a method. -/
inductive Label where
  | symbol (name : String)
  | block (b : BlockName)
  deriving DecidableEq, Repr

def Label.text : Label → String
  | .symbol s => s
  | .block b => b.text

/-- Three-operand arithmetic. `other` names an operation that the lowering never asks for. -/
inductive Arith where
  | add | sub | mul | div
  | other (mnemonic : String)
  deriving DecidableEq, Repr

def Arith.mnemonic : Arith → String
  | .add => "add"
  | .sub => "sub"
  | .mul => "mul"
  | .div => "div"
  | .other m => m

/-- Conditional branches. `other` names one that the lowering never asks for. -/
inductive Cond where
  | eq | lt | le | gt
  | other (mnemonic : String)
  deriving DecidableEq, Repr

def Cond.mnemonic : Cond → String
  | .eq => "beq"
  | .lt => "blt"
  | .le => "ble"
  | .gt => "bgt"
  | .other m => m

/-- Immediates and offsets are signed 32-bit words. -/
inductive Instr where
  | label (l : Label)
  | la (dst : Reg) (symbol : String)
  | li (dst : Reg) (value : Int)
  | lw (dst : Reg) (offset : Int) (base : Reg)
  | sw (src : Reg) (offset : Int) (base : Reg)
  | move (dst src : Reg)
  | addiu (dst src : Reg) (value : Int)
  | addu (dst a b : Reg)
  | sll (dst src : Reg) (amount : UInt8)
  | arith (op : Arith) (dst a : Reg) (b : Operand)
  | neg (dst src : Reg)
  | branch (cond : Cond) (a : Reg) (b : Operand) (target : Label)
  | goto (target : Label)
  | jal (symbol : String)
  | jalr (target : Reg)
  | jr (target : Reg)
  deriving DecidableEq, Repr

def operation (mnemonic : String) (operands : List String) : String :=
  "\t" ++ mnemonic ++ "\t" ++ " ".intercalate operands

def address (offset : Int) (base : Reg) : String := toString offset ++ "(" ++ base.text ++ ")"

def Instr.text : Instr → String
  | .label l => l.text ++ ":"
  | .la r s => operation "la" [r.text, s]
  | .li r i => operation "li" [r.text, toString i]
  | .lw r off base => operation "lw" [r.text, address off base]
  | .sw r off base => operation "sw" [r.text, address off base]
  | .move d s => operation "move" [d.text, s.text]
  | .addiu d s i => operation "addiu" [d.text, s.text, toString i]
  | .addu d a b => operation "addu" [d.text, a.text, b.text]
  | .sll d s n => operation "sll" [d.text, s.text, toString n.toNat]
  | .arith op d a b => operation op.mnemonic [d.text, a.text, b.text]
  | .neg d s => operation "neg" [d.text, s.text]
  | .branch c a b l => operation c.mnemonic [a.text, b.text, l.text]
  | .goto l => operation "b" [l.text]
  | .jal s => operation "jal" [s]
  | .jalr r => operation "jalr" [r.text]
  | .jr r => operation "jr" [r.text]

end ClassBackend.Mips
