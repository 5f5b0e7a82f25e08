import ClassBackend.Mips.Target
import ClassBackend.Proofs.Machine.Run

/-! A machine for the emitted MIPS instructions: registers of 32 bits and a memory of words. Code
outside the unit is reached by address and is not interpreted; it leaves new registers and a new
memory, or does not come back. -/
namespace ClassBackend.Mips

open Machine

structure Cpu where
  regs : Reg → BitVec 32
  mem : Memory 32

namespace Cpu

def get (s : Cpu) (r : Reg) : BitVec 32 := if r = .zero then 0 else s.regs r

def set (s : Cpu) (r : Reg) (x : BitVec 32) : Cpu :=
  { s with regs := Function.update s.regs r x }

def operand (s : Cpu) : Operand → BitVec 32
  | .reg r => s.get r
  | .imm i => BitVec.ofInt 32 i

def store (s : Cpu) (a x : BitVec 32) : Cpu := { s with mem := Function.update s.mem a (some x) }

@[simp] theorem set_mem (s : Cpu) (r : Reg) (x : BitVec 32) : (s.set r x).mem = s.mem := rfl

@[simp] theorem store_get (s : Cpu) (a x : BitVec 32) (r : Reg) :
    (s.store a x).get r = s.get r := rfl

@[simp] theorem get_zero (s : Cpu) : s.get .zero = 0 := rfl

theorem get_set (s : Cpu) (r q : Reg) (x : BitVec 32) :
    (s.set r x).get q = if q = .zero then 0 else if q = r then x else s.get q := by
  by_cases zero : q = .zero
  · simp [get, zero]
  · by_cases same : q = r
    · simp [get, set, same]
    · simp [get, set, zero, same]

@[simp] theorem get_set_self (s : Cpu) {r : Reg} (x : BitVec 32) (nonzero : r ≠ .zero) :
    (s.set r x).get r = x := by
  simp [get_set, nonzero]

@[simp] theorem get_set_ne (s : Cpu) {r q : Reg} (x : BitVec 32) (differ : q ≠ r) :
    (s.set r x).get q = s.get q := by
  by_cases zero : q = .zero
  · simp [get, zero]
  · simp [get_set, zero, differ]

end Cpu

/-- What arithmetic makes of two signed words. Multiplication keeps the low word; the other
operations raise an exception where the result is out of range. -/
def compute : ArithOp → Int → Int → Meaning.Calc
  | .add, a, b => if Word.fits (a + b) then .result (a + b) else .trap
  | .sub, a, b => if Word.fits (a - b) then .result (a - b) else .trap
  | .mul, a, b => .result (Int.bmod (a * b) 4294967296)
  | .div, a, b =>
    if b = 0 then .trap else if Word.fits (a.tdiv b) then .result (a.tdiv b) else .trap

def Arith.operation? : Arith → Option ArithOp
  | .add => some .add
  | .sub => some .sub
  | .mul => some .mul
  | .div => some .div
  | .other _ => none

def Cond.relation? : Cond → Option Relop
  | .eq => some .eq
  | .lt => some .lt
  | .le => some .le
  | .gt => some .gt
  | .other _ => none

structure Call where
  target : BitVec 32
  cpu : Cpu

structure Site where
  code : List Instr
  symbol : String → BitVec 32
  outside : BitVec 32 → Cpu → Option Cpu

structure Config where
  pc : Nat
  cpu : Cpu

namespace Site

variable (u : Site)

def position (b : BlockName) : Nat := u.code.idxOf (.label (.block b))

def effect (s : Cpu) : Instr → Option Cpu
  | .label _ => some s
  | .la d name => some (s.set d (u.symbol name))
  | .li d v => some (s.set d (BitVec.ofInt 32 v))
  | .lw d off b => (s.mem (s.get b + BitVec.ofInt 32 off)).map (s.set d)
  | .move d r => some (s.set d (s.get r))
  | .addiu d r v => some (s.set d (s.get r + BitVec.ofInt 32 v))
  | .addu d a b => some (s.set d (s.get a + s.get b))
  | .sll d r n => some (s.set d (s.get r <<< n.toNat))
  | _ => none

def settle (c : Config) (d : Reg) : Meaning.Calc → Progress 32 Call Config
  | .result n => .moves ⟨c.pc + 1, c.cpu.set d (BitVec.ofInt 32 n)⟩
  | .trap => .traps
  | .undefined => .stuck

def call (c : Config) (a : BitVec 32) : Progress 32 Call Config :=
  .calls ⟨a, c.cpu⟩ ((u.outside a c.cpu).map fun s => ⟨c.pc + 1, s⟩)

def perform (c : Config) : Instr → Progress 32 Call Config
  | .sw r off b =>
    let a := c.cpu.get b + BitVec.ofInt 32 off
    if (c.cpu.mem a).isSome then .writes a (c.cpu.get r) ⟨c.pc + 1, c.cpu.store a (c.cpu.get r)⟩
    else .stuck
  | .arith op d a b =>
    match op.operation? with
    | some op => settle c d (compute op (c.cpu.get a).toInt (c.cpu.operand b).toInt)
    | none => .stuck
  | .neg d a => settle c d (compute .sub 0 (c.cpu.get a).toInt)
  | .branch cond a b l =>
    match cond.relation? with
    | some op =>
      let taken := Meaning.holds op (c.cpu.get a).toInt (c.cpu.operand b).toInt
      .branches taken ⟨if taken then u.code.idxOf (.label l) else c.pc + 1, c.cpu⟩
    | none => .stuck
  | .goto l => .moves ⟨u.code.idxOf (.label l), c.cpu⟩
  | .jal name => u.call c (u.symbol name)
  | .jalr r => u.call c (c.cpu.get r)
  | i =>
    match u.effect c.cpu i with
    | some s => .moves ⟨c.pc + 1, s⟩
    | none => .stuck

def step (c : Config) : Progress 32 Call Config :=
  match u.code[c.pc]? with
  | some i => u.perform c i
  | none => .stuck

def engine : Engine 32 Call := ⟨Config, u.step, fun c => c.cpu.mem⟩

end Site

end ClassBackend.Mips
