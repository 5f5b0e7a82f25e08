import ClassBackend.Llvm.Target
import ClassBackend.Proofs.Machine.Run

/-! A machine for the emitted LLVM IR: temporaries of 64 bits that are assigned as the run goes, and
a memory of words. The stack slots at the head of a function are made before the run begins. Code
outside the unit is reached by address and is not interpreted; it leaves a result and a new memory,
or does not come back. -/
namespace ClassBackend.Llvm

open Machine

abbrev Body := Builder Temp Label Instr

/-- The instruction of that number in the block. -/
def Builder.instr? (b : Body) (l : Label) (n : Nat) : Option Instr :=
  (b.blocks.find? (·.label = l)).bind (·.instrs[n]?)

/-- What arithmetic makes of two signed words. A division that overflows is not defined, and
neither is one by zero. -/
def compute : ArithOp → Int → Int → Meaning.Calc
  | .add, a, b => .result (Int.bmod (a + b) 18446744073709551616)
  | .sub, a, b => .result (Int.bmod (a - b) 18446744073709551616)
  | .mul, a, b => .result (Int.bmod (a * b) 18446744073709551616)
  | .div, a, b =>
    if b = 0 ∨ 9223372036854775808 ≤ a.tdiv b then .undefined else .result (a.tdiv b)

structure Call where
  target : BitVec 64
  args : List (BitVec 64)
  memory : Memory 64

/-- A point of a function. The label before is that of the block that control came from. -/
structure Config where
  label : Label
  index : Nat
  before : Label
  temps : Temp → BitVec 64
  memory : Memory 64

namespace Config

variable (c : Config)

def next : Config := { c with index := c.index + 1 }

/-- The next instruction, after the temporary is assigned. -/
def assign (t : Temp) (x : BitVec 64) : Config :=
  { c.next with temps := Function.update c.temps t x }

def write (a x : BitVec 64) : Config :=
  { c.next with memory := Function.update c.memory a (some x) }

def enter (l : Label) : Config := { c with label := l, index := 0, before := c.label }

end Config

/-- A function and its surroundings, in one activation. -/
structure Site where
  body : Body
  structs : List StructType
  symbol : String → BitVec 64
  self : BitVec 64
  argument : Nat → BitVec 64
  outside : Call → Option (BitVec 64 × Memory 64)

namespace Site

variable (u : Site)

def eval (temps : Temp → BitVec 64) : Operand → BitVec 64
  | .self => u.self
  | .arg i => u.argument i
  | .temp t => temps t
  | .const k => u.symbol k.label
  | .symbol s => u.symbol s
  | .null => 0
  | .int n => BitVec.ofInt 64 n

def value (c : Config) : Rhs → Option (BitVec 64)
  | .load _ p => c.memory (u.eval c.temps p)
  | .element _ p i => some (u.eval c.temps p + BitVec.ofNat 64 (slotSize * i))
  | .row s p i => (u.structs.find? (·.name == s)).map fun k =>
    u.eval c.temps p + BitVec.ofNat 64 (slotSize * k.elements.length) * u.eval c.temps i
  | .entry p i => some (u.eval c.temps p + BitVec.ofNat 64 (slotSize * i))
  | .compare op _ a b =>
    some (if Meaning.holds op (u.eval c.temps a).toInt (u.eval c.temps b).toInt then 1 else 0)
  | .phi incoming => (incoming.find? (·.2 = c.before)).map fun arm => u.eval c.temps arm.1
  | .arith .. | .call .. => none

def callee (c : Config) (f : Operand) (args : List (Ty × Operand)) : Call :=
  ⟨u.eval c.temps f, args.map fun a => u.eval c.temps a.2, c.memory⟩

def settle (c : Config) (t : Temp) : Meaning.Calc → Progress 64 Call Config
  | .result n => .moves (c.assign t (BitVec.ofInt 64 n))
  | .trap => .traps
  | .undefined => .stuck

def define (c : Config) (t : Temp) : Rhs → Progress 64 Call Config
  | .arith op a b =>
    settle c t (compute op (u.eval c.temps a).toInt (u.eval c.temps b).toInt)
  | .call _ f args =>
    .calls (u.callee c f args) ((u.outside (u.callee c f args)).map fun r =>
      { c.assign t r.1 with memory := r.2 })
  | rhs =>
    match u.value c rhs with
    | some x => .moves (c.assign t x)
    | none => .stuck

def perform (c : Config) : Instr → Progress 64 Call Config
  | .assign t rhs => u.define c t rhs
  | .store _ v p =>
    let a := u.eval c.temps p
    let x := u.eval c.temps v
    if (c.memory a).isSome then .writes a x (c.write a x) else .stuck
  | .callVoid f args =>
    .calls (u.callee c f args) ((u.outside (u.callee c f args)).map fun r =>
      { c.next with memory := r.2 })
  | .br l => .moves (c.enter l)
  | .condBr b yes no =>
    let taken := u.eval c.temps b ≠ 0
    .branches taken (c.enter (if taken then yes else no))
  | .ret _ | .unreachable => .stuck

def step (c : Config) : Progress 64 Call Config :=
  match u.body.instr? c.label c.index with
  | some i => u.perform c i
  | none => .stuck

def engine : Engine 64 Call := ⟨Config, u.step, Config.memory⟩

end Site

end ClassBackend.Llvm
