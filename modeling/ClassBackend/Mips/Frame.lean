import ClassBackend.Fault
import ClassBackend.Mips.Instr

/-! Signed 32-bit words, as the integers they stand for. Arithmetic on offsets stops where it
leaves the range; taking the low word of a count does not. -/
namespace ClassBackend.Mips.Word

def fits (n : Int) : Bool := -2147483648 ≤ n && n ≤ 2147483647

/-- The signed reading of the low 32 bits. -/
def low (n : Nat) : Int := Int.bmod n 4294967296

def checked (op : Overflow) (n : Int) : Except Fault Int :=
  if fits n then .ok n else .error (.overflow op)

def add (a b : Int) : Except Fault Int := checked .add (a + b)
def sub (a b : Int) : Except Fault Int := checked .subtract (a - b)
def mul (a b : Int) : Except Fault Int := checked .multiply (a * b)

def ofLiteral (v : Int) : Except Fault Int := if fits v then .ok v else .error (.wordRange v)

end ClassBackend.Mips.Word

/-! Activation records. Above the frame pointer stand the arguments, the first one highest; at it
and below are the caller's `$fp` and `$s0` and the return address, then locals and saved
temporaries, pushed downwards. `$sp` points at the next free word, and the callee pops its
arguments. -/
namespace ClassBackend.Mips

def wordSize : Int := 4
def tagOffset : Int := 0
def dispatchTableOffset : Int := 8
def headerSize : Int := 12

/-- Room for the saved `$fp`, `$s0` and return address. -/
def savedArea : Int := 12

def fieldOffset (slot : Nat) : Except Fault Int := do
  Word.add headerSize (← Word.mul wordSize (Word.low slot))

structure Frame where
  formals : Nat
  /-- How far `$sp` is from `$fp` at this point of the code. -/
  spOffset : Int
  deriving DecidableEq, Repr

namespace Frame

def new (formals : Nat) : Frame := ⟨formals, -savedArea⟩

def formalOffset (f : Frame) (index : Nat) : Except Fault Int :=
  if index < f.formals then Word.mul wordSize (Word.low (f.formals - index))
  else .error (.formalOutOfRange index)

def pushCode (r : Reg) : List Instr := [.sw r 0 .sp, .addiu .sp .sp (-wordSize)]
def popCode (into : Reg) : List Instr := [.lw into wordSize .sp, .addiu .sp .sp wordSize]
def discardCode : List Instr := [.addiu .sp .sp wordSize]

/-- Takes the next free word; answers its offset from `$fp`. -/
def push (f : Frame) : Except Fault (Int × Frame) := do
  let offset ← Word.sub f.spOffset wordSize
  pure (f.spOffset, { f with spOffset := offset })

/-- Gives back a word, which must be the newest. -/
def release (f : Frame) (slot : Int) : Except Fault Frame := do
  let top ← Word.add f.spOffset wordSize
  if slot = top then pure { f with spOffset := top } else .error .releasedOutOfOrder

/-- A callee has popped `n` words that this frame pushed. -/
def calleePopped (f : Frame) (n : Nat) : Except Fault Frame := do
  let offset ← Word.add f.spOffset (← Word.mul wordSize (Word.low n))
  if offset ≤ -savedArea then pure { f with spOffset := offset }
  else .error .calleePoppedTooMuch

def prologue : List Instr := [
  .addiu .sp .sp (-savedArea),
  .sw .fp 12 .sp,
  .sw .s0 8 .sp,
  .sw .ra 4 .sp,
  .addiu .fp .sp savedArea,
  .move .s0 .a0]

/-- Restores the caller's registers and pops the saved area and the arguments. -/
def epilogue (f : Frame) : Except Fault (List Instr) := do
  if f.spOffset = -savedArea then
    let popped ← Word.add savedArea (← Word.mul wordSize (Word.low f.formals))
    pure [
      .lw .ra 4 .sp,
      .lw .s0 8 .sp,
      .lw .fp 12 .sp,
      .addiu .sp .sp popped,
      .jr .ra]
  else .error .stackNotBalanced

end Frame

end ClassBackend.Mips
