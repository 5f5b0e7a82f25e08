import Mathlib.Logic.Function.Basic
import ClassBackend.Layout.ClassTable
import ClassBackend.Mips.Data
import ClassBackend.Proofs.Mips.StackPaths

/-! What the registers and the words of a frame hold along the paths through a function. The
collector runs inside of calls and takes the stack for its roots, so a pointer that only a register
holds is not to be trusted after one. -/
namespace ClassBackend.Mips

inductive Kind where
  /-- A pointer to an object, or void. -/
  | object
  /-- An unboxed word. -/
  | raw
  /-- The address of an entry of `class_objTab`. -/
  | entry
  /-- An address in a dispatch table, of code or of a field. -/
  | address
  /-- A word of an object whose class is not known, boxed or not. -/
  | field
  /-- Nothing that may be used. -/
  | lost
  deriving DecidableEq, Repr

/-- What an unboxed word is added to stays the address of an entry, if it was that of one. -/
def Kind.plus : Kind → Kind
  | .entry => .entry
  | .lost => .lost
  | _ => .raw

/-- A word of any object: its tag or size, its dispatch table, or a field. -/
def objectWord (offset : Int) : Kind :=
  if offset = dispatchTableOffset then .address
  else if offset < headerSize then .raw
  else .field

/-- The word that is this far from where such a word points. -/
def Kind.pointee (offset : Int) : Kind → Kind
  | .object => objectWord offset
  | .entry => if offset = 0 then .object else .address
  | .address => .address
  | _ => .lost

def selfWord (k : ClassLayout) (offset : Int) : Kind :=
  match k.fields.zipIdx.find? fun f => (fieldOffset f.2).toOption = some offset with
  | some f => if (NativeKind.ofType? f.1.ty).isSome then .raw else .object
  | none => objectWord offset

/-- The symbols that functions load: those of objects, and that of the table of all classes. -/
def Loadable (s : String) : Prop :=
  s = Linkage.classObjects ∨ (∃ c : Const, s = c.label) ∨ ∃ cls, s = Linkage.prototype cls

def symbolKind (s : String) : Kind := if s = Linkage.classObjects then .entry else .object

structure Held where
  reg : Reg → Kind
  /-- The word with this offset from `$fp`. -/
  word : Int → Kind

namespace Held

def put (h : Held) (r : Reg) (κ : Kind) : Held := { h with reg := Function.update h.reg r κ }

def store (h : Held) (offset : Int) (κ : Kind) : Held :=
  { h with word := Function.update h.word offset κ }

/-- The words from this offset down are nobody's. -/
def above (h : Held) (offset : Int) : Held :=
  { h with word := fun x => if offset < x then h.word x else .lost }

def keeping (h : Held) (rs : List Reg) : Held :=
  { h with reg := fun r => if r ∈ rs then h.reg r else .lost }

/-- What is held behind the prologue, where `$a0` and `$s0` both hold `self`. -/
def start (formals : Nat) : Held where
  reg
    | .a0 | .s0 | .zero => .object
    | .sp | .fp => .address
    | _ => .lost
  word x := if 0 < x ∧ x ≤ wordSize * formals ∧ wordSize ∣ x then .object else .lost

def loaded (h : Held) (k : ClassLayout) (sp offset : Int) : Reg → Kind
  | .sp => h.word (sp + offset)
  | .fp => h.word offset
  | .s0 => selfWord k offset
  | r => (h.reg r).pointee offset

def fixed : List Reg := [.zero, .s0, .sp, .fp]

/-- The result of a callee is in `$a0`, and nothing else is but what callees leave alone. -/
def called (h : Held) : Held := (h.keeping fixed).put .a0 .object

/-- What is held after a call of this routine. The write barrier keeps the accumulator, and
`Object.copy` an unboxed word in `$t5`. -/
def calledAt (h : Held) (s : String) : Held :=
  if s = Routine.gcAssign.symbol then h.keeping (.a0 :: fixed)
  else if s = Routine.objectCopy.symbol ∧ h.reg .t5 = .raw then h.called.put .t5 .raw
  else h.called

end Held

def Operand.regs : Operand → List Reg
  | .reg r => [r]
  | .imm _ => []

def quietRoutines : List Routine :=
  [.equalityTest, .gcAssign, .caseAbort, .caseAbort2, .dispatchAbort]

namespace Instr

/-- A call of `Object.copy`, of an initializer or of a method. -/
def collects : Instr → Bool
  | .jal s => quietRoutines.all fun r => r.symbol ≠ s
  | .jalr _ => true
  | _ => false

def passed (s : String) : List Reg :=
  if s = Routine.equalityTest.symbol then [.t1, .t2, .a0, .a1]
  else if s = Routine.gcAssign.symbol then [.a1]
  else if quietRoutines.any fun r => r.symbol = s then [.a0, .t1]
  else [.a0]

def reads : Instr → List Reg
  | .label _ | .la .. | .li .. | .goto _ => []
  | .lw _ _ r | .move _ r | .addiu _ r _ | .sll _ r _ | .neg _ r | .jr r => [r]
  | .sw r _ base => [r, base]
  | .addu _ a b => [a, b]
  | .arith _ _ a b | .branch _ a b _ => a :: b.regs
  | .jal s => passed s
  | .jalr r => [r, .a0]

end Instr

/-- What is held after an instruction, with `$sp` this far from `$fp` before it. -/
def track (k : ClassLayout) (sp : Int) (i : Noted) (h : Held) : Held :=
  match i.instr with
  | .la d s => h.put d (symbolKind s)
  | .li d _ | .sll d _ _ | .arith _ d _ _ | .neg d _ => h.put d .raw
  | .lw d offset base => h.put d (h.loaded k sp offset base)
  | .sw r offset .sp => h.store (sp + offset) (h.reg r)
  | .sw r offset .fp => h.store offset (h.reg r)
  | .sw _ _ _ => h
  | .move d r => h.put d (h.reg r)
  | .addiu .sp _ n => h.above (sp + n)
  | .addiu d _ _ => h.put d .address
  | .addu d a _ => h.put d (h.reg a).plus
  | .jal s => (h.calledAt s).above (sp + wordSize * i.pops)
  | .jalr _ => h.called.above (sp + wordSize * i.pops)
  | .label _ | .branch .. | .goto _ | .jr _ => h

/-- What has to be held where an instruction is executed. -/
structure Safe (sp : Int) (i : Noted) (h : Held) : Prop where
  known : ∀ r ∈ i.instr.reads, h.reg r ≠ .lost
  /-- The collector may take what is put on the stack for a root. -/
  stacked : ∀ r offset base, i.instr = .sw r offset base → base = .sp ∨ base = .fp →
    h.reg r = .object ∨ h.reg r = .entry
  fields : ∀ r offset, i.instr = .sw r offset .s0 → h.reg r = .object
  self : i.instr.written ≠ some .s0
  /-- Callees are handed objects. -/
  passed : i.instr.collects = true → h.reg .a0 = .object ∧
    ∀ j : Nat, 0 < j → j ≤ i.pops → h.word (sp + wordSize * j) = .object
  symbols : ∀ d s, i.instr = .la d s → Loadable s

namespace Activation

/-- A path from the start of the body, with what is held at its end. The function is code of this
class. -/
inductive Tracks (a : Activation) (k : ClassLayout) : Nat → Int → Held → Prop where
  | start : Tracks a k 0 (-savedArea) (.start a.formals)
  | step {n m sp d i h} : Tracks a k n sp h → a.body[n]? = some i →
      i.instr.shift i.pops = some d → Goes a.body n m → Tracks a k m (sp + d) (track k sp i h)

/-- A way on from behind an instruction on which a register is not written. -/
inductive Carries (a : Activation) (r : Reg) (n : Nat) : Nat → Prop where
  | start {m} : Goes a.body n m → Carries a r n m
  | step {m m' i} : Carries a r n m → a.body[m]? = some i → i.instr.written ≠ some r →
      Goes a.body m m' → Carries a r n m'

/-- A function of this class in which the collector may run at any call. -/
structure Rooted (a : Activation) (k : ClassLayout) : Prop where
  safe : ∀ n sp h i, a.Tracks k n sp h → a.body[n]? = some i → Safe sp i h
  /-- What is read after a call is a result, or has been kept in `$s0`, or is the unboxed word that
  `$t5` keeps across an allocation. -/
  across : ∀ n sp h i, a.Tracks k n sp h → a.body[n]? = some i → i.instr.collects = true →
    ∀ r m j, a.Carries r n m → a.body[m]? = some j → r ∈ j.instr.reads →
      r = .a0 ∨ r ∈ Held.fixed ∨
        (r = .t5 ∧ i.instr = .jal Routine.objectCopy.symbol ∧ h.reg .t5 = .raw)
  result : ∀ sp h, a.Tracks k a.body.length sp h → h.reg .a0 = .object

end Activation

end ClassBackend.Mips
