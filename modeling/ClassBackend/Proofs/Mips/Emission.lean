import ClassBackend.Proofs.Lowering.Simulation
import ClassBackend.Proofs.Mips.Steps

/-! What the operations of the backend append to the code. -/
namespace ClassBackend.Mips

open Lowering

namespace State

def add (t : State) (is : List Instr) : State := { t with code := t.code ++ is }

def drawn (t : State) : State := { t with nextScratch := t.nextScratch + 1 }

def framed (t : State) (f : Frame) : State := { t with frame := some f }

@[simp] theorem add_nil (t : State) : t.add [] = t := by simp [add]

@[simp] theorem add_add (t : State) (is js : List Instr) :
    (t.add is).add js = t.add (is ++ js) := by
  simp only [add, State.mk.injEq, and_true, true_and]
  apply Array.ext'
  simp

@[simp] theorem add_drawn (t : State) (is : List Instr) : (t.add is).drawn = t.drawn.add is := rfl

@[simp] theorem add_framed (t : State) (is : List Instr) (f : Frame) :
    (t.add is).framed f = (t.framed f).add is := rfl

@[simp] theorem add_code (t : State) (is : List Instr) :
    (t.add is).code.toList = t.code.toList ++ is := by
  simp [add]

@[simp] theorem add_size (t : State) (is : List Instr) :
    (t.add is).code.size = t.code.size + is.length := by
  rw [← Array.length_toList, add_code, List.length_append, Array.length_toList]

@[simp] theorem add_frame (t : State) (is : List Instr) : (t.add is).frame = t.frame := rfl

@[simp] theorem add_fresh (t : State) (is : List Instr) : (t.add is).fresh = t.fresh := rfl

@[simp] theorem add_nextScratch (t : State) (is : List Instr) :
    (t.add is).nextScratch = t.nextScratch := rfl

@[simp] theorem drawn_code (t : State) : t.drawn.code = t.code := rfl
@[simp] theorem drawn_frame (t : State) : t.drawn.frame = t.frame := rfl
@[simp] theorem drawn_fresh (t : State) : t.drawn.fresh = t.fresh := rfl
@[simp] theorem drawn_nextScratch (t : State) : t.drawn.nextScratch = t.nextScratch + 1 := rfl
@[simp] theorem framed_framed (t : State) (f g : Frame) : (t.framed f).framed g = t.framed g := rfl
@[simp] theorem framed_code (t : State) (f : Frame) : (t.framed f).code = t.code := rfl
@[simp] theorem framed_frame (t : State) (f : Frame) : (t.framed f).frame = some f := rfl
@[simp] theorem framed_fresh (t : State) (f : Frame) : (t.framed f).fresh = t.fresh := rfl

end State

section

variable {α : Type} {t t' : State} {u : Unit} {v r : Reg} {i : Instr} {is : List Instr}

@[simp] theorem emit_ok : Asm.emit i t = .ok (u, t') ↔ t' = t.add [i] := by
  have same : t.code.push i = t.code ++ [i] := by
    apply Array.ext'
    simp
  simp only [Asm.emit, State.add, same, Except.ok.injEq, Prod.mk.injEq, true_and]
  exact eq_comm

@[simp] theorem emitAll_ok : Asm.emitAll is t = .ok (u, t') ↔ t' = t.add is := by
  induction is generalizing t with
  | nil =>
    rw [Asm.emitAll, pure_ok, State.add_nil]
    simp [eq_comm]
  | cons i is ih => simp [Asm.emitAll, bind_ok, ih]

@[simp] theorem asm_ofExcept_ok {x : Except Fault α} {a : α} :
    Asm.ofExcept x t = .ok (a, t') ↔ x = .ok a ∧ t' = t := by
  cases x <;> simp [Asm.ofExcept, eq_comm]

@[simp] theorem frame_ok {f : Frame} : Asm.frame t = .ok (f, t') ↔ t.frame = some f ∧ t' = t := by
  cases h : t.frame <;> simp [Asm.frame, h, eq_comm]

@[simp] theorem setFrame_ok {f : Frame} : Asm.setFrame f t = .ok (u, t') ↔ t' = t.framed f := by
  simp [Asm.setFrame, State.framed, eq_comm]

@[simp] theorem scratch_ok :
    Asm.scratch t = .ok (r, t') ↔ r = Reg.scratchAt t.nextScratch ∧ t' = t.drawn := by
  simp [Asm.scratch, State.drawn, eq_comm]

def intoAccCode (v : Reg) : List Instr := if v = .a0 then [] else [.move .a0 v]

@[simp] theorem intoAcc_ok : Asm.intoAcc v t = .ok (u, t') ↔ t' = t.add (intoAccCode v) := by
  unfold Asm.intoAcc intoAccCode
  split
  · rw [pure_ok, State.add_nil]
    simp [eq_comm]
  · exact emit_ok

end

theorem checked_ok {op : Overflow} {n m : Int} :
    Word.checked op n = .ok m ↔ Word.fits n = true ∧ n = m := by
  unfold Word.checked
  split
  · simp_all
  · simp_all

theorem fits_toInt {n : Int} (h : Word.fits n = true) : (BitVec.ofInt 32 n).toInt = n := by
  simp only [Word.fits, Bool.and_eq_true, decide_eq_true_eq] at h
  rw [BitVec.toInt_ofInt]
  apply Int.bmod_eq_of_le
  · omega
  · omega

theorem low_eq {n : Nat} (h : n < 2147483648) : Word.low n = n := by
  apply Int.bmod_eq_of_le
  · omega
  · omega

theorem toInt_low (n : Nat) : (BitVec.ofInt 32 (Word.low n)).toInt = (BitVec.ofNat 32 n).toInt := by
  rw [BitVec.toInt_ofInt, BitVec.toInt_ofNat']
  unfold Word.low
  have modulus : 2 ^ 32 = 4294967296 := by decide
  rw [modulus, Int.bmod_bmod]

theorem ofInt_low (n : Nat) : BitVec.ofInt 32 (Word.low n) = BitVec.ofNat 32 n :=
  BitVec.eq_of_toInt_eq (toInt_low n)

theorem ofInt_entry (n : Nat) : BitVec.ofInt 32 (4 * Word.low n) = BitVec.ofNat 32 (4 * n) := by
  rw [BitVec.ofInt_mul, ofInt_low, BitVec.ofNat_mul]
  rfl

theorem ofInt_fieldOffset {slot : Nat} {off : Int} (h : fieldOffset slot = .ok off) :
    BitVec.ofInt 32 off = BitVec.ofNat 32 (4 * (Machine.headerWords + slot)) := by
  simp only [fieldOffset, Word.add, Word.mul, except_bind_ok, checked_ok] at h
  obtain ⟨_, ⟨_, rfl⟩, _, rfl⟩ := h
  rw [BitVec.ofInt_add, wordSize, ofInt_entry, Nat.mul_add, BitVec.ofNat_add]
  rfl

section

variable {t t' : State} {v r obj : Reg} {a b : Operand} {slot : Nat} {u : Unit}

theorem push_ok {slot : Int} (h : Asm.push r t = .ok (slot, t')) :
    ∃ f, t.frame = some f ∧ slot = f.spOffset ∧ Word.fits (f.spOffset - 4) = true ∧
      t' = (t.framed { f with spOffset := f.spOffset - 4 }).add (Frame.pushCode r) := by
  simp only [Asm.push, bind_ok, pure_ok, Frame.push, Word.sub, wordSize, frame_ok, setFrame_ok,
    asm_ofExcept_ok, except_bind_ok, except_pure_ok, checked_ok, emitAll_ok] at h
  obtain ⟨f, _, ⟨known, rfl⟩, _, _, ⟨⟨_, ⟨fits, rfl⟩, rfl⟩, rfl⟩, _, _, rfl, _, _, rfl, rfl,
    rfl⟩ := h
  exact ⟨f, known, rfl, fits, rfl⟩

theorem release_ok {f f' : Frame} {slot : Int} (h : f.release slot = .ok f') :
    slot = f.spOffset + 4 ∧ Word.fits (f.spOffset + 4) = true ∧
      f' = { f with spOffset := f.spOffset + 4 } := by
  simp only [Frame.release, Word.add, wordSize, except_bind_ok, checked_ok] at h
  obtain ⟨_, ⟨fits, rfl⟩, h⟩ := h
  split at h
  · exact ⟨‹_›, fits, (except_pure_ok.mp h).symm⟩
  · cases h

theorem pop_ok {slot : Int} (h : Asm.pop r slot t = .ok (u, t')) :
    ∃ f, t.frame = some f ∧ slot = f.spOffset + 4 ∧ Word.fits (f.spOffset + 4) = true ∧
      t' = (t.framed { f with spOffset := f.spOffset + 4 }).add (Frame.popCode r) := by
  simp only [Asm.pop, bind_ok, frame_ok, setFrame_ok, asm_ofExcept_ok, emitAll_ok] at h
  obtain ⟨f, _, ⟨known, rfl⟩, _, _, ⟨released, rfl⟩, _, _, rfl, rfl⟩ := h
  obtain ⟨top, fits, rfl⟩ := release_ok released
  exact ⟨f, known, top, fits, rfl⟩

theorem discard_ok {slot : Int} (h : Asm.discard slot t = .ok (u, t')) :
    ∃ f, t.frame = some f ∧ slot = f.spOffset + 4 ∧ Word.fits (f.spOffset + 4) = true ∧
      t' = (t.framed { f with spOffset := f.spOffset + 4 }).add Frame.discardCode := by
  simp only [Asm.discard, bind_ok, frame_ok, setFrame_ok, asm_ofExcept_ok, emitAll_ok] at h
  obtain ⟨f, _, ⟨known, rfl⟩, _, _, ⟨released, rfl⟩, _, _, rfl, rfl⟩ := h
  obtain ⟨top, fits, rfl⟩ := release_ok released
  exact ⟨f, known, top, fits, rfl⟩

theorem calleePopped_ok {f f' : Frame} {n : Nat} (h : f.calleePopped n = .ok f') :
    Word.fits (f.spOffset + 4 * Word.low n) = true ∧
      f' = { f with spOffset := f.spOffset + 4 * Word.low n } := by
  simp only [Frame.calleePopped, Word.add, Word.mul, wordSize, except_bind_ok, checked_ok] at h
  obtain ⟨_, ⟨_, rfl⟩, _, ⟨fits, rfl⟩, h⟩ := h
  split at h
  · exact ⟨fits, (except_pure_ok.mp h).symm⟩
  · cases h

theorem afterCall_ok {args : List Int} (h : Asm.afterCall args t = .ok (u, t')) :
    ∃ f, t.frame = some f ∧ Word.fits (f.spOffset + 4 * Word.low args.length) = true ∧
      t' = t.framed { f with spOffset := f.spOffset + 4 * Word.low args.length } := by
  simp only [Asm.afterCall, bind_ok, frame_ok] at h
  obtain ⟨f, mid, ⟨known, same⟩, h⟩ := h
  rw [same] at h
  have popped : (Asm.ofExcept (f.calleePopped args.length) >>= Asm.setFrame) t = .ok (u, t') := by
    cases args with
    | nil => exact h
    | cons a as =>
      obtain ⟨bottom, mid', read, rest⟩ := bind_ok.mp h
      rw [(asm_ofExcept_ok.mp read).2] at rest
      by_cases top : bottom = a
      · rw [if_pos top] at rest
        exact rest
      · rw [if_neg top] at rest
        obtain ⟨_, _, failed, _⟩ := bind_ok.mp rest
        cases (asm_ofExcept_ok.mp failed).1
  simp only [bind_ok, asm_ofExcept_ok, setFrame_ok] at popped
  obtain ⟨_, _, ⟨popped, rfl⟩, rfl⟩ := popped
  obtain ⟨fits, rfl⟩ := calleePopped_ok popped
  exact ⟨f, known, fits, rfl⟩

theorem loadField_ok (h : Asm.loadField obj slot t = .ok (v, t')) :
    v = .a0 ∧ ∃ off, fieldOffset slot = .ok off ∧ t' = t.add [.lw .a0 off obj] := by
  simp only [Asm.loadField, bind_ok, pure_ok, asm_ofExcept_ok, emit_ok] at h
  obtain ⟨off, _, ⟨known, rfl⟩, _, _, rfl, rfl, rfl⟩ := h
  exact ⟨rfl, off, known, rfl⟩

theorem storeField_ok (h : Asm.storeField obj slot v t = .ok (u, t')) :
    ∃ off, fieldOffset slot = .ok off ∧ t' = t.add [.sw v off obj] := by
  simp only [Asm.storeField, bind_ok, asm_ofExcept_ok, emit_ok] at h
  obtain ⟨off, _, ⟨known, rfl⟩, rfl⟩ := h
  exact ⟨off, known, rfl⟩

theorem writeBarrier_ok (h : Asm.writeBarrier obj slot t = .ok (u, t')) :
    ∃ off, fieldOffset slot = .ok off ∧
      t' = t.add [.addiu .a1 obj off, .jal Routine.gcAssign.symbol] := by
  simp only [Asm.writeBarrier, Asm.call, bind_ok, asm_ofExcept_ok, emit_ok] at h
  obtain ⟨off, _, ⟨known, rfl⟩, _, _, rfl, rfl⟩ := h
  exact ⟨off, known, by simp⟩

theorem unbox_ok {cls : ClassLayout} {w : Operand} (h : Asm.unbox v cls t = .ok (w, t')) :
    w = .reg (Reg.scratchAt t.nextScratch) ∧ ∃ off, fieldOffset cls.ownStart = .ok off ∧
      t' = t.drawn.add [.lw (Reg.scratchAt t.nextScratch) off v] := by
  simp only [Asm.unbox, bind_ok, pure_ok, scratch_ok, asm_ofExcept_ok, emit_ok] at h
  obtain ⟨_, _, ⟨rfl, rfl⟩, off, _, ⟨known, rfl⟩, _, _, rfl, rfl, rfl⟩ := h
  exact ⟨rfl, off, known, rfl⟩

theorem loadTag_ok {w : Operand} (h : Asm.loadTag obj t = .ok (w, t')) :
    w = .reg (Reg.scratchAt t.nextScratch) ∧
      t' = t.drawn.add [.lw (Reg.scratchAt t.nextScratch) 0 obj] := by
  simp only [Asm.loadTag, bind_ok, pure_ok, scratch_ok, emit_ok] at h
  obtain ⟨_, _, ⟨rfl, rfl⟩, _, _, rfl, rfl, rfl⟩ := h
  exact ⟨rfl, rfl⟩

def carryCode : Operand → List Instr
  | .reg .t5 => []
  | .reg r => [.move .t5 r]
  | .imm i => [.li .t5 i]

theorem boxInt_ok {int : ClassLayout} (h : Asm.boxInt a int t = .ok (v, t')) :
    v = .a0 ∧ ∃ off, fieldOffset int.ownStart = .ok off ∧
      t' = t.add (carryCode a ++ [.la .a0 (Linkage.prototype int.name),
        .jal Routine.objectCopy.symbol, .sw .t5 off .a0]) := by
  have carried : ∃ mid, mid = t.add (carryCode a) ∧ ((do
      Asm.emit (.la .a0 (Linkage.prototype int.name))
      Asm.call .objectCopy
      Asm.emit (.sw .t5 (← Asm.ofExcept (fieldOffset int.ownStart)) .a0)
      pure .a0 : Asm Reg) mid) = .ok (v, t') := by
    unfold Asm.boxInt at h
    split at h
    · exact ⟨t, by simp [carryCode], h⟩
    · obtain ⟨_, mid, moved, h⟩ := bind_ok.mp h
      exact ⟨mid, by simpa [carryCode] using moved, h⟩
    · obtain ⟨_, mid, moved, h⟩ := bind_ok.mp h
      exact ⟨mid, by simpa [carryCode] using moved, h⟩
  obtain ⟨_, rfl, h⟩ := carried
  simp only [Asm.call, bind_ok, pure_ok, asm_ofExcept_ok, emit_ok] at h
  obtain ⟨_, _, rfl, _, _, rfl, off, _, ⟨known, rfl⟩, _, _, rfl, rfl, rfl⟩ := h
  exact ⟨rfl, off, known, by simp⟩

theorem inReg_ok : Asm.inReg a t = .ok (r, t') ↔ (a = .reg r ∧ t' = t) ∨
    ∃ n, a = .imm n ∧ r = Reg.scratchAt t.nextScratch ∧ t' = t.drawn.add [.li r n] := by
  cases a with
  | reg q =>
    simp only [Asm.inReg, pure_ok, Operand.reg.injEq, reduceCtorEq, false_and, exists_false,
      or_false]
    exact and_congr_right fun _ => eq_comm
  | imm n =>
    simp only [Asm.inReg, bind_ok, pure_ok, scratch_ok, emit_ok]
    constructor
    · rintro ⟨_, _, ⟨rfl, rfl⟩, _, _, rfl, rfl, rfl⟩
      exact .inr ⟨n, rfl, rfl, rfl⟩
    · rintro (⟨h, _⟩ | ⟨_, h, rfl, rfl⟩)
      · cases h
      · cases h
        exact ⟨_, _, ⟨rfl, rfl⟩, (), _, rfl, rfl, rfl⟩

theorem arith_ok {op : ArithOp} {w : Operand} (h : Asm.arith op a b t = .ok (w, t')) :
    ∃ q mid, Asm.inReg a t = .ok (q, mid) ∧ w = .reg (Reg.scratchAt mid.nextScratch) ∧
      t' = mid.drawn.add [.arith (Asm.arithOp op) (Reg.scratchAt mid.nextScratch) q b] := by
  simp only [Asm.arith, bind_ok, pure_ok, scratch_ok, emit_ok] at h
  obtain ⟨q, mid, first, _, _, ⟨rfl, rfl⟩, _, _, rfl, rfl, rfl⟩ := h
  exact ⟨q, mid, first, rfl, rfl⟩

theorem negate_ok {w : Operand} (h : Asm.negate a t = .ok (w, t')) :
    ∃ q mid, Asm.inReg a t = .ok (q, mid) ∧ w = .reg (Reg.scratchAt mid.nextScratch) ∧
      t' = mid.drawn.add [.neg (Reg.scratchAt mid.nextScratch) q] := by
  simp only [Asm.negate, bind_ok, pure_ok, scratch_ok, emit_ok] at h
  obtain ⟨q, mid, first, _, _, ⟨rfl, rfl⟩, _, _, rfl, rfl, rfl⟩ := h
  exact ⟨q, mid, first, rfl, rfl⟩

theorem branchRaw_ok {op : Relop} {yes no : BlockName}
    (h : Asm.branchRaw op a b yes no t = .ok (u, t')) :
    ∃ q mid, Asm.inReg a t = .ok (q, mid) ∧
      t' = mid.add [.branch (Asm.branchCond op) q b (.block yes), .goto (.block no)] := by
  simp only [Asm.branchRaw, bind_ok, emit_ok] at h
  obtain ⟨q, mid, first, _, _, rfl, rfl⟩ := h
  exact ⟨q, mid, first, by simp⟩

theorem closeArm_ok {join : BlockName} (h : Asm.closeArm v join t = .ok (u, t')) :
    t' = t.add (intoAccCode v ++ [.goto (.block join)]) := by
  simp only [Asm.closeArm, Asm.jump, bind_ok, intoAcc_ok, emit_ok] at h
  obtain ⟨_, _, rfl, rfl⟩ := h
  simp

theorem merge_ok {join : BlockName} (h : Asm.merge join t = .ok (v, t')) :
    v = .a0 ∧ t' = t.add [.label (.block join)] := by
  simp only [Asm.merge, Asm.switchTo, bind_ok, pure_ok, emit_ok] at h
  obtain ⟨_, _, rfl, rfl, rfl⟩ := h
  exact ⟨rfl, rfl⟩

theorem allocate_ok {cls : ClassLayout} (h : Asm.allocate cls t = .ok (v, t')) :
    v = .a0 ∧ t' = t.add [.la .a0 (Linkage.prototype cls.name),
      .jal Routine.objectCopy.symbol] := by
  simp only [Asm.allocate, Asm.call, bind_ok, pure_ok, emit_ok] at h
  obtain ⟨_, _, rfl, _, _, rfl, rfl, rfl⟩ := h
  exact ⟨rfl, by simp⟩

theorem callInit_ok {cls : ClassLayout} (h : Asm.callInit cls obj t = .ok (v, t')) :
    v = .a0 ∧ t' = t.add (intoAccCode obj ++ [.jal (Linkage.initializer cls.name)]) := by
  simp only [Asm.callInit, bind_ok, pure_ok, intoAcc_ok, emit_ok] at h
  obtain ⟨_, _, rfl, _, _, rfl, rfl, rfl⟩ := h
  exact ⟨rfl, by simp⟩

def entryCode : List Instr := [
  .la .t1 Linkage.classObjects,
  .lw .t2 tagOffset .s0,
  .sll .t2 .t2 3,
  .addu .t1 .t1 .t2]

theorem newSelfType_ok (h : Asm.newSelfType t = .ok (v, t')) :
    v = .a0 ∧ ∃ f, t.frame = some f ∧ Word.fits f.spOffset = true ∧
      t' = (t.framed f).add (entryCode ++ (Frame.pushCode .t1 ++
        ([.lw .a0 0 .t1, .jal Routine.objectCopy.symbol] ++
          ([.lw .t1 wordSize .sp, .lw .t1 wordSize .t1, .jalr .t1] ++ Frame.discardCode)))) := by
  simp only [Asm.newSelfType, Asm.call, bind_ok, pure_ok, emit_ok] at h
  obtain ⟨_, _, rfl, _, _, rfl, _, _, rfl, _, _, rfl, entry, _, pushed, h⟩ := h
  obtain ⟨f, known, _, _, rfl⟩ := push_ok pushed
  obtain ⟨_, _, rfl, _, _, rfl, _, _, rfl, _, _, rfl, _, _, rfl, _, _, popped, rfl, rfl⟩ := h
  obtain ⟨g, same, _, fits, rfl⟩ := discard_ok popped
  simp only [State.add_frame, State.framed_frame, Option.some.injEq] at same known
  subst same
  simp only [Int.sub_add_cancel] at fits
  refine ⟨rfl, f, known, fits, ?_⟩
  simp [entryCode]

theorem optional_ok {α : Type} {p : Prop} [Decidable p] {i : Instr} {k : Asm α} {y : α × State} :
    (if p then k else Asm.emit i >>= fun _ => k) t = .ok y ↔
      k (t.add (if p then [] else [i])) = .ok y := by
  by_cases hp : p
  · simp [hp]
  · simp only [hp, if_false, bind_ok, emit_ok]
    constructor
    · rintro ⟨_, _, rfl, rest⟩
      exact rest
    · intro rest
      exact ⟨(), _, rfl, rest⟩

theorem callEquality_ok {w : Operand} (h : Asm.callEquality v r t = .ok (w, t')) :
    v ≠ .t2 ∧ w = .reg (Reg.scratchAt t.nextScratch) ∧ ∃ off, fieldOffset 0 = .ok off ∧
      t' = t.drawn.add ((if r = .t2 then [] else [.move .t2 r]) ++
        ((if v = .t1 then [] else [.move .t1 v]) ++
          [.la .a0 (Const.bool true).label, .la .a1 (Const.bool false).label,
            .jal Routine.equalityTest.symbol, .lw (Reg.scratchAt t.nextScratch) off .a0])) := by
  by_cases clobbered : v = .t2
  · simp only [Asm.callEquality, clobbered, if_true, bind_ok, asm_ofExcept_ok] at h
    obtain ⟨_, _, ⟨failed, _⟩, _⟩ := h
    cases failed
  · simp only [Asm.callEquality, Asm.call, clobbered, if_false, optional_ok, bind_ok, pure_ok,
      asm_ofExcept_ok, emit_ok, scratch_ok] at h
    obtain ⟨_, _, rfl, _, _, rfl, _, _, rfl, _, _, ⟨rfl, rfl⟩, off, _, ⟨known, rfl⟩, _, _, rfl,
      rfl, rfl⟩ := h
    exact ⟨clobbered, rfl, off, known, by simp⟩

theorem callDirect_ok {label : String} {args : List Int}
    (h : Asm.callDirect label v args t = .ok (r, t')) :
    r = .a0 ∧ ∃ f, t.frame = some f ∧
      Word.fits (f.spOffset + 4 * Word.low args.length) = true ∧
      t' = (t.framed { f with spOffset := f.spOffset + 4 * Word.low args.length }).add
        (intoAccCode v ++ [.jal label]) := by
  simp only [Asm.callDirect, bind_ok, pure_ok, intoAcc_ok, emit_ok] at h
  obtain ⟨_, _, rfl, _, _, rfl, _, _, popped, rfl, rfl⟩ := h
  obtain ⟨f, known, fits, rfl⟩ := afterCall_ok popped
  exact ⟨rfl, f, known, fits, by simp⟩

theorem callDynamic_ok {args : List Int} (h : Asm.callDynamic v slot args t = .ok (r, t')) :
    r = .a0 ∧ ∃ f, t.frame = some f ∧
      Word.fits (f.spOffset + 4 * Word.low args.length) = true ∧
      t' = (t.framed { f with spOffset := f.spOffset + 4 * Word.low args.length }).add
        (intoAccCode v ++ [.lw .t1 dispatchTableOffset .a0, .lw .t1 (4 * Word.low slot) .t1,
          .jalr .t1]) := by
  simp only [Asm.callDynamic, Word.mul, wordSize, bind_ok, pure_ok, asm_ofExcept_ok, checked_ok,
    intoAcc_ok, emit_ok] at h
  obtain ⟨_, _, rfl, _, _, rfl, _, _, ⟨⟨_, rfl⟩, rfl⟩, _, _, rfl, _, _, rfl, _, _, popped, rfl,
    rfl⟩ := h
  obtain ⟨f, known, fits, rfl⟩ := afterCall_ok popped
  exact ⟨rfl, f, known, fits, by simp⟩

theorem abort_ok {kind : AbortKind} {file : Const} {line : UInt64}
    (h : Asm.abort kind file line t = .ok (u, t')) :
    t' = t.add [.la .a0 file.label, .li .t1 (Word.low line.toNat),
      .jal (Routine.ofAbort kind).symbol] := by
  simp only [Asm.abort, Asm.call, bind_ok, emit_ok] at h
  obtain ⟨_, _, rfl, _, _, rfl, rfl⟩ := h
  simp

/-- A unit is what was emitted, with the data that its pool calls for. -/
theorem assemble_made {gcTest : Bool} {classes : ClassTable} {a : Assembly}
    (h : assemble gcTest classes = .ok a) : ∃ s data, emitUnit backend classes = .ok s ∧
      Data.emit gcTest classes s.pool = .ok data ∧
      a = ⟨data, Assembly.entryPoints, s.target.code.toList⟩ := by
  obtain ⟨s, emitted, made⟩ := except_bind_ok.mp h
  unfold Assembly.ofState at made
  split at made
  · contradiction
  · simp only [except_bind_ok, except_pure_ok] at made
    obtain ⟨data, laid, rfl⟩ := made
    exact ⟨s, data, emitted, laid, rfl⟩

end

end ClassBackend.Mips
