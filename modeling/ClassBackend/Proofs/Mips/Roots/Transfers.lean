import ClassBackend.Proofs.Mips.Roots.Operations

/-! Unboxed words, blocks and calls under the tracking of what is held. -/
namespace ClassBackend.Mips

open Lowering

theorem objectWord_known (offset : Int) : objectWord offset ≠ .lost := by
  unfold objectWord
  split
  · decide
  · split <;> decide

theorem selfWord_known (k : ClassLayout) (offset : Int) : selfWord k offset ≠ .lost := by
  unfold selfWord
  split
  · split <;> decide
  · exact objectWord_known offset

namespace Emitting

variable {F : Emitting} {w : Entries} {n u p : Nat} {v r a : Reg} {κ : Kind} {g : Held}
variable {regs regs' : Reg → Kind} {is : List Instr} {o : Option Held} {s : String}
variable {b yes no join : BlockName} {cls : ClassLayout} {off : Int}

section Words

theorem loaded_known (hv : g.reg v = .object) (memory : v ≠ .sp ∧ v ≠ .fp) :
    g.loaded F.cls (level n) off v ≠ .lost := by
  cases v with
  | sp => exact absurd rfl memory.1
  | fp => exact absurd rfl memory.2
  | s0 => exact selfWord_known _ _
  | _ =>
    simp only [Held.loaded, hv, Kind.pointee]
    exact objectWord_known _

theorem object_memory (base : rest ≤ g.reg) (hv : g.reg v = .object) : v ≠ .sp ∧ v ≠ .fp := by
  constructor
  · rintro rfl
    rw [rest_fixed (by decide) base] at hv
    cases hv
  · rintro rfl
    rw [rest_fixed (by decide) base] at hv
    cases hv

theorem runs_word (off : Int) (base : rest ≤ regs) (hv : regs v = .object) :
    ∃ κ, κ ≠ .lost ∧ Runs F.cls w (level n) 0 [.lw (Reg.scratchAt u) off v] (F.frame n regs)
      (some (F.frame n (Function.update regs (Reg.scratchAt u) κ))) :=
  ⟨_, loaded_known (g := F.frame n regs) hv (object_memory (g := F.frame n regs) base hv),
    .lw (scratch_free u).2.2.2 (reg_known hv) (.done le_rfl)⟩

theorem op_unbox (hv : regs v = .object) :
    F.Op w (F.point n u regs) (Record.noted 0 (Asm.unbox v cls)) (F.Draws n u regs) := by
  refine op_draw id fun t x t' base turn run => ?_
  obtain ⟨rfl, off, _, rfl⟩ := unbox_ok run
  obtain ⟨κ, known, runs⟩ := runs_word off (u := u) base hv
  rw [turn]
  exact ⟨rfl, _, κ, rfl, known, runs⟩

theorem op_loadTag (hv : regs v = .object) :
    F.Op w (F.point n u regs) (Record.noted 0 (Asm.loadTag v)) (F.Draws n u regs) := by
  refine op_draw id fun t x t' base turn run => ?_
  obtain ⟨rfl, rfl⟩ := loadTag_ok run
  obtain ⟨κ, known, runs⟩ := runs_word 0 (u := u) base hv
  rw [turn]
  exact ⟨rfl, _, κ, rfl, known, runs⟩

theorem op_rawWord {i : Int} : F.Op w (F.point n u regs) (Record.noted 0 (backend.rawWord i))
    (Gives (.imm i) (F.point n u regs)) := by
  refine op_code id fun t x t' base run => ?_
  obtain ⟨made, rfl⟩ := asm_ofExcept_ok.mp run
  refine ⟨?_, [], (State.add_nil _).symm, .done le_rfl⟩
  unfold Word.ofLiteral at made
  split at made
  · cases made
    rfl
  · cases made

def DrawsRaw (F : Emitting) (n u : Nat) (regs : Reg → Kind) : Operand → Station → Prop :=
  Gives (.reg (Reg.scratchAt u)) (F.point n (u + 1) (Function.update regs (Reg.scratchAt u) .raw))

theorem op_arith {op : ArithOp} (first : regs a ≠ .lost) (second : regs r ≠ .lost) :
    F.Op w (F.point n u regs) (Record.noted 0 (Asm.arith op (.reg a) (.reg r)))
      (F.DrawsRaw n u regs) := by
  refine op_flat fun t x t' turn base run => ?_
  obtain ⟨q, mid, moved, rfl, rfl⟩ := arith_ok run
  obtain ⟨same, rfl⟩ | ⟨_, other, _⟩ := inReg_ok.mp moved
  · cases same
    rw [turn]
    refine ⟨mid.drawn, _, _, _, rfl, rfl, rfl, rfl, congrArg (· + 1) turn, ⟨rfl, rfl⟩, ?_,
      .arith (scratch_free u).2.2.2 first second (.done le_rfl)⟩
    rintro _ ⟨⟩
    exact rest_update base (scratch_free u).1
  · cases other

theorem op_negate (known : regs a ≠ .lost) :
    F.Op w (F.point n u regs) (Record.noted 0 (Asm.negate (.reg a))) (F.DrawsRaw n u regs) := by
  refine op_flat fun t x t' turn base run => ?_
  obtain ⟨q, mid, moved, rfl, rfl⟩ := negate_ok run
  obtain ⟨same, rfl⟩ | ⟨_, other, _⟩ := inReg_ok.mp moved
  · cases same
    rw [turn]
    refine ⟨mid.drawn, _, _, _, rfl, rfl, rfl, rfl, congrArg (· + 1) turn, ⟨rfl, rfl⟩, ?_,
      .neg (scratch_free u).2.2.2 known (.done le_rfl)⟩
    rintro _ ⟨⟩
    exact rest_update base (scratch_free u).1
  · cases other

theorem runs_carry (raw : regs r = .raw)
    (rest : Runs F.cls w (level n) 0 is (F.frame n (Function.update regs .t5 .raw)) o) :
    Runs F.cls w (level n) 0 (carryCode (.reg r) ++ is) (F.frame n regs) o := by
  by_cases there : r = .t5
  · subst there
    rw [← raw, Function.update_eq_self] at rest
    exact rest
  · have moves : carryCode (.reg r) = [.move .t5 r] := by
      cases r <;> first | rfl | exact absurd rfl there
    rw [moves]
    refine .move (by decide) (by rw [show (F.frame n regs).reg r = .raw from raw]; decide) ?_
    rw [show (F.frame n regs).reg r = .raw from raw]
    exact rest

theorem carried_frame (base : rest ≤ regs) (raw : regs .t5 = .raw) :
    F.frame n (Function.update (giving .a0) .t5 .raw) ≤
      ((F.frame n regs).calledAt Routine.objectCopy.symbol).above
        (level n + wordSize * (0 : Nat)) := by
  have held : (F.frame n regs).calledAt Routine.objectCopy.symbol =
      (F.frame n regs).called.put .t5 .raw := by
    rw [Held.calledAt, if_neg (by decide), if_pos ⟨rfl, raw⟩]
  rw [held]
  refine slots_pop (d := 0) ?_ fun _ _ => le_rfl
  exact update_le_update_iff.mpr
    ⟨le_rfl, fun q _ => giving_called (g := F.frame n regs) base q⟩

theorem op_boxInt (raw : regs r = .raw) :
    F.Op w (F.point n u regs) (Record.noted 0 (Asm.boxInt (.reg r) cls))
      (Gives .a0 (F.point n u (giving .a0))) := by
  refine op_code (fun _ => rest_giving result_a0) fun t x t' base run => ?_
  obtain ⟨rfl, off, _, rfl⟩ := boxInt_ok run
  refine ⟨rfl, _, rfl, runs_carry raw (.prototype (by decide) ?_)⟩
  have base' : rest ≤ Function.update (Function.update regs .t5 .raw) .a0 .object :=
    rest_update (rest_update base (by decide)) (by decide)
  have object : Function.update (Function.update regs .t5 .raw) .a0 .object .a0 = .object :=
    Function.update_self ..
  refine .jal loud_copy.proceeds ?_ (fun _ => ⟨object, by omega⟩) ?_
  · simpa [loud_copy.passed] using fun lost => by cases object.symm.trans lost
  · refine Runs.mono ?_ (carried_frame base' (by simp [frame]))
    refine .sw (by simp [frame]) (by simp [frame, giving]) (by simp) (by simp) (.done ?_)
    refine frame_giving (rest_update (rest_giving result_a0) (by decide)) ?_
    simp [giving]

end Words

section Blocks

theorem goto_block (h : F.Entered w b n regs') (le : regs' ≤ regs) :
    Runs F.cls w (level n) 0 [.goto (.block b)] (F.frame n regs) none :=
  .goto h.named (h.held ▸ frame_le le)

theorem op_branch {op : Relop} {x : Operand} {regs₁ regs₂ : Reg → Kind}
    (known : ∀ q ∈ a :: x.regs, regs q ≠ .lost) (hyes : F.Entered w yes n regs₁)
    (le₁ : rest ≤ regs → regs₁ ≤ regs) (hno : F.Entered w no n regs₂)
    (le₂ : rest ≤ regs → regs₂ ≤ regs) :
    F.Op w (F.point n u regs) (Record.noted 0 (Asm.branchRaw op (.reg a) x yes no))
      (Gives () ⟨n, u, none⟩) := by
  refine op_end fun t t' base run => ?_
  obtain ⟨q, mid, moved, rfl⟩ := branchRaw_ok run
  obtain ⟨same, rfl⟩ | ⟨_, other, _⟩ := inReg_ok.mp moved
  · cases same
    exact ⟨_, rfl, .branch known hyes.named (hyes.held ▸ frame_le (le₁ base))
      (goto_block hno (le₂ base))⟩
  · cases other

theorem op_branchVoid {regs₁ regs₂ : Reg → Kind} (hv : regs v = .object)
    (hyes : F.Entered w yes n regs₁) (le₁ : rest ≤ regs → regs₁ ≤ regs)
    (hno : F.Entered w no n regs₂) (le₂ : rest ≤ regs → regs₂ ≤ regs) :
    F.Op w (F.point n u regs) (Record.noted 0 (backend.branchVoid v yes no))
      (Gives () ⟨n, u, none⟩) := by
  refine op_end fun t t' base run => ?_
  obtain ⟨q, mid, moved, rfl⟩ := branchRaw_ok run
  obtain ⟨same, rfl⟩ | ⟨_, other, _⟩ := inReg_ok.mp moved
  · cases same
    refine ⟨_, rfl, .branch ?_ hyes.named (hyes.held ▸ frame_le (le₁ base))
      (goto_block hno (le₂ base))⟩
    rintro q (_ | ⟨_, _ | ⟨_, hq⟩⟩)
    · exact reg_known hv
    · exact base_known base (by decide)
    · cases hq
  · cases other

theorem op_jump (h : F.Entered w b n regs') (le : rest ≤ regs → regs' ≤ regs) :
    F.Op w (F.point n u regs) (Record.noted 0 (Asm.jump b)) (Gives () ⟨n, u, none⟩) := by
  refine op_end fun t t' base run => ?_
  exact ⟨_, emit_ok.mp run, goto_block h (le base)⟩

theorem runs_intoAcc (hv : regs v = .object)
    (rest : Runs F.cls w (level n) p is (F.frame n (Function.update regs .a0 .object)) o) :
    Runs F.cls w (level n) p (intoAccCode v ++ is) (F.frame n regs) o := by
  unfold intoAccCode
  split
  · rename_i there
    subst there
    rw [← hv, Function.update_eq_self] at rest
    exact rest
  · refine .move (by decide) (reg_known hv) ?_
    rw [show (F.frame n regs).reg v = .object from hv]
    exact rest

theorem op_intoAcc (hv : regs v = .object) :
    F.Op w (F.point n u regs) (Record.noted 0 (Asm.intoAcc v))
      (Gives () (F.point n u (giving .a0))) := by
  refine op_code (fun _ => rest_giving result_a0) fun t _ t' base run => ?_
  have whole : Runs F.cls w (level n) 0 (intoAccCode v ++ []) (F.frame n regs)
      (some (F.frame n (giving .a0))) := runs_intoAcc hv (.done (frame_le (acc_giving base)))
  rw [List.append_nil] at whole
  exact ⟨rfl, _, intoAcc_ok.mp run, whole⟩

theorem op_closeArm (hv : regs v = .object) (h : F.Entered w join n (giving .a0)) :
    F.Op w (F.point n u regs) (Record.noted 0 (Asm.closeArm v join)) (Gives () ⟨n, u, none⟩) := by
  refine op_end fun t t' base run => ?_
  exact ⟨_, closeArm_ok run, runs_intoAcc hv (goto_block h (acc_giving base))⟩

theorem op_switchTo (h : F.Entered w b n regs) :
    F.Op w ⟨n, u, none⟩ (Record.noted 0 (Asm.switchTo b)) (Gives () (F.point n u regs)) :=
  op_label h fun _ _ _ run => ⟨rfl, emit_ok.mp run⟩

theorem op_merge (h : F.Entered w join n regs) :
    F.Op w ⟨n, u, none⟩ (Record.noted 0 (Asm.merge join)) (Gives .a0 (F.point n u regs)) :=
  op_label h fun _ _ _ run => merge_ok run

theorem op_abort {kind : AbortKind} {file : Const} {line : UInt64} :
    F.Op w (F.point n u regs) (Record.noted 0 (Asm.abort kind file line))
      (Gives () ⟨n, u, none⟩) := by
  refine op_end fun t t' _ run => ?_
  refine ⟨_, abort_ok run, .const (by decide) (.li (by decide) (.abort kind ?_ ?_))⟩
  · simp [Held.put]
  · simp [Held.put]

end Blocks

section Calls

theorem op_allocate : F.Op w (F.point n u regs) (Record.noted 0 (Asm.allocate cls))
    (Gives .a0 (F.point n u (giving .a0))) := by
  refine op_code (fun _ => rest_giving result_a0) fun t v t' base run => ?_
  obtain ⟨rfl, rfl⟩ := allocate_ok run
  refine ⟨rfl, _, rfl, .prototype (by decide) ?_⟩
  exact runs_call (p := 0) loud_copy (rest_update base (by decide)) (Function.update_self ..)
    (.done le_rfl)

theorem op_callInit (hv : regs v = .object) :
    F.Op w (F.point n u regs) (Record.noted 0 (Asm.callInit cls v))
      (Gives .a0 (F.point n u (giving .a0))) := by
  refine op_code (fun _ => rest_giving result_a0) fun t x t' base run => ?_
  obtain ⟨rfl, rfl⟩ := callInit_ok run
  refine ⟨rfl, _, rfl, runs_intoAcc hv ?_⟩
  exact runs_call (p := 0) (loud_initializer _) (rest_update base (by decide))
    (Function.update_self ..) (.done le_rfl)

theorem op_callEquality (result : Result v) (first : regs .t1 = .object)
    (second : regs v = .object) :
    F.Op w (F.point n u regs) (Record.noted 0 (Asm.callEquality .t1 v))
      (F.Draws n u (giving .a0)) := by
  refine op_draw (fun _ => rest_giving result_a0) fun t x t' base turn run => ?_
  obtain ⟨_, rfl, off, _, rfl⟩ := callEquality_ok run
  have other : v ≠ .t2 := result_ne result (by unfold Result; decide)
  rw [turn, if_neg other, if_pos rfl]
  obtain ⟨κ, known, runs⟩ := runs_word (F := F) (w := w) (n := n) (u := u) off
    (rest_giving result_a0) giving_self
  refine ⟨rfl, _, κ, rfl, known, .move (by decide) (reg_known second) ?_⟩
  refine .const (by decide) (.const (by decide) ?_)
  have passed : Instr.passed Routine.equalityTest.symbol = [.t1, .t2, .a0, .a1] := by decide
  refine .jal (by decide) ?_ (fun collects => absurd collects (by decide)) (runs.mono ?_)
  · rw [passed]
    simp [Held.put, frame, first, second]
  · refine (called_frame (p := 0) ?_).trans (Held.above_le (called_calledAt ?_))
    · exact rest_update (rest_update (rest_update base (by decide)) (by decide)) (by decide)
    · decide

theorem op_call {α : Type} {y : Asm α} {x : α} {args : List Int} (code : List Instr)
    (hv : regs v = .object)
    (h : ∀ t b t', y t = .ok (b, t') → b = x ∧ ∃ f, t.frame = some f ∧
      t' = (t.framed { f with spOffset := f.spOffset + 4 * Word.low args.length }).add
        (intoAccCode v ++ code))
    (runs : ∀ regs', rest ≤ regs' → regs' .a0 = .object →
      Runs F.cls w (level (n + args.length)) args.length code
        (F.frame (n + args.length) regs') (some (F.frame n (giving .a0)))) :
    F.Op w (F.point (n + args.length) u regs) (Record.noted args.length y)
      (Gives x (F.point n u (giving .a0))) := by
  refine op_noted fun t b t' known fits turn base run => ?_
  obtain ⟨rfl, f, found, rfl⟩ := h t b t' run
  cases known.symm.trans found
  have few := level_few fits
  have popped : level (n + args.length) + 4 * Word.low args.length = level n := by
    rw [low_eq (by omega)]
    exact level_add n args.length
  refine ⟨_, _, ⟨rfl, rfl⟩, State.add_code .., ?_, level_fits fits, rfl, turn, ?_, ?_⟩
  · show some _ = some _
    rw [popped]
    rfl
  · rintro _ ⟨⟩
    exact rest_giving result_a0
  · exact runs_intoAcc hv (runs _ (rest_update base (by decide)) (Function.update_self ..))

theorem op_callDirect {label : String} {args : List Int} (loud : Loud label)
    (hv : regs v = .object) : F.Op w (F.point (n + args.length) u regs)
      (Record.noted args.length (Asm.callDirect label v args))
      (Gives .a0 (F.point n u (giving .a0))) := by
  refine op_call [.jal label] hv (fun t x t' run => ?_) fun regs' base object => ?_
  · obtain ⟨rfl, f, known, _, rfl⟩ := callDirect_ok run
    exact ⟨rfl, f, known, rfl⟩
  · exact runs_call loud base object (.done le_rfl)

theorem op_callDynamic {slot : Nat} {args : List Int} (hv : regs v = .object) :
    F.Op w (F.point (n + args.length) u regs)
      (Record.noted args.length (Asm.callDynamic v slot args))
      (Gives .a0 (F.point n u (giving .a0))) := by
  refine op_call [.lw .t1 dispatchTableOffset .a0, .lw .t1 (4 * Word.low slot) .t1, .jalr .t1]
    hv (fun t x t' run => ?_) fun regs' base object => ?_
  · obtain ⟨rfl, f, known, _, rfl⟩ := callDynamic_ok run
    exact ⟨rfl, f, known, rfl⟩
  · have table : (F.frame (n + args.length) regs').loaded F.cls (level (n + args.length))
        dispatchTableOffset .a0 = .address := by
      simp only [Held.loaded, frame, object, Kind.pointee, objectWord, if_pos]
    refine .lw (by decide) (reg_known object) ?_
    rw [table]
    have method : ((F.frame (n + args.length) regs').put .t1 .address).loaded F.cls
        (level (n + args.length)) (4 * Word.low slot) .t1 = .address := by
      simp [Held.loaded, Held.put, Kind.pointee]
    refine .lw (by decide) (by simp [Held.put]) ?_
    rw [method]
    refine .jalr (by simp [Held.put]) (by simpa [Held.put, frame] using object)
      (fun j pos le => slots_passed pos le) (.done ?_)
    exact called_frame (rest_update (rest_update base (by decide)) (by decide))

end Calls

section SelfType

/-- The frame with the address of an entry of `class_objTab` on top of `n` words. -/
def entered (F : Emitting) (n : Nat) (regs : Reg → Kind) : Held :=
  ⟨regs, Function.update (slots F.formals n) (level n) .entry⟩

theorem op_emit {i : Instr} (g' : Held) (base' : rest ≤ g.reg → rest ≤ g'.reg)
    (runs : rest ≤ g.reg → Runs F.cls w (level n) 0 [i] g (some g')) :
    F.Op w ⟨n, u, some g⟩ (Record.noted 0 (Asm.emit i)) (Gives () ⟨n, u, some g'⟩) := by
  refine op_noted fun t _ t' known fits turn base run => ?_
  rw [emit_ok.mp run]
  refine ⟨_, _, ⟨rfl, rfl⟩, State.add_code .., known, fits, rfl, turn, ?_, runs base⟩
  rintro _ ⟨⟩
  exact base' base

theorem entered_above (le : regs' ≤ regs) {words : Int → Kind}
    (same : ∀ x, level n ≤ x → words x = Function.update (slots F.formals n) (level n) .entry x) :
    F.entered n regs' ≤ (⟨regs, words⟩ : Held).above (level (n + 1)) := by
  refine Held.le_of le fun x => ?_
  show Function.update (slots F.formals n) (level n) .entry x ≤
    if level (n + 1) < x then words x else .lost
  have lower := level_succ n
  have low := level_low n
  by_cases inside : level n ≤ x
  · have above : level (n + 1) < x := by
      simp only [wordSize] at lower
      omega
    rw [if_pos above, same x inside]
  · refine .inl ?_
    rw [Function.update_of_ne (by omega), slots, if_neg]
    simp only [savedArea] at low
    omega

theorem op_newSelfType :
    F.Op w (F.point n u regs) Record.newSelfType (Gives .a0 (F.point n u (giving .a0))) := by
  have t1_free : Reg.t1 ∉ Held.fixed := by decide
  have t2_free : Reg.t2 ∉ Held.fixed := by decide
  have a0_free : Reg.a0 ∉ Held.fixed := by decide
  have table : symbolKind Linkage.classObjects = .entry := if_pos rfl
  refine .step (op_emit _ (fun base => rest_update base t1_free) fun _ =>
    .la (.inl rfl) table (by decide) (.done le_rfl)) ?_
  refine .step (op_emit _ (fun base => rest_update base t2_free) fun base =>
    .lw (by decide) (base_known base (by decide)) (.done le_rfl)) ?_
  refine .step (op_emit _ (fun base => rest_update base t2_free) fun base =>
    .sll (by decide) ?_ (.done le_rfl)) ?_
  · exact selfWord_known F.cls tagOffset
  refine .step (op_emit (F.frame n (Function.update rest .t1 .entry))
    (fun _ => rest_update le_rfl t1_free) fun base =>
    .addu (by decide) (by simp [Held.put]) (by simp [Held.put]) (.done ?_)) ?_
  · refine frame_le (update_le_update_iff.mpr ⟨?_, fun q _ => base q⟩)
    simp [Held.put, Kind.plus]
  refine .step (op_pushed (F.entered n (Function.update rest .t1 .entry)) id fun base =>
    .sw (by simp [frame]) (base_known base (by decide)) (fun _ => .inr (by simp [frame]))
      (by simp) (.shift (base_known base (by decide)) (.done ?_))) ?_
  · rw [show level n + -wordSize = level (n + 1) from (level_succ n).symm]
    refine entered_above le_rfl fun x _ => ?_
    simp [frame]
  have popless : level (n + 1) + wordSize * (0 : Nat) = level (n + 1) := by simp
  have called (regs' : Reg → Kind) (base : rest ≤ regs') : F.entered n (giving .a0) ≤
      (F.entered n regs').called.above (level (n + 1) + wordSize * (0 : Nat)) := by
    rw [popless]
    exact entered_above (giving_called (g := F.entered n regs') base) fun _ _ => rfl
  have t1_base (κ : Kind) : rest ≤ Function.update (giving .a0) .t1 κ :=
    rest_update (rest_giving result_a0) t1_free
  refine .step (op_emit (F.entered n (giving .a0)) (fun _ => rest_giving result_a0)
    fun _ => .lw (by decide) (by simp [entered]) (.done ?_)) ?_
  · have made : (F.entered n (Function.update rest .t1 .entry)).loaded F.cls (level (n + 1)) 0 .t1 =
        .object := by
      simp [entered, Held.loaded, Kind.pointee]
    rw [made]
    exact Held.le_of (acc_giving (rest_update le_rfl t1_free)) fun _ => le_rfl
  refine .step (op_emit (F.entered n (giving .a0)) id fun base =>
    .jal loud_copy.proceeds ?_ (fun _ => ⟨giving_self (v := .a0), by omega⟩) (.done ?_)) ?_
  · rw [loud_copy.passed]
    simp [entered, giving]
  · exact (called _ base).trans (Held.above_le (called_calledAt (by decide)))
  refine .step (op_emit (F.entered n (Function.update (giving .a0) .t1 .entry))
    (fun _ => t1_base _) fun base =>
    .lw (by decide) (base_known base (by decide)) (.done ?_)) ?_
  · have top : (F.entered n (giving .a0)).loaded F.cls (level (n + 1)) wordSize .sp = .entry := by
      simp [entered, Held.loaded, level_succ]
    rw [top]
    exact le_rfl
  refine .step (op_emit (F.entered n (Function.update (giving .a0) .t1 .address))
    (fun _ => t1_base _) fun base =>
    .lw (by decide) (by simp [entered]) (.done ?_)) ?_
  · have code : (F.entered n (Function.update (giving .a0) .t1 .entry)).loaded F.cls
        (level (n + 1)) wordSize .t1 = .address := by
      simp [entered, Held.loaded, Kind.pointee, wordSize]
    rw [code]
    refine Held.le_of (fun q => ?_) fun _ => le_rfl
    simp [entered, Held.put]
  refine .step (op_emit (F.entered n (giving .a0)) (fun _ => rest_giving result_a0)
    fun base => .jalr (by simp [entered]) (by simp [entered, giving]) (by omega)
      (.done (called _ base))) ?_
  refine .step (op_released (a := ()) (F.frame n (giving .a0)) Frame.discardCode id
    (fun t _ t' run => ?_) fun base => .shift (base_known base (by decide)) (.done ?_)) .ret
  · obtain ⟨f, known, _, fits, rfl⟩ := discard_ok run
    exact ⟨rfl, f, known, fits, rfl⟩
  · refine slots_pop (d := 1) le_rfl fun x inside => ?_
    rw [Function.update_of_ne (by omega)]

end SelfType

end Emitting

end ClassBackend.Mips
