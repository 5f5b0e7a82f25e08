import ClassBackend.Proofs.Barrier.Sources
import ClassBackend.Proofs.Mips.Roots.Stations

/-! What each operation of the backend does to what is held. Values are objects in registers that
may be overwritten by the next operation, so an operation says which registers it leaves alone. -/
namespace ClassBackend.Mips

open Lowering

/-- A register that the value of an expression is left in. -/
def Result (v : Reg) : Prop := v ∈ [Reg.a0, .s0, .zero]

def giving (v : Reg) : Reg → Kind := Function.update rest v .object

/-- A symbol that none of the routines that do not allocate has. -/
def Loud (s : String) : Prop := ∀ r ∈ quietRoutines, s ≠ r.symbol

section Registers

variable {v r : Reg} {κ : Kind} {regs regs' : Reg → Kind} {s : String} {m n : Nat}

theorem giving_self : giving v v = .object := Function.update_self ..

theorem rest_giving (h : Result v) : rest ≤ giving v := by
  simp only [Result, List.mem_cons, List.not_mem_nil, or_false] at h
  refine le_update_iff.mpr ⟨?_, fun q _ => le_rfl⟩
  rcases h with rfl | rfl | rfl
  · exact Kind.lost_le
  · exact le_rfl
  · exact le_rfl

theorem giving_le (base : rest ≤ regs) (h : regs v = .object) : giving v ≤ regs :=
  update_le_iff.mpr ⟨le_of_eq h.symm, fun q _ => base q⟩

theorem giving_kept (result : Result v) (base : rest ≤ regs) (h : regs v = .object)
    (kept : ∀ q ∈ Reg.a0 :: Held.fixed, regs' q = regs q) : giving v ≤ regs' := by
  have there : v ∈ Reg.a0 :: Held.fixed := by
    revert result
    unfold Result
    cases v <;> decide
  refine update_le_iff.mpr ⟨le_of_eq ((kept v there).trans h).symm, fun q _ => ?_⟩
  by_cases known : q ∈ Held.fixed
  · rw [kept q (List.mem_cons_of_mem _ known)]
    exact base q
  · exact rest_free known _

theorem result_a0 : Result .a0 := by
  unfold Result
  decide

theorem result_s0 : Result .s0 := by
  unfold Result
  decide

theorem result_zero : Result .zero := by
  unfold Result
  decide

theorem result_ne (h : Result v) (other : ¬Result r) : v ≠ r := fun same => other (same ▸ h)

theorem scratch_free (n : Nat) : Reg.scratchAt n ∉ Held.fixed ∧ ¬Result (Reg.scratchAt n) ∧
    Reg.scratchAt n ≠ .t1 ∧ Reg.scratchAt n ≠ .s0 := by
  have each : ∀ r ∈ Reg.scratch, r ∉ Held.fixed ∧ r ∉ [Reg.a0, .s0, .zero] ∧ r ≠ .t1 ∧ r ≠ .s0 := by
    decide
  exact each _ (Reg.scratchAt_mem n)

theorem loud_copy : Loud Routine.objectCopy.symbol := by
  unfold Loud
  decide

theorem loud_initializer (cls : String) : Loud (Linkage.initializer cls) := by
  have other : ∀ r ∈ quietRoutines, ['t', 'i'] ≠ r.symbol.toList.reverse.take 2 := by decide
  intro r hr same
  refine other r hr ?_
  rw [← same]
  simp [Linkage.initializer, String.toList_append]

theorem loud_method {k : ClassLayout} {name label : String} (h : k.methodLabel name = .ok label) :
    Loud label := by
  intro r hr
  refine methodLabel_unlike h ?_
  revert r
  decide

theorem Loud.proceeds (h : Loud s) : (Instr.jal s).proceeds = true := by
  refine List.all_eq_true.mpr fun kind _ => ?_
  have quiet : Routine.ofAbort kind ∈ quietRoutines := by cases kind <;> decide
  simpa using (h _ quiet).symm

theorem Loud.passed (h : Loud s) : Instr.passed s = [.a0] := by
  have equality := h .equalityTest (by decide)
  have barrier := h .gcAssign (by decide)
  have others : (quietRoutines.any fun r => r.symbol = s) = false := by
    refine List.any_eq_false.mpr fun r hr => ?_
    simpa using (h r hr).symm
  rw [Instr.passed, if_neg equality, if_neg barrier, others]
  rfl

end Registers

namespace Emitting

variable {F : Emitting} {w : Entries} {n u p : Nat} {v r obj : Reg} {κ : Kind}
variable {regs regs' : Reg → Kind} {is : List Instr} {o : Option Held} {s : String} {b : BlockName}

section Frames

theorem frame_le (h : regs' ≤ regs) : F.frame n regs' ≤ F.frame n regs :=
  Held.le_of h fun _ => le_rfl

theorem frame_giving (base : rest ≤ regs) (h : regs v = .object) :
    F.frame n (giving v) ≤ F.frame n regs := frame_le (giving_le base h)

theorem giving_called {g : Held} (base : rest ≤ g.reg) : giving .a0 ≤ g.called.reg := by
  refine update_le_update_iff.mpr ⟨le_rfl, fun q _ => ?_⟩
  show rest q ≤ if q ∈ Held.fixed then g.reg q else .lost
  by_cases known : q ∈ Held.fixed
  · rw [if_pos known]
    exact base q
  · rw [if_neg known]
    exact rest_free known _

theorem acc_giving (base : rest ≤ regs) : giving .a0 ≤ Function.update regs .a0 .object :=
  giving_le (rest_update base (by decide)) (Function.update_self ..)

theorem frame_acc (base : rest ≤ regs) :
    F.frame n (giving .a0) ≤ (F.frame n regs).put .a0 .object := frame_le (acc_giving base)

theorem called_frame (base : rest ≤ regs) : F.frame n (giving .a0) ≤
    (F.frame (n + p) regs).called.above (level (n + p) + wordSize * p) :=
  slots_pop (giving_called (g := F.frame (n + p) regs) base) fun x _ =>
    slots_le (Nat.le_add_right ..) x

theorem called_calledAt {g : Held} (unlike : s ≠ Routine.gcAssign.symbol) :
    g.called ≤ g.calledAt s := by
  rw [Held.calledAt, if_neg unlike]
  split
  · refine Held.le_of (fun q => ?_) fun _ => le_rfl
    by_cases t5 : q = .t5
    · subst t5
      exact .inl rfl
    · rw [Held.put_reg t5]
  · exact le_rfl

theorem runs_call (loud : Loud s) (base : rest ≤ regs) (object : regs .a0 = .object)
    (rest : Runs F.cls w (level (n + p)) p is (F.frame n (giving .a0)) o) :
    Runs F.cls w (level (n + p)) p (.jal s :: is) (F.frame (n + p) regs) o := by
  refine .jal loud.proceeds ?_ (fun _ => ⟨object, fun j pos le => slots_passed pos le⟩) ?_
  · simpa [loud.passed, frame] using fun lost => by rw [object] at lost; cases lost
  · refine rest.mono ((called_frame (p := p) base).trans ?_)
    exact Held.above_le (called_calledAt (loud .gcAssign (by decide)))

end Frames

section Shapes

variable {α : Type} {y : Asm α} {a : α}

theorem op_flat {R : α → Station → Prop} (h : ∀ t a t', t.nextScratch = u → rest ≤ regs →
      y t = .ok (a, t') → ∃ (t₀ : State) (is : List Instr) (u' : Nat) (o : Option Held),
        t' = t₀.add is ∧ t₀.code = t.code ∧ t₀.fresh = t.fresh ∧ t₀.frame = t.frame ∧
        t₀.nextScratch = u' ∧ R a ⟨n, u', o⟩ ∧ (∀ g', o = some g' → rest ≤ g'.reg) ∧
        Runs F.cls w (level n) 0 is (F.frame n regs) o) :
    F.Op w (F.point n u regs) (Record.noted 0 y) R := by
  refine op_noted fun t a t' known fits turn base run => ?_
  obtain ⟨t₀, is, u', o, rfl, code, fresh, frame, turn', hR, base', runs⟩ := h t a t' turn base run
  refine ⟨is, _, hR, ?_⟩
  exact ⟨by rw [State.add_code, code], frame.trans known, fits, fresh, turn', base', runs⟩

theorem op_code (base' : rest ≤ regs → rest ≤ regs') (h : ∀ t b t', rest ≤ regs →
      y t = .ok (b, t') → b = a ∧ ∃ is, t' = t.add is ∧
        Runs F.cls w (level n) 0 is (F.frame n regs) (some (F.frame n regs'))) :
    F.Op w (F.point n u regs) (Record.noted 0 y) (Gives a (F.point n u regs')) := by
  refine op_flat fun t b t' turn base run => ?_
  obtain ⟨rfl, is, rfl, runs⟩ := h t b t' base run
  refine ⟨t, is, u, _, rfl, rfl, rfl, rfl, turn, ⟨rfl, rfl⟩, ?_, runs⟩
  rintro _ ⟨⟩
  exact base' base

theorem op_end {y : Asm Unit} (h : ∀ t t', rest ≤ regs → y t = .ok ((), t') →
      ∃ is, t' = t.add is ∧ Runs F.cls w (level n) 0 is (F.frame n regs) none) :
    F.Op w (F.point n u regs) (Record.noted 0 y) (Gives () ⟨n, u, none⟩) := by
  refine op_flat fun t b t' turn base run => ?_
  obtain ⟨is, rfl, runs⟩ := h t t' base run
  exact ⟨t, is, u, none, rfl, rfl, rfl, rfl, turn, ⟨rfl, rfl⟩, by simp, runs⟩

def Draws (F : Emitting) (n u : Nat) (regs : Reg → Kind) (x : Operand) (P : Station) : Prop :=
  x = .reg (Reg.scratchAt u) ∧ ∃ κ, κ ≠ .lost ∧
    P = F.point n (u + 1) (Function.update regs (Reg.scratchAt u) κ)

theorem op_draw {y : Asm Operand} (base' : rest ≤ regs → rest ≤ regs')
    (h : ∀ t x t', rest ≤ regs → t.nextScratch = u → y t = .ok (x, t') →
      x = .reg (Reg.scratchAt u) ∧ ∃ is κ, t' = t.drawn.add is ∧ κ ≠ .lost ∧
        Runs F.cls w (level n) 0 is (F.frame n regs)
          (some (F.frame n (Function.update regs' (Reg.scratchAt u) κ)))) :
    F.Op w (F.point n u regs) (Record.noted 0 y) (F.Draws n u regs') := by
  refine op_flat fun t x t' turn base run => ?_
  obtain ⟨rfl, is, κ, rfl, known, runs⟩ := h t x t' base turn run
  refine ⟨t.drawn, is, u + 1, _, rfl, rfl, rfl, rfl, congrArg (· + 1) turn,
    ⟨rfl, κ, known, rfl⟩, ?_, runs⟩
  rintro _ ⟨⟩
  exact rest_update (base' base) (scratch_free u).1

end Shapes

section Storage

variable {slot : Nat} {off a : Int} {k cls : ClassLayout}

theorem op_constant (c : Const) :
    F.Op w (F.point n u regs) (Record.noted 0 (Asm.constant c))
      (Gives .a0 (F.point n u (giving .a0))) := by
  refine op_code (fun _ => rest_giving result_a0) fun t v t' base run => ?_
  simp only [Asm.constant, bind_ok, emit_ok, pure_ok] at run
  obtain ⟨_, _, rfl, rfl, rfl⟩ := run
  exact ⟨rfl, _, rfl, .const (by decide) (.done (frame_acc base))⟩

theorem reg_known (h : regs v = .object) : (F.frame n regs).reg v ≠ .lost := by
  show regs v ≠ .lost
  rw [h]
  decide

theorem base_known {g : Held} (base : rest ≤ g.reg) (fixed : r ∈ Held.fixed) :
    g.reg r ≠ .lost := by
  rw [rest_fixed fixed base]
  revert r
  decide

theorem op_loadLocal (held : slots F.formals n a = .object) :
    F.Op w (F.point n u regs) (Record.noted 0 (Asm.loadLocal a))
      (Gives .a0 (F.point n u (giving .a0))) := by
  refine op_code (fun _ => rest_giving result_a0) fun t v t' base run => ?_
  simp only [Asm.loadLocal, bind_ok, emit_ok, pure_ok] at run
  obtain ⟨_, _, rfl, rfl, rfl⟩ := run
  refine ⟨rfl, _, rfl, .lw (by decide) (base_known base (by decide)) (.done ?_)⟩
  have loaded : (F.frame n regs).loaded F.cls (level n) a .fp = .object := held
  rw [loaded]
  exact frame_acc base

theorem op_storeLocal (held : slots F.formals n a = .object) (hv : regs v = .object) :
    F.Op w (F.point n u regs) (Record.noted 0 (Asm.storeLocal a v))
      (Gives () (F.point n u regs)) := by
  refine op_code id fun t _ t' base run => ?_
  simp only [Asm.storeLocal, emit_ok] at run
  refine ⟨rfl, _, run, .sw (reg_known hv) (base_known base (by decide)) (fun _ => .inl hv)
    (fun _ => hv) (.done ?_)⟩
  refine Held.le_of (fun _ => le_rfl) fun x => ?_
  show slots F.formals n x ≤ Function.update (slots F.formals n) a (regs v) x
  rw [hv, ← held, Function.update_eq_self]

def Boxed (F : Emitting) (slot : Nat) : Prop :=
  ∀ off, fieldOffset slot = .ok off → selfWord F.cls off = .object

theorem op_loadField (boxed : F.Boxed slot) :
    F.Op w (F.point n u regs) (Record.noted 0 (Asm.loadField .s0 slot))
      (Gives .a0 (F.point n u (giving .a0))) := by
  refine op_code (fun _ => rest_giving result_a0) fun t v t' base run => ?_
  obtain ⟨rfl, off, known, rfl⟩ := loadField_ok run
  refine ⟨rfl, _, rfl, .lw (by decide) (base_known base (by decide)) (.done ?_)⟩
  have loaded : (F.frame n regs).loaded F.cls (level n) off .s0 = .object := boxed off known
  rw [loaded]
  exact frame_acc base

theorem op_storeField (hv : regs v = .object) :
    F.Op w (F.point n u regs) (Record.noted 0 (Asm.storeField .s0 slot v))
      (Gives () (F.point n u regs)) := by
  refine op_code id fun t _ t' base run => ?_
  obtain ⟨off, _, rfl⟩ := storeField_ok run
  exact ⟨rfl, _, rfl, .sw (reg_known hv) (base_known base (by decide)) (fun _ => .inl hv)
    (fun _ => hv) (.done le_rfl)⟩

theorem op_writeBarrier (result : Result v) (hv : regs v = .object) :
    F.Op w (F.point n u regs) (Record.noted 0 (Asm.writeBarrier .s0 slot))
      (Gives () (F.point n u (giving v))) := by
  refine op_code (fun _ => rest_giving result) fun t _ t' base run => ?_
  obtain ⟨off, _, rfl⟩ := writeBarrier_ok run
  refine ⟨rfl, _, rfl, .address (base_known base (by decide)) (.jal (by decide) ?_ ?_ (.done ?_))⟩
  · have address : Instr.passed Routine.gcAssign.symbol = [.a1] := by decide
    rw [address]
    simp [Held.put]
  · intro collects
    exact absurd collects (by decide)
  · refine slots_pop (d := 0) (giving_kept result base hv fun q hq => ?_) fun _ _ => le_rfl
    have other : q ≠ .a1 := by
      rintro rfl
      revert hq
      decide
    show (if q ∈ Reg.a0 :: Held.fixed then _ else Kind.lost) = regs q
    rw [if_pos hq]
    exact Held.put_reg other

theorem op_pushed {g : Held} (g' : Held) (base' : rest ≤ g.reg → rest ≤ g'.reg)
    (runs : rest ≤ g.reg → Runs F.cls w (level n) 0 (Frame.pushCode r) g (some g')) :
    F.Op w ⟨n, u, some g⟩ (Record.noted 0 (Asm.push r)) (Gives (level n) ⟨n + 1, u, some g'⟩) := by
  refine op_noted fun t slot t' known _ turn base run => ?_
  obtain ⟨f, found, rfl, fits, rfl⟩ := push_ok run
  cases known.symm.trans found
  have lower : level n - 4 = level (n + 1) := (level_succ n).symm
  refine ⟨_, _, ⟨rfl, rfl⟩, State.add_code .., ?_, ?_, rfl, turn, ?_, runs base⟩
  · rw [← lower]
    rfl
  · rw [← lower]
    exact fits
  · rintro _ ⟨⟩
    exact base' base

theorem op_push (hv : regs v = .object) :
    F.Op w (F.point n u regs) (Record.noted 0 (Asm.push v))
      (Gives (level n) (F.point (n + 1) u regs)) := by
  refine op_pushed _ id fun base => ?_
  refine .sw (reg_known hv) (base_known base (by decide)) (fun _ => .inl hv) (fun _ => hv) ?_
  refine .shift (base_known base (by decide)) (.done ?_)
  refine (slots_push le_rfl).trans (Held.above_le (Held.store_le le_rfl ?_))
  exact le_of_eq hv.symm

theorem op_released {α : Type} {y : Asm α} {a : α} {g : Held} (g' : Held)
    (is : List Instr) (base' : rest ≤ g.reg → rest ≤ g'.reg)
    (h : ∀ t b t', y t = .ok (b, t') → b = a ∧ ∃ f, t.frame = some f ∧
      Word.fits (f.spOffset + 4) = true ∧
      t' = (t.framed { f with spOffset := f.spOffset + 4 }).add is)
    (runs : rest ≤ g.reg → Runs F.cls w (level (n + 1)) 0 is g (some g')) :
    F.Op w ⟨n + 1, u, some g⟩ (Record.noted 0 y) (Gives a ⟨n, u, some g'⟩) := by
  refine op_noted fun t b t' known _ turn base run => ?_
  obtain ⟨rfl, f, found, fits, rfl⟩ := h t b t' run
  cases known.symm.trans found
  have higher : level (n + 1) + 4 = level n := by
    rw [level_succ]
    exact Int.sub_add_cancel _ _
  refine ⟨_, _, ⟨rfl, rfl⟩, State.add_code .., ?_, ?_, rfl, turn, ?_, runs base⟩
  · rw [← higher]
    rfl
  · rw [← higher]
    exact fits
  · rintro _ ⟨⟩
    exact base' base

theorem op_discard {slot : Int} : F.Op w (F.point (n + 1) u regs)
    (Record.noted 0 (Asm.discard slot)) (Gives () (F.point n u regs)) := by
  refine op_released _ Frame.discardCode id (fun t _ t' run => ?_) fun base => ?_
  · obtain ⟨f, known, _, fits, rfl⟩ := discard_ok run
    exact ⟨rfl, f, known, fits, rfl⟩
  · refine .shift (base_known base (by decide)) (.done ?_)
    exact slots_pop (d := 1) le_rfl fun x _ => slots_le (Nat.le_succ n) x

theorem op_restore {slot : Int} : F.Op w (F.point (n + 1) u regs)
    (Record.noted 0 (Asm.restore slot))
    (Gives .t1 (F.point n u (Function.update regs .t1 .object))) := by
  refine op_released _ (Frame.popCode .t1) (fun base => rest_update base (by decide))
    (fun t v t' run => ?_) fun base => ?_
  · simp only [Asm.restore, bind_ok, pure_ok] at run
    obtain ⟨_, _, popped, rfl, rfl⟩ := run
    obtain ⟨f, known, _, fits, rfl⟩ := pop_ok popped
    exact ⟨rfl, f, known, fits, rfl⟩
  · refine .lw (by decide) (base_known base (by decide)) ?_
    have loaded : (F.frame (n + 1) regs).loaded F.cls (level (n + 1)) wordSize .sp = .object :=
      slots_top
    rw [loaded]
    refine .shift (base_known (rest_update base (by decide)) (by decide)) (.done ?_)
    exact slots_pop (d := 1) le_rfl fun x _ => slots_le (Nat.le_succ n) x

end Storage

end Emitting

end ClassBackend.Mips
