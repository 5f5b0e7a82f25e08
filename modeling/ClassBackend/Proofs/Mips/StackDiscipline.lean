import ClassBackend.Proofs.Mips.StackState

/-! The annotated backend under a discipline: every operation leads from a state in which the code
so far follows the stack to another one. No operation fails but where an offset is out of range. -/
namespace ClassBackend.Mips

open Emission Lowering

section Pieces

open Record

attribute [local irreducible] Word.low Word.fits

variable {T : Fault → Prop} {obj v a b : Reg} {x y : Operand} {slot : Nat} {cls : ClassLayout}
variable {k : Nat}

theorem a0_general : General .a0 := ⟨by decide, by decide⟩
theorem a1_general : General .a1 := ⟨by decide, by decide⟩
theorem t1_general : General .t1 := ⟨by decide, by decide⟩
theorem t2_general : General .t2 := ⟨by decide, by decide⟩
theorem t5_general : General .t5 := ⟨by decide, by decide⟩

theorem a0_value : IsValue .a0 := by
  unfold IsValue
  decide

theorem t1_value : IsValue .t1 := by
  unfold IsValue
  decide

theorem intoAcc_writes : Writes T (Still k) (Asm.intoAcc v) anything :=
  .intoAcc (still_write rfl a0_general rfl)

theorem inReg_writes : Writes T (Still k) (Asm.inReg x) anything :=
  .inReg fun _ _ hr => still_write rfl hr rfl

theorem constant_writes {c : Const} : Writes T (Still 0) (Asm.constant c) IsValue :=
  Writes.bind (.emit (still_write rfl a0_general rfl)) fun _ _ => .ret a0_value

theorem allocate_writes : Writes T (Still 0) (Asm.allocate cls) IsValue :=
  Writes.bind (.emit (still_write rfl a0_general rfl)) fun _ _ =>
    Writes.bind (.emit still_call) fun _ _ => .ret a0_value

theorem callInit_writes : Writes T (Still 0) (Asm.callInit cls obj) IsValue :=
  Writes.bind intoAcc_writes fun _ _ => Writes.bind (.emit still_call) fun _ _ => .ret a0_value

theorem arith_writes {op : ArithOp} : Writes T (Still 0) (Asm.arith op x y) anything :=
  Writes.bind inReg_writes fun _ _ => Writes.bind .scratch fun _ hd =>
    Writes.bind (.emit (still_write rfl hd rfl)) fun _ _ => .ret trivial

theorem negate_writes : Writes T (Still 0) (Asm.negate x) anything :=
  Writes.bind inReg_writes fun _ _ => Writes.bind .scratch fun _ hd =>
    Writes.bind (.emit (still_write rfl hd rfl)) fun _ _ => .ret trivial

theorem loadTag_writes (hobj : General obj) : Writes T (Still 0) (Asm.loadTag obj) anything :=
  Writes.bind .scratch fun _ hr =>
    Writes.bind (.emit (still_load hr hobj.2)) fun _ _ => .ret trivial

theorem abort_writes {kind : AbortKind} {file : Const} {line : UInt64} :
    Writes T (Still 0) (Asm.abort kind file line) anything :=
  Writes.bind (.emit (still_write rfl a0_general rfl)) fun _ _ =>
    Writes.bind (.emit (still_write rfl t1_general rfl)) fun _ _ => .emit still_call

theorem rawWord_writes {n : Int} (h : Word.fits n = true ∨ T (.wordRange n)) :
    Writes T (Still 0) (backend.rawWord n) anything := by
  refine Writes.ofExcept ?_
  unfold Word.ofLiteral
  split
  · exact ⟨trivial, trivial⟩
  · rename_i wide
    exact fun _ => h.resolve_left wide

variable (excused : ∀ op, T (.overflow op))
include excused

theorem loadField_writes (hobj : General obj) :
    Writes T (Still 0) (Asm.loadField obj slot) IsValue :=
  Writes.bind (.ofExcept (fieldOffset_settles excused slot)) fun _ _ =>
    Writes.bind (.emit (still_load a0_general hobj.2)) fun _ _ => .ret a0_value

theorem storeField_writes (hobj : General obj) :
    Writes T (Still 0) (Asm.storeField obj slot v) anything :=
  Writes.bind (.ofExcept (fieldOffset_settles excused slot)) fun _ _ => .emit (still_store hobj.2)

theorem writeBarrier_writes : Writes T (Still 0) (Asm.writeBarrier obj slot) anything :=
  Writes.bind (.ofExcept (fieldOffset_settles excused slot)) fun _ _ =>
    Writes.bind (.emit (still_write rfl a1_general rfl)) fun _ _ => .emit still_call

theorem unbox_writes (hv : General v) : Writes T (Still 0) (Asm.unbox v cls) anything :=
  Writes.bind .scratch fun _ hr =>
    Writes.bind (.ofExcept (fieldOffset_settles excused cls.ownStart)) fun _ _ =>
      Writes.bind (.emit (still_load hr hv.2)) fun _ _ => .ret trivial

theorem boxInt_writes : Writes T (Still 0) (Asm.boxInt x cls) IsValue := by
  have rest : Writes T (Still 0) (do
      Asm.emit (.la .a0 (Linkage.prototype cls.name))
      Asm.call .objectCopy
      Asm.emit (.sw .t5 (← Asm.ofExcept (fieldOffset cls.ownStart)) .a0)
      pure .a0 : Asm Reg) IsValue :=
    Writes.bind (.emit (still_write rfl a0_general rfl)) fun _ _ =>
      Writes.bind (.emit still_call) fun _ _ =>
        Writes.bind (.ofExcept (fieldOffset_settles excused cls.ownStart)) fun _ _ =>
          Writes.bind (.emit (still_store (by decide))) fun _ _ => .ret a0_value
  unfold Asm.boxInt
  split
  · exact rest
  · exact Writes.bind (.emit (still_write rfl t5_general rfl)) fun _ _ => rest
  · exact Writes.bind (.emit (still_write rfl t5_general rfl)) fun _ _ => rest

theorem callEquality_writes (ha : IsValue a) (hb : IsValue b) :
    Writes T (Still 0) (Asm.callEquality a b) anything := by
  have rest : Writes T (Still 0) (do
      Asm.emit (.la .a0 (Const.bool true).label)
      Asm.emit (.la .a1 (Const.bool false).label)
      Asm.call .equalityTest
      let r ← Asm.scratch
      Asm.emit (.lw r (← Asm.ofExcept (fieldOffset 0)) .a0)
      pure (.reg r) : Asm Operand) anything :=
    Writes.bind (.emit (still_write rfl a0_general rfl)) fun _ _ =>
      Writes.bind (.emit (still_write rfl a1_general rfl)) fun _ _ =>
        Writes.bind (.emit still_call) fun _ _ => Writes.bind .scratch fun _ hr =>
          Writes.bind (.ofExcept (fieldOffset_settles excused 0)) fun _ _ =>
            Writes.bind (.emit (still_load hr (by decide))) fun _ _ => .ret trivial
  unfold Asm.callEquality
  rw [if_neg ha.ne_t2, if_neg hb.ne_t2]
  refine Writes.bind (.emit (still_write rfl t2_general rfl)) fun _ _ => ?_
  split
  · exact rest
  · exact Writes.bind (.emit (still_write rfl t1_general rfl)) fun _ _ => rest

end Pieces

section Frames

variable {T : Fault → Prop} {α β : Type} {m : Asm α} {g : α → Asm β} {a : α} {t t' : State}
variable {f : Frame} {r v : Reg}

theorem run_bind {σ : Type} {m : Emit σ α} {g : α → Emit σ β} {t t' : σ}
    (run : m t = .ok (a, t')) : (m >>= g) t = g a t' := by
  simp only [Bind.bind, StateT.bind, Except.bind, run]

theorem frame_bind {g : Frame → Asm β} (known : t.frame = some f) :
    (Asm.frame >>= g) t = g f t :=
  run_bind (frame_ok.mpr ⟨known, rfl⟩)

theorem beginFunction_run (label : String) (n : Nat) (t : State) :
    Asm.beginFunction label n t = .ok ((), { t.add (.label (.symbol label) :: Frame.prologue) with
      frame := some (Frame.new n), nextScratch := 0 }) := by
  unfold Asm.beginFunction
  rw [run_bind (emit_ok (u := ()).mpr rfl), run_bind (emitAll_ok (u := ()).mpr rfl)]
  simp

theorem ofExcept_bind {x : Except Fault α} :
    (Asm.ofExcept x >>= g) t = x >>= fun a => g a t := by
  cases x <;> rfl

attribute [local irreducible] Word.low Word.fits

variable (excused : ∀ op, T (.overflow op))
include excused

theorem push_settles (known : t.frame = some f) : Settles T True (Asm.push r t) fun p =>
    p.1 = f.spOffset ∧ Word.fits (f.spOffset - wordSize) = true ∧
      p.2 = (t.framed { f with spOffset := f.spOffset - wordSize }).add (Frame.pushCode r) := by
  unfold Asm.push
  rw [frame_bind known, ofExcept_bind, Frame.push, bind_assoc]
  refine (sub_settles excused f.spOffset wordSize).then fun n hn => ?_
  obtain ⟨rfl, fits⟩ := hn
  rw [pure_bind]
  dsimp only
  rw [run_bind (setFrame_ok (u := ()).mpr rfl), run_bind (emitAll_ok (u := ()).mpr rfl)]
  exact ⟨trivial, rfl, fits, rfl⟩

theorem release_settles {slot : Int} (top : slot = f.spOffset + wordSize) :
    Settles T True (f.release slot) fun f' => f' = { f with spOffset := f.spOffset + wordSize } ∧
      Word.fits (f.spOffset + wordSize) = true := by
  unfold Frame.release
  refine (add_settles excused f.spOffset wordSize).then fun n hn => ?_
  obtain ⟨rfl, fits⟩ := hn
  rw [if_pos top]
  exact ⟨trivial, rfl, fits⟩

theorem release_run {slot : Int} (known : t.frame = some f) (top : slot = f.spOffset + wordSize)
    (is : List Instr) : Settles T True ((do
      let f ← Asm.ofExcept ((← Asm.frame).release slot)
      Asm.setFrame f
      Asm.emitAll is : Asm Unit) t) fun p => Word.fits (f.spOffset + wordSize) = true ∧
        p.2 = (t.framed { f with spOffset := f.spOffset + wordSize }).add is := by
  rw [frame_bind known, ofExcept_bind]
  refine (release_settles excused top).then fun f' hf => ?_
  obtain ⟨rfl, fits⟩ := hf
  rw [run_bind (setFrame_ok (u := ()).mpr rfl), emitAll_ok (u := ()).mpr rfl]
  exact ⟨trivial, fits, rfl⟩

theorem calleePopped_settles {n k : Nat} {f : Frame} (here : f.spOffset = level (n + k))
    (few : k < 2147483648) :
    Settles T True (f.calleePopped k) fun f' => f' = { f with spOffset := level n } := by
  unfold Frame.calleePopped
  refine (mul_settles excused wordSize (Word.low k)).then fun p hp => ?_
  refine (add_settles excused f.spOffset p).then fun c hc => ?_
  obtain ⟨rfl, _⟩ := hp
  obtain ⟨rfl, _⟩ := hc
  rw [here, low_eq few, level_add, if_pos (level_low n)]
  exact ⟨trivial, rfl⟩

theorem afterCall_settles {n : Nat} {args : List Int} (known : t.frame = some f)
    (here : f.spOffset = level (n + args.length)) (few : args.length < 2147483648)
    (first : ∀ a ∈ args.head?, a = level n) :
    Settles T True (Asm.afterCall args t) fun p =>
      p.2 = t.framed { f with spOffset := level n } := by
  have popped : Settles T True
      ((Asm.ofExcept (f.calleePopped args.length) >>= Asm.setFrame) t) fun p =>
        p.2 = t.framed { f with spOffset := level n } := by
    rw [ofExcept_bind]
    refine (calleePopped_settles excused here few).then fun f' hf => ?_
    rw [hf, setFrame_ok (u := ()).mpr rfl]
    exact ⟨trivial, rfl⟩
  unfold Asm.afterCall
  rw [frame_bind known]
  cases args with
  | nil => exact popped
  | cons a as =>
    dsimp only
    rw [ofExcept_bind, bind_assoc]
    refine (mul_settles excused wordSize (Word.low (a :: as).length)).then fun p hp => ?_
    refine (add_settles excused f.spOffset p).then fun c hc => ?_
    obtain ⟨rfl, _⟩ := hp
    obtain ⟨rfl, _⟩ := hc
    rw [here, low_eq few, level_add, if_pos (first a rfl).symm]
    exact popped

end Frames

section Slots

open Record

variable {T : Fault → Prop} {r v : Reg} {s : Record} {k : Nat}
variable {F : Formals annotated} {K : List (Slot annotated)} {O : List (Pending annotated)}
variable {H : List (BlockName × List (Slot annotated))}
variable (excused : ∀ op, T (.overflow op))

include excused

theorem push_inside (slot : Int → Slot annotated) (there : ∀ a, (slot a).elim id id = a) :
    Emits T True (Inside F K O H) (noted k (Asm.push r)) anything
      fun a => Inside F (slot a :: K) O H := by
  intro s hs
  have step := push_settles (r := r) excused hs.frame
  cases run : Asm.push r s.plain with
  | error e =>
    rw [run] at step
    simp only [noted, run]
    exact step
  | ok p =>
    obtain ⟨a, t⟩ := p
    rw [run] at step
    obtain ⟨_, rfl, fits, rfl⟩ := step
    rw [noted_run run (State.add_code _ _)]
    refine ⟨trivial, trivial, hs.extend (State.add_code _ _) ?_ ?_ ⟨there _, hs.stacked⟩ ?_⟩
    · rw [List.length_cons, level_succ]
      rfl
    · rw [List.length_cons, level_succ]
      exact fits
    · rw [List.length_cons, level_succ, hs.offset, Frame.pushCode, List.map_cons, List.append_cons]
      have kept : Paths s.plain.fresh.next (pending O) (headers H) F.count (level K.length)
          (s.body ++ [⟨.sw r 0 .sp, level K.length, k⟩]) :=
        hs.paths.extend (k := k) (l := [.sw r 0 .sp])
          (by simpa using Still.allowed (still_store (by decide)) (level_low _))
      exact kept.move (level_low _) _

omit excused in
theorem release_inside {α : Type} {m : Asm α} {R : α → Prop} {slot : Slot annotated}
    (front : List Instr) (still : ∀ i ∈ front, Still k i)
    (settles : ∀ {t f}, t.frame = some f → slot.elim id id = f.spOffset + wordSize →
      Settles T True (m t) fun p => R p.1 ∧ Word.fits (f.spOffset + wordSize) = true ∧
        p.2 = (t.framed { f with spOffset := f.spOffset + wordSize }).add
          (front ++ [.addiu .sp .sp wordSize])) :
    Emits T True (Inside F (slot :: K) O H) (noted k m) R fun _ => Inside F K O H := by
  intro s hs
  have back : level (slot :: K).length + wordSize = level K.length := by
    rw [List.length_cons, level_succ]
    exact Int.sub_add_cancel _ _
  have step := settles hs.frame (hs.stacked.1.trans back.symm)
  cases run : m s.plain with
  | error e =>
    rw [run] at step
    simp only [noted, run]
    exact step
  | ok p =>
    obtain ⟨a, t⟩ := p
    rw [run] at step
    obtain ⟨_, hR, fits, rfl⟩ := step
    rw [noted_run run (State.add_code _ _)]
    refine ⟨trivial, hR, hs.extend (State.add_code _ _) (by rw [← back]; rfl) (back ▸ fits)
      hs.stacked.2 ?_⟩
    rw [List.map_append, ← List.append_assoc, hs.offset, ← back]
    exact (hs.paths.extend fun i hi => (still i hi).allowed (level_low _)).move (level_low _) _

theorem discard_inside {e : Slot annotated} :
    Emits T True (Inside F (e :: K) O H) (noted k (Asm.discard (e.elim id id))) anything
      fun _ => Inside F K O H :=
  release_inside [] (by simp) fun known top =>
    (release_run excused known top Frame.discardCode).mono Iff.rfl fun _ hp => ⟨trivial, hp⟩

theorem restore_inside {slot : Slot annotated} :
    Emits T True (Inside F (slot :: K) O H) (noted k (Asm.restore (slot.elim id id))) IsValue
      fun _ => Inside F K O H := by
  refine release_inside [.lw .t1 wordSize .sp]
    (by simpa using still_load t1_general (by decide)) fun {t f} known top => ?_
  have popped := release_run excused known top (Frame.popCode .t1)
  refine popped.then fun p hp => ?_
  exact ⟨trivial, t1_value, hp⟩

end Slots

section Formals

open Record

attribute [local irreducible] Word.low Word.fits

variable {T : Fault → Prop} {v : Reg} {s : Record} {label : String} {n : Nat} {as : List Int}
variable {F : Formals annotated} {K : List (Slot annotated)} {O : List (Pending annotated)}
variable {H : List (BlockName × List (Slot annotated))} {a : Int}

theorem Inside.reach (h : Inside F K O H s) (reaches : Reaches F K a) :
    InUse F.count (level K.length) a := by
  rcases reaches with live | ⟨all, bound⟩
  · exact .inl (h.stacked.live live)
  · exact h.formals.inUse all bound _

theorem frame_allowed {i : Instr} (h : InUse F.count (level K.length) a)
    (shift : i.shift 0 = some 0) (straight : i.targets = [])
    (plain : ∀ c, Noted.mark ⟨i, c, 0⟩ = none) (fixed : i.written ≠ some .fp)
    (word : i.frameWord = some a) :
    Allowed (pending O) (headers H) F.count (level K.length) 0 i where
  fits := {
    here := rfl
    shift := ⟨0, shift, fun _ => by simp⟩
    targets := by simp [straight]
    fixed := fixed
    floor := level_low _
    words := by
      intro offset there
      cases word.symm.trans there
      exact h }
  plain := plain _

theorem loadLocal_inside (reaches : Reaches F K a) :
    Emits T True (Inside F K O H) (noted 0 (Asm.loadLocal a)) IsValue
      fun _ => Inside F K O H := by
  intro s hs
  have allowed : Allowed (pending O) (headers H) F.count (level K.length) 0 (.lw .a0 a .fp) :=
    frame_allowed (hs.reach reaches) rfl rfl (fun _ => rfl) (by simp [Instr.written]) rfl
  exact noted_inside (Writes.bind (.emit allowed) fun _ _ => .ret a0_value) s hs

theorem storeLocal_inside (reaches : Reaches F K a) :
    Emits T True (Inside F K O H) (noted 0 (Asm.storeLocal a v)) anything
      fun _ => Inside F K O H := by
  intro s hs
  have allowed : Allowed (pending O) (headers H) F.count (level K.length) 0 (.sw v a .fp) :=
    frame_allowed (hs.reach reaches) rfl rfl (fun _ => rfl) (by simp [Instr.written]) rfl
  exact noted_inside (.emit allowed) s hs

theorem beginFunction_inside :
    Emits T True Idle (annotated.beginFunction label n) anything
      fun _ => Inside ⟨n, []⟩ [] [] [] := by
  intro s hs
  simp only [annotated, beginFunction, aside, beginFunction_run]
  exact ⟨trivial, trivial, {
    frame := rfl
    fits := fits_savedArea
    stacked := trivial
    formals := ⟨Nat.zero_le _, by simp⟩
    code := by simp [hs.code]
    paths := Paths.start _ _
    done := hs.done }⟩

theorem epilogue_settles (excused : ∀ op, T (.overflow op)) :
    Settles T True (Frame.new n).epilogue anything := by
  unfold Frame.epilogue
  rw [if_pos (show (Frame.new n).spOffset = -savedArea from rfl)]
  generalize Word.low (Frame.new n).formals = count
  refine (mul_settles excused wordSize count).then fun p _ => ?_
  refine (add_settles excused savedArea p).then fun c _ => ?_
  exact ⟨trivial, trivial⟩

theorem finish_idle {x : Except Fault (List Instr)} (settles : Settles T True x anything)
    (frame : s.plain.frame = none)
    (code : ∀ is, x = .ok is → s.plain.code.toList ++ is =
      (s.done ++ [(⟨s.label, n, s.body⟩ : Activation)]).flatMap Activation.code)
    (done : ∀ a ∈ s.done ++ [(⟨s.label, n, s.body⟩ : Activation)], a.Disciplined) :
    Settles T True (aside (do Asm.emitAll (← Asm.ofExcept x))
      (fun s => { s with done := s.done ++ [⟨s.label, n, s.body⟩], body := [] }) s)
      fun p => anything p.1 ∧ Idle p.2 := by
  cases x with
  | error e => exact settles
  | ok is =>
    have run : (Asm.ofExcept (.ok is) >>= Asm.emitAll) s.plain = .ok ((), s.plain.add is) := by
      rw [run_bind (asm_ofExcept_ok.mpr ⟨rfl, rfl⟩), emitAll_ok (u := ()).mpr rfl]
    simp only [aside, run]
    exact ⟨trivial, trivial, frame, (State.add_code _ _).trans (code is rfl), done⟩

theorem endFunction_idle (excused : ∀ op, T (.overflow op)) :
    Emits T True (Inside ⟨n, as⟩ [] [] H) (annotated.endFunction v n) anything fun _ => Idle := by
  refine (noted_still intoAcc_writes).then fun _ _ => ?_
  intro s hs
  have closes : aside Asm.closeFrame id s = .ok (Frame.new n, { s with
      plain := { s.plain with frame := none } }) := by
    simp only [aside, Asm.closeFrame, hs.frame]
    rfl
  rw [run_bind closes, if_pos (show n = (Frame.new n).formals from rfl)]
  refine finish_idle (epilogue_settles excused) rfl (fun is made => ?_) ?_
  · have last : Activation.epilogue ⟨s.label, n, s.body⟩ = is := by
      unfold Activation.epilogue
      rw [made]
      rfl
    simp [hs.code, Activation.code, last]
  · refine List.forall_mem_append.mpr ⟨hs.done, List.forall_mem_singleton.mpr ?_⟩
    have paths := hs.paths
    rw [List.length_nil, level_zero] at paths
    exact paths.disciplined

theorem formal_inside (excused : ∀ op, T (.overflow op)) (more : as.length < n) :
    Emits T True (Inside ⟨n, as⟩ [] [] []) (noted 0 (Asm.formal as.length)) anything
      fun a => Inside ⟨n, as ++ [a]⟩ [] [] [] := by
  intro s hs
  have step := mul_settles excused wordSize (Word.low (n - as.length))
  have run : Asm.formal as.length s.plain =
      (Word.mul wordSize (Word.low (n - as.length))).map fun a => (a, s.plain) := by
    unfold Asm.formal
    rw [frame_bind hs.frame, Frame.formalOffset, if_pos more]
    cases Word.mul wordSize (Word.low (n - as.length)) <;> rfl
  cases made : Word.mul wordSize (Word.low (n - as.length)) with
  | error e =>
    rw [made] at step run
    simp only [noted, run, Except.map]
    exact step
  | ok a =>
    rw [made] at step run
    obtain ⟨_, rfl, fits⟩ := step
    rw [noted_run (l := []) run (by simp)]
    simp only [List.map_nil, List.append_nil]
    exact ⟨trivial, trivial, hs.frame, hs.fits, hs.stacked, hs.formals.bind more fits, hs.code,
      hs.paths, hs.done⟩

end Formals

section Control

open Record

variable {T : Fault → Prop} {v : Reg} {x y : Operand} {hint : String} {b yes no : BlockName}
variable {F : Formals annotated} {K : List (Slot annotated)} {O R : List (Pending annotated)}
variable {H : List (BlockName × List (Slot annotated))} {as : Option (List annotated.Arm)}

theorem pending_middle {p : Pending annotated} :
    pending (R ++ p :: O) = pending R ++ (p.name, level p.slots.length) :: pending O := by
  simp [pending]

theorem newBlock_inside :
    Emits T True (Inside F K O H) (noted 0 (Asm.newBlock hint)) anything
      fun b => Inside F K (⟨b, K, as⟩ :: O) H := by
  intro s hs
  rw [noted_run (l := []) (m := Asm.newBlock hint) (a := ⟨hint, s.plain.fresh.next⟩)
    (t := { s.plain with fresh := ⟨s.plain.fresh.next + 1⟩ }) rfl (by simp)]
  simp only [List.map_nil, List.append_nil]
  exact ⟨trivial, trivial, hs.frame, hs.fits, hs.stacked, hs.formals, hs.code,
    hs.paths.name _ _, hs.done⟩

theorem label_inside :
    Emits T True (Inside F K (R ++ ⟨b, K, as⟩ :: O) H) (noted 0 (Asm.switchTo b)) anything
      fun _ => Inside F K (R ++ O) ((b, K) :: H) := by
  intro s hs
  have run : Asm.switchTo b s.plain = .ok ((), s.plain.add [.label (.block b)]) :=
    emit_ok.mpr rfl
  rw [noted_run run (State.add_code _ _)]
  refine ⟨trivial, trivial, hs.extend (State.add_code _ _) hs.frame hs.fits hs.stacked ?_⟩
  have paths := hs.paths
  rw [pending_middle] at paths
  have placed := paths.place (level_low _)
  rw [hs.offset]
  simpa [pending, headers] using placed

theorem Inside.forget {h : BlockName × List (Slot annotated)} {s : Record}
    (hs : Inside F K O (h :: H) s) : Inside F K O H s :=
  { hs with paths := hs.paths.forget }

theorem merge_inside :
    Emits T True (Inside F K (R ++ ⟨b, K, as⟩ :: O) H) (noted 0 (Asm.merge b)) IsValue
      fun _ => Inside F K (R ++ O) H := by
  intro s hs
  have run : Asm.merge b s.plain = .ok (.a0, s.plain.add [.label (.block b)]) := by
    unfold Asm.merge
    have placed : Asm.switchTo b s.plain = .ok ((), s.plain.add [.label (.block b)]) :=
      emit_ok.mpr rfl
    rw [run_bind placed]
    rfl
  have placed := (label_inside (T := T) s hs)
  rw [noted_run (m := Asm.switchTo b) (emit_ok (u := ()).mpr rfl) (State.add_code _ _)] at placed
  rw [noted_run run (State.add_code _ _)]
  exact ⟨trivial, a0_value, placed.2.2.forget⟩

theorem jump_allowed {i : Instr}
    (goes : ∀ l ∈ i.targets, ∃ b, l = .block b ∧
      ((b, level K.length) ∈ pending O ∨ (b, level K.length) ∈ headers H))
    (shift : i.shift 0 = some 0) (plain : ∀ c, Noted.mark ⟨i, c, 0⟩ = none)
    (unwritten : i.written = none) (away : i.frameWord = none) :
    Allowed (pending O) (headers H) F.count (level K.length) 0 i where
  fits := {
    here := rfl
    shift := ⟨0, shift, fun _ => by simp⟩
    targets := goes
    fixed := by simp [unwritten]
    floor := level_low _
    words := by simp [away] }
  plain := plain _

theorem goto_allowed
    (h : (b, level K.length) ∈ pending O ∨ (b, level K.length) ∈ headers H) :
    Allowed (pending O) (headers H) F.count (level K.length) 0 (.goto (.block b)) :=
  jump_allowed (fun _ hl => ⟨b, List.mem_singleton.mp hl, h⟩) rfl (fun _ => rfl) rfl rfl

theorem jump_inside (target : Target K O H b) :
    Emits T True (Inside F K O H) (noted 0 (Asm.jump b)) anything fun _ => Inside F K O H :=
  noted_inside (.emit (goto_allowed (target_placed target)))

theorem branchRaw_inside {op : Relop} (hy : Target K O H yes) (hn : Target K O H no) :
    Emits T True (Inside F K O H) (noted 0 (Asm.branchRaw op x y yes no)) anything
      fun _ => Inside F K O H := by
  have still {i : Instr} (h : Still 0 i) :
      Allowed (pending O) (headers H) F.count (level K.length) 0 i := h.allowed (level_low _)
  refine noted_inside (Writes.bind (.inReg fun r n hr => still (still_write rfl hr rfl))
    fun r _ => Writes.bind (.emit ?_) fun _ _ => .emit (goto_allowed (target_placed hn)))
  exact jump_allowed (fun _ hl => ⟨yes, List.mem_singleton.mp hl, target_placed hy⟩) rfl
    (fun _ => rfl) rfl rfl

theorem closeArm_inside {arms : List annotated.Arm} :
    Emits T True (Inside F K (R ++ ⟨b, K, some arms⟩ :: O) H) (noted 0 (Asm.closeArm v b)) anything
      fun a => Inside F K (R ++ ⟨b, K, some (arms ++ [a])⟩ :: O) H := by
  have waits : (b, level K.length) ∈ pending (R ++ ⟨b, K, some arms⟩ :: O) := by
    simp [pending_middle]
  have whole : Emits T True (Inside F K (R ++ ⟨b, K, some arms⟩ :: O) H)
      (noted 0 (Asm.closeArm v b)) anything
      fun _ => Inside F K (R ++ ⟨b, K, some arms⟩ :: O) H :=
    noted_inside (Writes.bind
      (.intoAcc ((still_write rfl a0_general rfl).allowed (level_low _)))
      fun _ _ => .emit (goto_allowed (.inl waits)))
  refine whole.weaken (fun _ hs => hs) Iff.rfl fun _ s hs => { hs with paths := ?_ }
  have paths := hs.paths
  rw [pending_middle] at paths ⊢
  exact paths

end Control

section Calls

open Record

variable {T : Fault → Prop} {v : Reg} {args : List Int} {label : String} {slot : Nat}
variable {F : Formals annotated} {K : List (Slot annotated)} {O : List (Pending annotated)}
variable {H : List (BlockName × List (Slot annotated))}

theorem intoAcc_still {k : Nat} : ∀ i ∈ intoAccCode v, Still k i := by
  unfold intoAccCode
  split
  · simp
  · simpa using still_write rfl a0_general rfl

theorem call_inside {m : Asm Reg} (front : List Instr) {i : Instr}
    (still : ∀ j ∈ front, Still args.length j)
    (calls : (∃ name, i = .jal name) ∨ ∃ r, i = .jalr r)
    (settles : ∀ {t f}, t.frame = some f → f.spOffset = level (K.length + args.length) →
      args.length < 2147483648 → (∀ a ∈ args.head?, a = level K.length) →
      Settles T True (m t) fun p => p.1 = .a0 ∧
        p.2 = (t.framed { f with spOffset := level K.length }).add (front ++ [i])) :
    Emits T True (Inside F ((args.map .inr).reverse ++ K) O H) (noted args.length m) IsValue
      fun _ => Inside F K O H := by
  intro s hs
  have count : ((args.map .inr).reverse ++ K : List (Slot annotated)).length =
      K.length + args.length := by
    simp
    omega
  have here : level (K.length + args.length) + wordSize * args.length = level K.length :=
    level_add _ _
  have frame := hs.frame
  have fits := hs.fits
  rw [count] at frame fits
  have few := level_few fits
  have first : ∀ a ∈ args.head?, a = level K.length := by
    intro a ha
    obtain ⟨as, rfl⟩ : ∃ as, args = a :: as := List.head?_eq_some_iff.mp ha
    exact hs.stacked.first
  have step := settles frame rfl (by omega) first
  cases run : m s.plain with
  | error e =>
    rw [run] at step
    simp only [noted, run]
    exact step
  | ok p =>
    obtain ⟨a, t⟩ := p
    rw [run] at step
    obtain ⟨_, rfl, rfl⟩ := step
    rw [noted_run run (State.add_code _ _)]
    refine ⟨trivial, a0_value, hs.extend (State.add_code _ _) rfl (level_fits fits)
      hs.stacked.drop ?_⟩
    rw [hs.offset, count, List.map_append, ← List.append_assoc, ← here]
    have paths := hs.paths
    rw [count] at paths
    exact (paths.extend fun j hj => (still j hj).allowed (level_low _)).call (level_low _) calls

attribute [local irreducible] Word.low Word.fits

variable (excused : ∀ op, T (.overflow op))
include excused

theorem callDirect_inside :
    Emits T True (Inside F ((args.map .inr).reverse ++ K) O H)
      (noted args.length (Asm.callDirect label v args)) IsValue fun _ => Inside F K O H := by
  refine call_inside (intoAccCode v) (i := .jal label) ?_ (.inl ⟨_, rfl⟩)
    fun {t f} known here few first => ?_
  · exact intoAcc_still
  · unfold Asm.callDirect
    rw [run_bind (intoAcc_ok (u := ()).mpr rfl), run_bind (emit_ok (u := ()).mpr rfl),
      State.add_add]
    have popped := afterCall_settles excused (t := t.add (intoAccCode v ++ [.jal label])) known here
      few first
    refine popped.then fun p hp => ?_
    exact ⟨trivial, rfl, hp⟩

theorem callDynamic_inside :
    Emits T True (Inside F ((args.map .inr).reverse ++ K) O H)
      (noted args.length (Asm.callDynamic v slot args)) IsValue fun _ => Inside F K O H := by
  refine call_inside (intoAccCode v ++ [.lw .t1 dispatchTableOffset .a0,
    .lw .t1 (wordSize * Word.low slot) .t1]) (i := .jalr .t1) ?_ (.inr ⟨_, rfl⟩)
    fun {t f} known here few first => ?_
  · refine List.forall_mem_append.mpr ⟨intoAcc_still, fun j hj => ?_⟩
    simp only [List.mem_cons, List.not_mem_nil, or_false] at hj
    rcases hj with rfl | rfl <;> exact still_load t1_general (by decide)
  · unfold Asm.callDynamic
    rw [run_bind (intoAcc_ok (u := ()).mpr rfl), run_bind (emit_ok (u := ()).mpr rfl),
      State.add_add, ofExcept_bind]
    refine (mul_settles excused wordSize (Word.low slot)).then fun p hp => ?_
    obtain ⟨rfl, _⟩ := hp
    rw [run_bind (emit_ok (u := ()).mpr rfl), run_bind (emit_ok (u := ()).mpr rfl),
      State.add_add, State.add_add]
    have popped := afterCall_settles excused (t := t.add (intoAccCode v ++
      [.lw .t1 dispatchTableOffset .a0] ++ ([.lw .t1 (wordSize * Word.low slot) .t1] ++
      [.jalr .t1]))) known here few first
    refine popped.then fun q hq => ?_
    refine ⟨trivial, rfl, hq.trans ?_⟩
    simp

end Calls

section Laws

open Record

attribute [local irreducible] Word.low Word.fits

variable (T : Fault → Prop)

/-- Emission that stops at these faults at most. Inside a function the stack holds the live slots,
and the blocks are entered with theirs. -/
def stackDiscipline : Discipline annotated where
  tolerates := T
  idle := Idle
  inside F K _ O H := Inside F K O H
  value := IsValue
  word n := Word.fits n = true ∨ T (.wordRange n)

variable {T} (excused : ∀ op, T (.overflow op))
include excused

theorem stackDiscipline_frames : (stackDiscipline T).Frames where
  start := ⟨rfl, rfl, by simp⟩
  beginFunction := beginFunction_inside
  formal more := formal_inside excused more
  endFunction := endFunction_idle excused
  allocLocal := push_inside excused .inl fun _ => rfl
  freeLocal := discard_inside excused
  preserve := push_inside excused .inr fun _ => rfl
  restore := restore_inside excused
  loadLocal reaches := loadLocal_inside reaches
  storeLocal reaches := storeLocal_inside reaches

theorem stackDiscipline_pieces : (stackDiscipline T).Pieces where
  self := by simp [stackDiscipline, IsValue]
  void := by simp [stackDiscipline, IsValue]
  constant := noted_still constant_writes
  loadField hobj _ _ _ _ := noted_still (loadField_writes excused hobj.general)
  storeField hobj _ _ _ _ := noted_still (storeField_writes excused hobj.general)
  storeNative hobj _ _ _ _ := noted_still (storeField_writes excused hobj.general)
  writeBarrier _ _ _ _ _ := noted_still (writeBarrier_writes excused)
  unbox hv _ _ _ _ := noted_still (unbox_writes excused hv.general)
  boxInt := noted_still (boxInt_writes excused)
  rawWord h _ _ _ _ := noted_still (rawWord_writes h)
  arith := noted_still arith_writes
  negate := noted_still negate_writes
  loadTag hobj _ _ _ _ := noted_still (loadTag_writes hobj.general)
  falsity := .inl fits_falsity
  truth := .inl fits_truth

omit excused in
theorem stackDiscipline_blocks : (stackDiscipline T).Blocks where
  newBlock _ _ := newBlock_inside
  switchTo := label_inside
  jump := jump_inside
  branchRaw := branchRaw_inside
  branchVoid {v _ _ _ _ _ _} hy hn := branchRaw_inside (x := .reg v) (y := .reg .zero) hy hn
  branchSame {a b _ _ _ _ _ _} hy hn := branchRaw_inside (x := .reg a) (y := .reg b) hy hn
  closeArm := closeArm_inside
  merge := merge_inside
  forget := Inside.forget

theorem stackDiscipline_calls : (stackDiscipline T).Calls where
  allocate := noted_still allocate_writes
  callInit := noted_still callInit_writes
  newSelfType := by
    intro F K O H
    refine (noted_still (.emit (still_write rfl t1_general rfl))).then fun _ _ => ?_
    refine (noted_still (.emit (still_load t2_general (by decide)))).then fun _ _ => ?_
    refine (noted_still (.emit (still_write rfl t2_general rfl))).then fun _ _ => ?_
    refine (noted_still (.emit (still_write rfl t1_general rfl))).then fun _ _ => ?_
    refine (push_inside excused .inr fun _ => rfl).then fun entry _ => ?_
    refine (noted_still (.emit (still_load a0_general (by decide)))).then fun _ _ => ?_
    refine (noted_still (.emit still_call)).then fun _ _ => ?_
    refine (noted_still (.emit (still_load t1_general (by decide)))).then fun _ _ => ?_
    refine (noted_still (.emit (still_load t1_general (by decide)))).then fun _ _ => ?_
    refine (noted_still (.emit still_jalr)).then fun _ _ => ?_
    refine (discard_inside excused (e := .inr entry)).then fun _ _ => ?_
    exact Emits.ret a0_value fun _ hs => hs
  callEquality ha hb _ _ _ _ := noted_still (callEquality_writes excused ha hb)
  callDirect := callDirect_inside excused
  callDynamic := callDynamic_inside excused
  abort := noted_still abort_writes

theorem stackDiscipline_lawful : (stackDiscipline T).Lawful where
  toFrames := stackDiscipline_frames excused
  toPieces := stackDiscipline_pieces excused
  toBlocks := stackDiscipline_blocks
  toCalls := stackDiscipline_calls excused

end Laws

end ClassBackend.Mips
