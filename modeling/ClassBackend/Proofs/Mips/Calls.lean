import ClassBackend.Proofs.Mips.Control

/-! Allocation, calls and aborts on the MIPS machine. -/
namespace ClassBackend.Mips

open Meaning Machine Lowering

variable {F : List Int} {t t' : State} {K : List (Slot backend)} {O : List BlockName}
variable {I : List Instr} {L : List Int}

theorem Stacked.saved (h : Stacked F (L.map .inr ++ K)) : Stacked F K ∧
    top F (L.map .inr ++ K) + 4 * L.length = top F K ∧
    ∀ (i : Nat) a, L[i]? = some a → a = top F (L.map .inr ++ K) + 4 * (i + 1) := by
  induction L with
  | nil => exact ⟨h, by simp, by simp⟩
  | cons b L ih =>
    rcases Stacked.uncons h with ⟨rest, place⟩ | ⟨a, _, other, _⟩
    · obtain ⟨stacked, below, each⟩ := ih rest
      have here : top F ((b :: L).map .inr ++ K) = top F (L.map .inr ++ K) - 4 := top_cons
      have count : ((b :: L).length : Int) = L.length + 1 := by simp
      refine ⟨stacked, by rw [here, count]; omega, fun i a ha => ?_⟩
      cases i with
      | zero =>
        cases ha
        rw [here]
        change b = top F (L.map .inr ++ K) at place
        omega
      | succ i =>
        have := each i a ha
        rw [here]
        push_cast
        omega
    · cases other

theorem popped_shape {f : Frame} (shape : Shape F t (L.map .inr ++ K) O)
    (known : t.frame = some f) (fits : Word.fits (f.spOffset + 4 * Word.low L.length) = true)
    (adds : Adds t I t')
    (frame : t'.frame = some { f with spOffset := f.spOffset + 4 * Word.low L.length }) :
    Shape F t' K O := by
  obtain ⟨g, known', at_top⟩ := shape.frame
  cases known.symm.trans known'
  obtain ⟨stacked, below, _⟩ := shape.stacked.saved
  have low := shape.fits
  have high := stacked.top_le
  simp only [Word.fits, Bool.and_eq_true, decide_eq_true_eq] at low
  have count : Word.low L.length = L.length := low_eq (by omega)
  rw [count, at_top, below] at fits frame
  exact shape.grow adds ⟨_, frame, rfl⟩ fits stacked

theorem exec_entryCode (u : Site) (s : Cpu) {n : Nat}
    (tag : s.mem (s.get .s0 + BitVec.ofInt 32 tagOffset) = some (BitVec.ofNat 32 n)) :
    ∃ s', u.exec entryCode s = some s' ∧ s.Agrees [.t1, .t2] s' ∧
      s'.get .t1 = u.symbol Linkage.classObjects + BitVec.ofNat 32 (4 * (2 * n)) := by
  have scaled : BitVec.ofNat 32 n <<< 3 = BitVec.ofNat 32 (4 * (2 * n)) := by
    apply BitVec.eq_of_toNat_eq
    simp only [BitVec.toNat_shiftLeft, BitVec.toNat_ofNat, Nat.shiftLeft_eq]
    omega
  let x := BitVec.ofNat 32 n
  let s₁ := s.set .t1 (u.symbol Linkage.classObjects)
  let s₂ := (s₁.set .t2 x).set .t2 (x <<< 3)
  let s₃ := s₂.set .t1 (u.symbol Linkage.classObjects + x <<< 3)
  refine ⟨s₃, ?_, ((((Cpu.Agrees.refl _ _).set (by simp) _).set (by simp) _).set (by simp) _).set
    (by simp) _, ?_⟩
  · have base : s₁.get .s0 = s.get .s0 := Cpu.get_set_ne _ _ (by decide)
    have word : (s₁.set .t2 x).get .t2 = x := Cpu.get_set_self _ _ (by decide)
    have left : s₂.get .t1 = u.symbol Linkage.classObjects := by
      rw [Cpu.get_set_ne _ _ (by decide), Cpu.get_set_ne _ _ (by decide),
        Cpu.get_set_self _ _ (by decide)]
    have right : s₂.get .t2 = x <<< 3 := Cpu.get_set_self _ _ (by decide)
    change ((s₁.mem _).map _).bind _ = _
    rw [base]
    change ((s.mem _).map _).bind _ = _
    rw [tag]
    change some (((s₁.set .t2 x).set .t2 ((s₁.set .t2 x).get .t2 <<< 3)).set .t1 _) = _
    rw [word]
    change some (s₂.set .t1 (s₂.get .t1 + s₂.get .t2)) = _
    rw [left, right]
  · rw [Cpu.get_set_self _ _ (by decide), scaled]

namespace Scenario

variable {X : Scenario} {σ : Store} {c : Point}

/-- A method or an initializer is called, with its arguments as the newest words. -/
theorem Ready.callee (formals : X.Formals F) (conv : X.Conventions) (h : X.Ready c)
    (stacked : Stacked F (L.map .inr ++ K)) (room : K.length ≤ F.length + X.room)
    (sp : c.config.cpu.get .sp = X.frameWord (top F (L.map .inr ++ K)))
    {i : Instr} {a : BitVec 32} {label : String} {recv : Val} {xs : List Val}
    (takes : X.setting.takes label xs.length = true)
    (code : X.Code c.config.pc (i :: I)) (calls : Calls (X := X) i c.config.cpu a)
    (target : a = X.site.symbol label) (object : c.view.Rep recv (c.config.cpu.get .a0))
    (passed : List.Forall₂ (fun a x => X.SlotHas c (.inr a) x) L xs.reverse) :
    match X.setting.oracle.call label recv xs (c.view.store.log (.call label recv xs)) with
    | none => X.course.ends (.halted (c.view.store.log (.call label recv xs)).trace)
    | some (x, heap) => ∃ c', X.Ready c' ∧ c'.config.pc = c.config.pc + 1 ∧
        c'.view.store = { c.view.store.log (.call label recv xs) with heap } ∧
        c'.config.cpu.get .sp = X.frameWord (top F K) ∧ (X.model F).Kept K c c' ∧
        c'.view.Rep x (c'.config.cpu.get .a0) := by
  obtain ⟨below, count, each⟩ := stacked.saved
  have means : X.means c.view ⟨a, c.config.cpu⟩ (.call label recv xs) := by
    refine ⟨takes, target, object, fun i x hx => ?_⟩
    obtain ⟨b, hb, y, hy, rep⟩ : ∃ b, L[i]? = some b ∧ X.SlotHas c (.inr b) x := by
      obtain ⟨inside, there⟩ := List.getElem?_eq_some_iff.mp hx
      have inside' : i < L.length := passed.length_eq ▸ inside
      refine ⟨L[i], List.getElem?_eq_getElem inside', ?_⟩
      have := passed.get inside' inside
      simp only [List.get_eq_getElem] at this
      rw [there] at this
      exact this
    refine ⟨y, ?_, rep⟩
    rw [sp, frameWord_add, ← each i b hb]
    exact hy
  have answer := conv.call c.view _ label recv xs (calling code calls h.along) means
  cases asked : X.setting.oracle.call label recv xs (c.view.store.log (.call label recv xs)) with
  | none =>
    rw [asked] at answer
    exact run_halt code calls answer means h.along
  | some p =>
    obtain ⟨x, heap⟩ := p
    rw [asked] at answer
    obtain ⟨s', V', answer, returned, grown, store, held, rep⟩ := answer
    have after : X.setting.after (.call label recv xs) c.view.store = some V'.store := by
      rw [store]
      simp only [Setting.after, asked, Option.map_some]
    have image : ∀ a x, X.image a = some x → s'.mem a = some x := by
      intro a x hx
      rw [returned.image a (by rw [hx]; rfl)]
      exact h.image a x hx
    have length : xs.length = L.length := by
      rw [passed.length_eq, List.length_reverse]
    have sp' : s'.get .sp = X.frameWord (top F K) := by
      rw [returned.popped]
      change c.config.cpu.get .sp + _ = _
      rw [sp, frameWord_add, length, count]
    have ready := h.call code calls answer means after grown held image returned.registers
    refine ⟨_, ready, rfl, store, sp', ?_, rep⟩
    rintro s hs z ⟨y, hy, value⟩
    refine ⟨y, ?_, value.mono grown⟩
    have above := (formals.above below hs).1
    have lowest := below.top_le
    have room' : X.InFrame (top F K + 1) := by
      unfold InFrame
      unfold top at *
      omega
    change s'.mem _ = _
    rw [returned.frame _ _ (formals.inFrame below room hs) sp' room' above]
    exact hy

theorem answered (h : X.Located F .here t (L.map .inr ++ K) σ c) {c₁ : Point}
    (kept : (X.model F).Kept K c c₁) (view : c₁.view = c.view)
    (size : c₁.config.pc + 1 = t'.code.size) (room : K.length ≤ F.length + X.room)
    {label : String} {recv : Val} {xs : List Val}
    (answer : X.setting.takes label xs.length = true →
      match X.setting.oracle.call label recv xs (c₁.view.store.log (.call label recv xs)) with
      | none => X.course.ends (.halted (c₁.view.store.log (.call label recv xs)).trace)
      | some (x, heap) => ∃ c', X.Ready c' ∧ c'.config.pc = c₁.config.pc + 1 ∧
          c'.view.store = { c₁.view.store.log (.call label recv xs) with heap } ∧
          c'.config.cpu.get .sp = X.frameWord (top F K) ∧ (X.model F).Kept K c₁ c' ∧
          c'.view.Rep x (c'.config.cpu.get .a0)) :
    (X.model F).Answered X.setting K t' σ c label recv xs .a0 := by
  rw [view, h.store] at answer
  intro takes
  have answer := answer takes
  dsimp only
  split
  · rename_i x heap asked
    rw [asked] at answer
    obtain ⟨c', ready, pc, store, sp, kept', rep⟩ := answer
    exact ⟨c', ⟨ready, store, room, sp, pc.trans size⟩,
      fun s hs x slot => kept' s hs x (kept s hs x slot), by decide, rep⟩
  · rename_i asked
    rw [asked] at answer
    exact answer

theorem argument_slots (args : List Int) :
    ((args.map .inr).reverse : List (Slot backend)) = args.reverse.map .inr :=
  List.map_reverse.symm

theorem passed_kept {c₁ : Point} {args : List Int} {xs : List Val}
    (kept : ∀ K, (X.model F).Kept K c c₁)
    (h : List.Forall₂ (fun a x => X.SlotHas c (.inr a) x) args xs) :
    List.Forall₂ (fun a x => X.SlotHas c₁ (.inr a) x) args.reverse xs.reverse := by
  refine (List.forall₂_reverse_iff.mpr h).imp fun a x slot => ?_
  exact kept [.inr a] (.inr a) List.mem_cons_self x slot

theorem room_below {L : List Int} {p : Spot backend}
    (h : X.Located F p t (L.map .inr ++ K) σ c) : K.length ≤ F.length + X.room := by
  have := h.room
  rw [List.length_append] at this
  omega

theorem callDirect_law (formals : X.Formals F) (conv : X.Conventions) {label : String}
    {recv v : Reg} {args : List Int} (h : Asm.callDirect label recv args t = .ok (v, t')) :
    (X.model F).le t t' ∧ v ≠ .t1 ∧
    (∀ {K O}, Shape F t ((args.map .inr).reverse ++ K) O → Shape F t' K O) ∧
    ((X.model F).placed t t' → ∀ {K O σ c r xs}, Shape F t ((args.map .inr).reverse ++ K) O →
      X.Located F .here t ((args.map .inr).reverse ++ K) σ c →
      (X.model F).value t c recv (.obj r) →
      List.Forall₂ (fun a x => X.SlotHas c (.inr a) x) args xs →
      (X.model F).Answered X.setting K t' σ c label (.obj r) xs v) := by
  obtain ⟨rfl, f, known, fits, rfl⟩ := callDirect_ok h
  have adds : Adds t _ ((t.framed { f with spOffset := f.spOffset + 4 * Word.low args.length }).add
      (intoAccCode recv ++ [.jal label])) :=
    adds_add rfl rfl ((intoAccCode_unlabelled recv).append (by simp [Unlabelled]))
  rw [argument_slots]
  refine ⟨⟨_, adds.code.symm⟩, by decide, fun shape => ?_,
    fun placed K O σ c r xs shape h value passed => ?_⟩
  · exact popped_shape shape known (by simpa using fits) adds (by simp)
  · have code := h.code placed adds.code
    obtain ⟨s', ready, agree, rep⟩ := intoAcc_run h.toReady code value.2
    have kept : ∀ K, (X.model F).Kept K c
        ⟨c.seen, ⟨c.config.pc + (intoAccCode recv).length, s'⟩, c.view⟩ := kept_quiet agree
    have answer := fun takes => ready.callee formals conv shape.stacked (room_below h)
      ((agree.2 _ (by simp)).trans h.sp) takes code.drop (.inl ⟨_, rfl, rfl⟩) rfl rep
      (passed_kept kept passed)
    refine answered h (kept K) rfl ?_ (room_below h) answer
    change c.config.pc + (intoAccCode recv).length + 1 = _
    rw [h.pc, State.add_size, List.length_append]
    rfl

theorem callInit_law (formals : X.Formals F) (conv : X.Conventions) {cls : ClassLayout}
    {obj v : Reg} (h : Asm.callInit cls obj t = .ok (v, t')) :
    (X.model F).Same t t' ∧ v ≠ .t1 ∧
    ((X.model F).placed t t' → ∀ {K O σ c x}, Shape F t K O → X.Located F .here t K σ c →
      (X.model F).value t c obj x →
      (X.model F).Answered X.setting K t' σ c (Linkage.initializer cls.name) x [] v) := by
  obtain ⟨rfl, rfl⟩ := callInit_ok h
  have adds : Adds t _ (t.add (intoAccCode obj ++ [.jal (Linkage.initializer cls.name)])) :=
    adds_add rfl rfl ((intoAccCode_unlabelled obj).append (by simp [Unlabelled]))
  refine ⟨same adds rfl, by decide, fun placed K O σ c x shape h value => ?_⟩
  have code := h.code placed adds.code
  obtain ⟨s', ready, agree, rep⟩ := intoAcc_run h.toReady code value.2
  have kept : (X.model F).Kept K c
      ⟨c.seen, ⟨c.config.pc + (intoAccCode obj).length, s'⟩, c.view⟩ := kept_quiet agree K
  have answer := fun takes => ready.callee (L := []) formals conv shape.stacked h.room
    ((agree.2 _ (by simp)).trans h.sp) takes code.drop (.inl ⟨_, rfl, rfl⟩) rfl rep
    (show List.Forall₂ _ [] ([] : List Val).reverse from .nil)
  refine answered (L := []) h kept rfl ?_ h.room answer
  change c.config.pc + (intoAccCode obj).length + 1 = _
  rw [h.pc, State.add_size, List.length_append]
  rfl

theorem entry_run (tables : X.Tables) (h : X.Ready c) {r i : Nat} {o : Obj} {k : ClassLayout}
    {m : Method} (object : c.view.Rep (.obj r) (c.config.cpu.get .a0))
    (found : c.view.store.heap[r]? = some o) (known : k ∈ X.setting.classes.classes)
    (tag : o.tag = k.tag) (method : k.methods[i]? = some m)
    (code : X.Code c.config.pc ([.lw .t1 dispatchTableOffset .a0,
      .lw .t1 (4 * Word.low i) .t1] ++ I)) :
    ∃ s', X.Ready ⟨c.seen, ⟨c.config.pc + 2, s'⟩, c.view⟩ ∧ c.config.cpu.Agrees [.t1] s' ∧
      s'.get .t1 = X.site.symbol m.label := by
  have table := h.held.table r o found k known tag.symm
  have first : c.config.cpu.mem (c.config.cpu.get .a0 + BitVec.ofInt 32 dispatchTableOffset) =
      some (X.site.symbol (Linkage.dispatchTable k.name)) := by
    rw [object.2]
    exact table
  have second : c.config.cpu.mem (X.site.symbol (Linkage.dispatchTable k.name) +
      BitVec.ofInt 32 (4 * Word.low i)) = some (X.site.symbol m.label) := by
    rw [ofInt_entry]
    exact h.image _ _ (tables.method k known i m method)
  have agree := ((Cpu.Agrees.refl [.t1] c.config.cpu).set (d := .t1) (by simp)
    (X.site.symbol (Linkage.dispatchTable k.name))).set (d := .t1) (by simp)
    (X.site.symbol m.label)
  refine ⟨_, h.quiet code.take ?_ agree (by simp) (by simp), agree,
    Cpu.get_set_self _ _ (by decide)⟩
  simp only [Site.exec, Site.effect, first, Option.map_some, Option.bind_some,
    Cpu.get_set_self c.config.cpu _ (show Reg.t1 ≠ .zero by decide), Cpu.set_mem, second]

theorem callDynamic_law (formals : X.Formals F) (tables : X.Tables) (conv : X.Conventions)
    {recv v : Reg} {i : Nat} {args : List Int}
    (h : Asm.callDynamic recv i args t = .ok (v, t')) :
    (X.model F).le t t' ∧ v ≠ .t1 ∧
    (∀ {K O}, Shape F t ((args.map .inr).reverse ++ K) O → Shape F t' K O) ∧
    ((X.model F).placed t t' → ∀ {k m}, k ∈ X.setting.classes.classes → k.methods[i]? = some m →
      ∀ {K O σ c r o xs}, Shape F t ((args.map .inr).reverse ++ K) O →
      X.Located F .here t ((args.map .inr).reverse ++ K) σ c →
      (X.model F).value t c recv (.obj r) → σ.heap[r]? = some o → o.tag = k.tag →
      List.Forall₂ (fun a x => X.SlotHas c (.inr a) x) args xs →
      (X.model F).Answered X.setting K t' σ c m.label (.obj r) xs v) := by
  obtain ⟨rfl, f, known, fits, rfl⟩ := callDynamic_ok h
  have adds : Adds t _ ((t.framed { f with spOffset := f.spOffset + 4 * Word.low args.length }).add
      (intoAccCode recv ++ [.lw .t1 dispatchTableOffset .a0, .lw .t1 (4 * Word.low i) .t1,
        .jalr .t1])) :=
    adds_add rfl rfl ((intoAccCode_unlabelled recv).append (by simp [Unlabelled]))
  rw [argument_slots]
  refine ⟨⟨_, adds.code.symm⟩, by decide, fun shape => ?_,
    fun placed k m class_ method K O σ c r o xs shape h value found tag passed => ?_⟩
  · exact popped_shape shape known (by simpa using fits) adds (by simp)
  · have code := h.code placed adds.code
    rw [← h.store] at found
    obtain ⟨s₁, ready₁, agree₁, rep₁⟩ := intoAcc_run h.toReady code value.2
    obtain ⟨s₂, ready₂, agree₂, word⟩ :=
      entry_run (I := [.jalr .t1]) tables ready₁ rep₁ found class_ tag method code.drop
    have kept : ∀ K, (X.model F).Kept K c
        ⟨c.seen, ⟨c.config.pc + (intoAccCode recv).length + 2, s₂⟩, c.view⟩ :=
      kept_quiet (agree₁.trans agree₂)
    have rep₂ : c.view.Rep (.obj r) (s₂.get .a0) := by
      rw [agree₂.2 _ (by simp)]
      exact rep₁
    have answer := fun takes => ready₂.callee formals conv shape.stacked (room_below h)
      ((agree₂.2 _ (by simp)).trans ((agree₁.2 _ (by simp)).trans h.sp)) takes
      code.drop.tail.tail (.inr ⟨.t1, rfl, rfl⟩) word rep₂ (passed_kept kept passed)
    refine answered h (kept K) rfl ?_ (room_below h) answer
    change c.config.pc + (intoAccCode recv).length + 2 + 1 = _
    rw [h.pc, State.add_size, List.length_append]
    rfl

theorem abort_law (conv : X.Conventions) {kind : AbortKind} {file : Const} {line : UInt64}
    {u : Unit} (h : Asm.abort kind file line t = .ok (u, t')) :
    (X.model F).Same t t' ∧ ((X.model F).placed t t' → ∀ {K σ c name},
      X.Located F .here t K σ c → Denotes X.pool file (.str name) →
      X.course.ends (.halted (σ.log (.abort kind name line)).trace)) := by
  cases abort_ok h
  have adds : Adds t _ (t.add [.la .a0 file.label, .li .t1 (Word.low line.toNat),
      .jal (Routine.ofAbort kind).symbol]) := adds_add rfl rfl (by simp [Unlabelled])
  refine ⟨same adds rfl, fun placed K σ c name h denotes => ?_⟩
  have code := h.code placed adds.code
  let s := (c.config.cpu.set .a0 (X.site.symbol file.label)).set .t1
    (BitVec.ofInt 32 (Word.low line.toNat))
  have agree : c.config.cpu.Agrees [.a0, .t1] s :=
    ((Cpu.Agrees.refl _ _).set (by simp) _).set (by simp) _
  have ready := h.toReady.quiet (I := [.la .a0 file.label, .li .t1 (Word.low line.toNat)])
    code.take rfl agree (by simp) (by simp)
  have calls : Calls (X := X) (.jal (Routine.ofAbort kind).symbol) s
      (X.site.symbol (Routine.ofAbort kind).symbol) := .inl ⟨_, rfl, rfl⟩
  have means : X.means c.view ⟨X.site.symbol (Routine.ofAbort kind).symbol, s⟩
      (.abort kind name line) := by
    refine ⟨rfl, ⟨file, denotes, ?_⟩, ?_⟩
    · exact (Cpu.get_set_ne _ _ (by decide)).trans (Cpu.get_set_self _ _ (by decide))
    · exact (Cpu.get_set_self _ _ (by decide)).trans (ofInt_low _)
  have answer := conv.abort c.view _ kind name line (calling code.tail.tail calls ready.along) means
  rw [← h.store]
  exact run_halt code.tail.tail calls answer means ready.along

theorem allocate_law (tables : X.Tables) (conv : X.Conventions) (built : X.setting.Built)
    {cls : ClassLayout} {v : Reg} (h : Asm.allocate cls t = .ok (v, t')) :
    (X.model F).Same t t' ∧ ((X.model F).placed t t' → cls ∈ X.setting.classes.classes →
      ∀ {K σ c}, X.Located F .here t K σ c →
      (X.model F).Moves K t' ((σ.log (.allocate cls.tag)).add
          ⟨cls.tag, List.replicate cls.fields.length .unset⟩) c fun c' =>
        (X.model F).value t' c' v (.obj σ.heap.length)) := by
  obtain ⟨rfl, rfl⟩ := allocate_ok h
  have adds : Adds t _ (t.add [.la .a0 (Linkage.prototype cls.name),
      .jal Routine.objectCopy.symbol]) := adds_add rfl rfl (by simp [Unlabelled])
  refine ⟨same adds rfl, fun placed known K σ c h => ?_⟩
  have code := h.code placed adds.code
  let s := c.config.cpu.set .a0 (X.site.symbol (Linkage.prototype cls.name))
  have agree : c.config.cpu.Agrees [.a0] s := (Cpu.Agrees.refl _ _).set (by simp) _
  have ready := h.toReady.quiet (I := [.la .a0 (Linkage.prototype cls.name)]) code.take rfl agree
    (by simp) (by simp)
  obtain ⟨s', ready', preserved, old⟩ := ready.copy tables conv built known code.tail
    (Cpu.get_set_self _ _ (by decide))
  refine ⟨_, ⟨ready', ?_, h.room, ?_, ?_⟩, ?_, by decide, ?_⟩
  · rw [← h.store]
    rfl
  · exact (preserved .sp (by simp)).trans ((agree.2 .sp (by simp)).trans h.sp)
  · change c.config.pc + 1 + 1 = _
    rw [h.pc, State.add_size]
    rfl
  · exact kept_grown ((View.extends_log ..).trans (View.extends_add ..)) old K
  · rw [← h.store]
    exact View.rep_new (c.view.log (.allocate cls.tag)) _ (s'.get .a0)

theorem entryCode_run (h : X.Ready c) (code : X.Code c.config.pc (entryCode ++ I)) {o : Obj}
    (found : c.view.store.heap[X.setting.self]? = some o) :
    ∃ s', X.Ready ⟨c.seen, ⟨c.config.pc + 4, s'⟩, c.view⟩ ∧
      c.config.cpu.Agrees [.t1, .t2] s' ∧
      s'.get .t1 = X.geometry.word (X.site.symbol Linkage.classObjects) (2 * o.tag) := by
  obtain ⟨x, hx, number⟩ := h.held.tag X.setting.self o found
  have same : x = BitVec.ofNat 32 o.tag := by
    rw [← BitVec.ofInt_natCast, ← number, BitVec.ofInt_toInt]
  have tag : c.config.cpu.mem (c.config.cpu.get .s0 + BitVec.ofInt 32 tagOffset) =
      some (BitVec.ofNat 32 o.tag) := by
    rw [h.self, ← same]
    simpa [tagOffset] using hx
  obtain ⟨s', run, agree, entry⟩ := exec_entryCode X.site c.config.cpu tag
  exact ⟨s', h.quiet code.take run agree (by simp) (by simp), agree, entry⟩

theorem placed_middle {J N : List Instr} (placed : (X.model F).placed t t')
    (code : t'.code.toList = t.code.toList ++ (I ++ (J ++ N))) :
    (X.model F).placed (t.add I) ((t.add I).add J) := by
  obtain ⟨whole, allowed⟩ := placed
  have size : t'.code.size = t.code.size + (I ++ (J ++ N)).length := by
    rw [← Array.length_toList, code, List.length_append, Array.length_toList]
  refine ⟨List.IsPrefix.trans ⟨N, ?_⟩ whole, fun n low high => ?_⟩
  · rw [code, State.add_code, State.add_code]
    simp only [List.append_assoc]
  · simp only [State.add_size, List.length_append] at low high size
    exact allowed n (by omega) (by omega)

/-- The prototype in an entry of `class_objTab` is copied. -/
theorem Ready.copyEntry (tables : X.Tables) (conv : X.Conventions) (built : X.setting.Built)
    (h : X.Ready c) {k : ClassLayout} (known : k ∈ X.setting.classes.classes)
    (entry : c.config.cpu.get .t1 =
      X.geometry.word (X.site.symbol Linkage.classObjects) (2 * k.tag))
    (code : X.Code c.config.pc ([.lw .a0 0 .t1, .jal Routine.objectCopy.symbol] ++ I)) :
    ∃ seen s', X.Ready ⟨seen, ⟨c.config.pc + 2, s'⟩, (c.view.log (.allocate k.tag)).add
          ⟨k.tag, List.replicate k.fields.length .unset⟩ (s'.get .a0)⟩ ∧
      Preserves [.s0, .fp, .sp] c.config.cpu s' ∧
      ∀ a, (c.config.cpu.mem a).isSome → s'.mem a = c.config.cpu.mem a := by
  have proto : c.config.cpu.mem (c.config.cpu.get .t1 + BitVec.ofInt 32 0) =
      some (X.site.symbol (Linkage.prototype k.name)) := by
    rw [entry]
    simpa using h.image _ _ (tables.classObject k known)
  let s₁ := c.config.cpu.set .a0 (X.site.symbol (Linkage.prototype k.name))
  have agree : c.config.cpu.Agrees [.a0] s₁ := (Cpu.Agrees.refl _ _).set (by simp) _
  have ready := h.quiet (I := [.lw .a0 0 .t1]) code.take.take
    (by simp only [Site.exec, Site.effect, proto]; rfl) agree (by simp) (by simp)
  obtain ⟨s', ready', preserved, old⟩ := ready.copy tables conv built known code.tail
    (Cpu.get_set_self _ _ (by decide))
  refine ⟨_, s', ready', fun r hr => ?_, fun a used => old a used⟩
  simp only [List.mem_cons, List.not_mem_nil, or_false] at hr
  rcases hr with rfl | rfl | rfl <;> exact (preserved _ (by simp)).trans (agree.2 _ (by simp))

theorem initializer_run (tables : X.Tables) (h : X.Ready c) {k : ClassLayout}
    (known : k ∈ X.setting.classes.classes)
    (entry : c.config.cpu.mem (c.config.cpu.get .sp + BitVec.ofInt 32 wordSize) = some
      (X.geometry.word (X.site.symbol Linkage.classObjects) (2 * k.tag)))
    (code : X.Code c.config.pc ([.lw .t1 wordSize .sp, .lw .t1 wordSize .t1] ++ I)) :
    ∃ s', X.Ready ⟨c.seen, ⟨c.config.pc + 2, s'⟩, c.view⟩ ∧ c.config.cpu.Agrees [.t1] s' ∧
      s'.get .t1 = X.site.symbol (Linkage.initializer k.name) := by
  have next : X.geometry.word (X.site.symbol Linkage.classObjects) (2 * k.tag) +
      BitVec.ofInt 32 wordSize =
      X.geometry.word (X.site.symbol Linkage.classObjects) (2 * k.tag + 1) := by
    unfold Geometry.word
    rw [Nat.mul_add, BitVec.ofNat_add, ← BitVec.add_assoc]
    rfl
  have init : c.config.cpu.mem (X.geometry.word (X.site.symbol Linkage.classObjects)
      (2 * k.tag) + BitVec.ofInt 32 wordSize) =
      some (X.site.symbol (Linkage.initializer k.name)) := by
    rw [next]
    exact h.image _ _ (tables.initializer k known)
  have agree := ((Cpu.Agrees.refl [.t1] c.config.cpu).set (d := .t1) (by simp)
    (X.geometry.word (X.site.symbol Linkage.classObjects) (2 * k.tag))).set (d := .t1) (by simp)
    (X.site.symbol (Linkage.initializer k.name))
  refine ⟨_, h.quiet code.take ?_ agree (by simp) (by simp), agree,
    Cpu.get_set_self _ _ (by decide)⟩
  simp only [Site.exec, Site.effect, entry, Option.map_some, Option.bind_some, Cpu.set_mem,
    Cpu.get_set_self c.config.cpu _ (show Reg.t1 ≠ .zero by decide), init]

theorem discard_run {a : Int} (h : X.Ready c)
    (sp : c.config.cpu.get .sp = X.frameWord (top F (.inr a :: K)))
    (code : X.Code c.config.pc (Frame.discardCode ++ I)) :
    ∃ s', X.Ready ⟨c.seen, ⟨c.config.pc + 1, s'⟩, c.view⟩ ∧ c.config.cpu.Agrees [.sp] s' ∧
      s'.get .sp = X.frameWord (top F K) := by
  have back : c.config.cpu.get .sp + BitVec.ofInt 32 wordSize = X.frameWord (top F K) := by
    rw [sp, frameWord_add, top_cons]
    exact congrArg X.frameWord (Int.sub_add_cancel ..)
  have agree := (Cpu.Agrees.refl [.sp] c.config.cpu).set (d := .sp) (by simp)
    (X.frameWord (top F K))
  refine ⟨_, h.quiet code.take ?_ agree (by simp) (by simp), agree,
    Cpu.get_set_self _ _ (by decide)⟩
  simp only [Site.exec, Site.effect, Frame.discardCode, back]
  rfl

/-- The entry of `class_objTab` is found and put on the stack. -/
theorem saveEntry_run (framed : X.Framed) (formals : X.Formals F) (shape : Stacked F K)
    (room : K.length < F.length + X.room) {J N : List Instr} (placed : (X.model F).placed t t')
    (added : t'.code.toList = t.code.toList ++ (entryCode ++ (Frame.pushCode .t1 ++ N)))
    (code : X.Code c.config.pc (entryCode ++ J)) (h : X.Located F .here t K σ c) {o : Obj}
    (found : σ.heap[X.setting.self]? = some o) :
    ∃ c', X.Located F .here ((t.add entryCode).add (Frame.pushCode .t1)) (.inr (top F K) :: K) σ
        c' ∧ (X.model F).Kept K c c' ∧
      c'.config.cpu.get .t1 =
        X.geometry.word (X.site.symbol Linkage.classObjects) (2 * o.tag) ∧
      c'.config.cpu.mem (X.frameWord (top F K)) = some (c'.config.cpu.get .t1) := by
  rw [← h.store] at found
  obtain ⟨s₁, ready, agree, entry⟩ := entryCode_run h.toReady code found
  have located : X.Located F .here (t.add entryCode) K σ
      ⟨c.seen, ⟨c.config.pc + 4, s₁⟩, c.view⟩ := by
    refine ⟨ready, h.store, h.room, (agree.2 _ (by simp)).trans h.sp, ?_⟩
    change c.config.pc + 4 = _
    rw [h.pc, State.add_size]
    rfl
  obtain ⟨c', located', kept, view, word, regs⟩ := push_moves (s := .inr (top F K)) framed
    formals (placed_middle placed added) (State.add_code _ _) shape room rfl located
  have unchanged : c'.config.cpu.get .t1 = s₁.get .t1 := regs _ (by decide)
  refine ⟨c', located', fun s hs y slot => ?_, unchanged.trans entry, ?_⟩
  · exact kept s hs y (kept_quiet (F := F) agree K s hs y slot)
  · rw [unchanged]
    exact word

/-- A call without arguments, and then the newest word is given up. -/
theorem Ready.calledOver (formals : X.Formals F) (conv : X.Conventions) (h : X.Ready c)
    {a : Int} (stacked : Stacked F (.inr a :: K)) (room : (.inr a :: K).length ≤ F.length + X.room)
    (sp : c.config.cpu.get .sp = X.frameWord (top F (.inr a :: K))) {r : Reg} {label : String}
    {recv : Val} (takes : X.setting.takes label 0 = true)
    (code : X.Code c.config.pc (.jalr r :: (Frame.discardCode ++ I)))
    (target : c.config.cpu.get r = X.site.symbol label)
    (object : c.view.Rep recv (c.config.cpu.get .a0)) :
    match X.setting.oracle.call label recv [] (c.view.store.log (.call label recv [])) with
    | none => X.course.ends (.halted (c.view.store.log (.call label recv [])).trace)
    | some (x, heap) => ∃ c', X.Ready c' ∧ c'.config.pc = c.config.pc + 2 ∧
        c'.view.store = { c.view.store.log (.call label recv []) with heap } ∧
        c'.config.cpu.get .sp = X.frameWord (top F K) ∧ (X.model F).Kept K c c' ∧
        c'.view.Rep x (c'.config.cpu.get .a0) := by
  have answer := h.callee (L := []) formals conv (K := .inr a :: K) stacked room sp takes code
    (.inr ⟨r, rfl, rfl⟩) target object (show List.Forall₂ _ [] ([] : List Val).reverse from .nil)
  split
  · rename_i asked
    rw [asked] at answer
    exact answer
  · rename_i x heap asked
    rw [asked] at answer
    obtain ⟨c₁, ready₁, pc₁, store, sp₁, kept₁, rep⟩ := answer
    have code₁ : X.Code c₁.config.pc (Frame.discardCode ++ I) := pc₁ ▸ code.tail
    obtain ⟨s, ready, agree, sp'⟩ := discard_run ready₁ sp₁ code₁
    refine ⟨_, ready, ?_, store, sp', fun s hs y slot => ?_, ?_⟩
    · change c₁.config.pc + 1 = _
      rw [pc₁]
    · exact kept_quiet (F := F) agree K s hs y (kept₁ s (List.mem_cons_of_mem _ hs) y slot)
    · change c₁.view.Rep x (s.get .a0)
      rw [agree.2 _ (by simp)]
      exact rep

theorem newSelfType_law (framed : X.Framed) (formals : X.Formals F) (tables : X.Tables)
    (conv : X.Conventions) (built : X.setting.Built) {v : Reg}
    (h : Asm.newSelfType t = .ok (v, t')) :
    (X.model F).Same t t' ∧ v ≠ .t1 ∧
    ((X.model F).placed t t' → ∀ {k}, k ∈ X.setting.classes.classes →
      ∀ {K O σ c o}, Shape F t K O → K.length < F.length + X.room →
      X.Located F .here t K σ c → σ.heap[X.setting.self]? = some o → o.tag = k.tag →
      (X.model F).Answered X.setting K t' ((σ.log (.allocate k.tag)).add
          ⟨k.tag, List.replicate k.fields.length .unset⟩) c
        (Linkage.initializer k.name) (.obj σ.heap.length) [] v) := by
  obtain ⟨rfl, f, known, fits, rfl⟩ := newSelfType_ok h
  let body : List Instr := [.lw .a0 0 .t1, .jal Routine.objectCopy.symbol] ++
    ([.lw .t1 wordSize .sp, .lw .t1 wordSize .t1] ++ (.jalr .t1 :: (Frame.discardCode ++ [])))
  have adds : Adds t (entryCode ++ (Frame.pushCode .t1 ++ body)) ((t.framed f).add
      (entryCode ++ (Frame.pushCode .t1 ++ body))) :=
    adds_add rfl rfl (by
      simp [Unlabelled, body, entryCode, Frame.pushCode, Frame.discardCode])
  refine ⟨same adds known.symm, by decide,
    fun placed k class_ K O σ c o shape room h found tag => ?_⟩
  have code := h.code placed adds.code
  obtain ⟨c₂, located₂, kept₂, entry₂, word₂⟩ :=
    saveEntry_run framed formals shape.stacked room placed adds.code code h found
  rw [tag] at entry₂
  have pc₂ : c₂.config.pc = c.config.pc + entryCode.length + (Frame.pushCode .t1).length := by
    rw [located₂.pc, State.add_size, State.add_size, h.pc]
  have code₂ : X.Code c₂.config.pc body := pc₂ ▸ code.drop.drop
  obtain ⟨seen, s₄, ready₄, preserved, old⟩ :=
    located₂.toReady.copyEntry tables conv built class_ entry₂ code₂
  have sp₄ : s₄.get .sp = X.frameWord (top F (.inr (top F K) :: K)) :=
    (preserved .sp (by simp)).trans located₂.sp
  have again : s₄.mem (s₄.get .sp + BitVec.ofInt 32 wordSize) = some
      (X.geometry.word (X.site.symbol Linkage.classObjects) (2 * k.tag)) := by
    have same : top F (.inr (top F K) :: K) + wordSize = top F K := by
      rw [top_cons]
      exact Int.sub_add_cancel ..
    rw [sp₄, frameWord_add, same, old _ (by rw [word₂]; rfl), word₂, entry₂]
  obtain ⟨s₅, ready₅, agree₅, init⟩ := initializer_run tables ready₄ class_ again code₂.drop
  let V := (c₂.view.log (.allocate k.tag)).add
    ⟨k.tag, List.replicate k.fields.length .unset⟩ (s₄.get .a0)
  have newest : V.Rep (.obj σ.heap.length) (s₅.get .a0) := by
    rw [agree₅.2 _ (by simp), ← located₂.store]
    exact View.rep_new (c₂.view.log (.allocate k.tag)) _ (s₄.get .a0)
  have store : V.store = (σ.log (.allocate k.tag)).add
      ⟨k.tag, List.replicate k.fields.length .unset⟩ := by
    rw [← located₂.store]
    rfl
  intro takes
  have answer := ready₅.calledOver formals conv (.push shape.stacked rfl) located₂.room
    ((agree₅.2 _ (by simp)).trans sp₄) takes code₂.drop.drop init newest
  dsimp only
  rw [← store]
  split
  · rename_i x heap asked
    rw [asked] at answer
    obtain ⟨c₇, ready₇, pc₇, store₇, sp₇, kept₇, rep₇⟩ := answer
    refine ⟨c₇, ⟨ready₇, store₇, h.room, sp₇, ?_⟩, fun s hs y slot => ?_, by decide, rep₇⟩
    · change c₇.config.pc = _
      rw [pc₇]
      change c₂.config.pc + 4 + 2 = _
      rw [pc₂, h.pc, State.add_size]
      rfl
    · have grown := (c₂.view.extends_log (.allocate k.tag)).trans (View.extends_add _
        ⟨k.tag, List.replicate k.fields.length .unset⟩ (s₄.get .a0))
      refine kept₇ s hs y (kept_grown (F := F) grown (fun a used => ?_) K s hs y
        (kept₂ s hs y slot))
      change s₅.mem a = _
      rw [agree₅.1]
      exact old a used
  · rename_i asked
    rw [asked] at answer
    exact answer

theorem move_run {d : Reg} (r : Reg) (nonzero : d ≠ .zero) (s : Cpu) :
    ∃ s', X.site.exec (if r = d then [] else [.move d r]) s = some s' ∧ s.Agrees [d] s' ∧
      s'.get d = s.get r := by
  by_cases there : r = d
  · subst there
    rw [if_pos rfl]
    exact ⟨s, rfl, .refl _ _, rfl⟩
  · rw [if_neg there]
    exact ⟨_, rfl, (Cpu.Agrees.refl _ _).set (by simp) _, Cpu.get_set_self _ _ nonzero⟩

theorem move_unlabelled (r d : Reg) : Unlabelled (if r = d then [] else [.move d r]) := by
  intro b
  split <;> simp

theorem operands_run (h : X.Ready c) {a b : Reg} (unclobbered : a ≠ .t2)
    (code : X.Code c.config.pc ((if b = .t2 then [] else [.move .t2 b]) ++
      ((if a = .t1 then [] else [.move .t1 a]) ++
        ([.la .a0 (Const.bool true).label, .la .a1 (Const.bool false).label] ++ I)))) :
    ∃ n s', X.Ready ⟨c.seen, ⟨n, s'⟩, c.view⟩ ∧ X.Code n I ∧
      n = c.config.pc + ((if b = .t2 then [] else [Instr.move .t2 b]) ++
        (if a = .t1 then [] else [Instr.move .t1 a])).length + 2 ∧
      c.config.cpu.Agrees [.t2, .t1, .a0, .a1] s' ∧ s'.get .t1 = c.config.cpu.get a ∧
      s'.get .t2 = c.config.cpu.get b ∧
      ∀ e, (if e then s'.get .a0 else s'.get .a1) = X.site.symbol (Const.bool e).label := by
  obtain ⟨s₁, run₁, agree₁, word₁⟩ := move_run (X := X) (d := .t2) b (by decide) c.config.cpu
  obtain ⟨s₂, run₂, agree₂, word₂⟩ := move_run (X := X) (d := .t1) a (by decide) s₁
  let s₃ := (s₂.set .a0 (X.site.symbol (Const.bool true).label)).set .a1
    (X.site.symbol (Const.bool false).label)
  have agree₃ : s₂.Agrees [.a0, .a1] s₃ := ((Cpu.Agrees.refl _ _).set (by simp) _).set (by simp) _
  have ready₁ := h.quiet code.take run₁ agree₁ (by simp) (by simp)
  have ready₂ := ready₁.quiet code.drop.take run₂ agree₂ (by simp) (by simp)
  have ready₃ := ready₂.quiet code.drop.drop.take
    (show X.site.exec _ s₂ = some s₃ from rfl) agree₃ (by simp) (by simp)
  refine ⟨_, s₃, ready₃, code.drop.drop.drop, ?_, (agree₁.trans agree₂).trans agree₃, ?_, ?_, ?_⟩
  · rw [List.length_append, ← Nat.add_assoc]
    rfl
  · rw [agree₃.2 _ (by simp), word₂, agree₁.2 a (by simpa using unclobbered)]
  · rw [agree₃.2 _ (by simp), agree₂.2 _ (by simp), word₁]
  · intro e
    cases e with
    | true =>
      exact (Cpu.get_set_ne _ _ (show Reg.a0 ≠ .a1 by decide)).trans
        (Cpu.get_set_self _ _ (show Reg.a0 ≠ .zero by decide))
    | false => exact Cpu.get_set_self _ _ (show Reg.a1 ≠ .zero by decide)

theorem bool_word (h : X.Ready c) (e : Bool) {off : Int} (field : fieldOffset 0 = .ok off) :
    ∃ z, c.config.cpu.mem (X.site.symbol (Const.bool e).label + BitVec.ofInt 32 off) = some z ∧
      z.toInt = if e then 1 else 0 := by
  obtain ⟨o, found, hd⟩ := h.held.truth e
  have place : c.view.place (X.setting.literal (.bool e)) = X.site.symbol (Const.bool e).label :=
    (h.held.literal (.bool e) (.bool e) rfl).2
  obtain ⟨z, hz, number⟩ := h.held.cell _ o 0 _ found hd
  refine ⟨z, ?_, number⟩
  rw [field_address (X := X) field, ← place]
  exact hz

theorem callEquality_law (conv : X.Conventions) {a b : Reg} {r : Operand}
    (h : Asm.callEquality a b t = .ok (r, t')) :
    (X.model F).Same t t' ∧ (X.model F).loaded r ∧ ((X.model F).placed t t' → ∀ {K σ c x y},
      X.Located F .here t K σ c → (X.model F).value t c a x → (X.model F).value t c b y →
      let σ' := σ.log (.equality x y)
      (X.model F).Moves K t' σ' c fun c' =>
        (X.model F).raw t' c' r (if X.setting.oracle.equal x y σ' then 1 else 0)) := by
  obtain ⟨unclobbered, rfl, off, field, rfl⟩ := callEquality_ok h
  let n := t.nextScratch
  let read : List Instr := [.jal Routine.equalityTest.symbol, .lw (Reg.scratchAt n) off .a0]
  let ask : List Instr :=
    [.la .a0 (Const.bool true).label, .la .a1 (Const.bool false).label] ++ read
  have adds : Adds t ((if b = .t2 then [] else [.move .t2 b]) ++
      ((if a = .t1 then [] else [.move .t1 a]) ++ ask)) (t.drawn.add
      ((if b = .t2 then [] else [.move .t2 b]) ++
        ((if a = .t1 then [] else [.move .t1 a]) ++ ask))) :=
    adds_add rfl rfl ((move_unlabelled b .t2).append ((move_unlabelled a .t1).append
      (by simp [Unlabelled, ask, read])))
  refine ⟨same adds rfl, ⟨_, rfl⟩, fun placed K σ c x y h left right => ?_⟩
  have code := h.code placed adds.code
  obtain ⟨m, s₁, ready₁, code₁, pc, agree₁, word₁, word₂, answers⟩ :=
    operands_run h.toReady unclobbered code
  have calls : Calls (X := X) (.jal Routine.equalityTest.symbol) s₁
      (X.site.symbol Routine.equalityTest.symbol) := .inl ⟨_, rfl, rfl⟩
  have means : X.means c.view ⟨X.site.symbol Routine.equalityTest.symbol, s₁⟩ (.equality x y) :=
    ⟨rfl, show c.view.Rep x (s₁.get .t1) by rw [word₁]; exact left.2,
      show c.view.Rep y (s₁.get .t2) by rw [word₂]; exact right.2⟩
  obtain ⟨s₂, answer, preserved, mem, chosen⟩ :=
    conv.equality c.view _ x y (calling code₁ calls ready₁.along) means
  have same : s₂.mem = c.config.cpu.mem := mem.trans agree₁.1
  have ready₂ := ready₁.call (W := c.view.log (.equality x y)) code₁ calls answer means
    rfl (View.extends_log ..) (by rw [same]; exact h.held.log _)
    (fun a x hx => by rw [same]; exact h.image a x hx) (preserved.sub (by simp))
  let e := X.setting.oracle.equal x y (c.view.store.log (.equality x y))
  have bool : s₂.get .a0 = X.site.symbol (Const.bool e).label := chosen.trans (answers e)
  obtain ⟨z, hz, number⟩ := bool_word ready₂ e field
  have word : s₂.mem (s₂.get .a0 + BitVec.ofInt 32 off) = some z := by
    rw [bool]
    exact hz
  have free := scratchAt_free n
  simp only [List.mem_cons, List.not_mem_nil, or_false, not_or] at free
  obtain ⟨fp, self, sp, zero, _, _⟩ := free
  have agree₃ : s₂.Agrees [Reg.scratchAt n] (s₂.set (Reg.scratchAt n) z) :=
    (Cpu.Agrees.refl _ _).set (by simp) _
  have ready₃ := ready₂.quiet code₁.tail (by simp only [Site.exec, Site.effect, word]; rfl)
    agree₃ (by simp [Ne.symm fp]) (by simp [Ne.symm self])
  refine ⟨_, ⟨ready₃, ?_, h.room, ?_, ?_⟩, ?_, ?_⟩
  · rw [← h.store]
    rfl
  · refine (agree₃.2 _ (by simp [Ne.symm sp])).trans ((preserved .sp (by simp)).trans ?_)
    exact (agree₁.2 _ (by simp)).trans h.sp
  · change m + 1 + 1 = _
    rw [pc, h.pc, State.add_size]
    simp only [List.length_append, List.length_cons, List.length_nil, State.drawn_code]
    omega
  · refine kept_grown ?_ (fun a _ => ?_) K
    · exact c.view.extends_log (.equality x y)
    · change (s₂.set _ z).mem a = _
      rw [Cpu.set_mem, same]
  · change ((s₂.set (Reg.scratchAt n) z).get (Reg.scratchAt n)).toInt = _
    rw [Cpu.get_set_self _ _ zero, ← h.store]
    exact number

theorem calls (framed : X.Framed) (formals : X.Formals F) (tables : X.Tables)
    (conv : X.Conventions) (built : X.setting.Built) : (X.model F).Calls X.setting where
  allocate := by
    intro cls t v t' h
    obtain ⟨same, run⟩ := allocate_law tables conv built h
    exact ⟨same, fun placed known K O σ c _ located => run placed known located⟩
  callInit h := callInit_law formals conv h
  newSelfType h := newSelfType_law framed formals tables conv built h
  callEquality := by
    intro a b t r t' h
    obtain ⟨same, loaded, run⟩ := callEquality_law conv h
    exact ⟨same, loaded, fun placed K O σ c x y _ located left right _ =>
      run placed located left right⟩
  callDirect h := callDirect_law formals conv h
  callDynamic h := callDynamic_law formals tables conv h
  abort := by
    intro kind file line t t' h
    obtain ⟨same, run⟩ := abort_law conv h
    exact ⟨same, fun placed K O σ c name _ located denotes => run placed located denotes⟩

theorem lawful (framed : X.Framed) (formals : X.Formals F) (tables : X.Tables)
    (conv : X.Conventions) (built : X.setting.Built) (calculates : X.Calculates) :
    (X.model F).Lawful X.setting where
  toOrdered := ordered tables built
  toStorage := storage framed formals conv
  toWords := words formals tables conv built calculates
  toControl := control
  toCalls := calls framed formals tables conv built

end Scenario

end ClassBackend.Mips
