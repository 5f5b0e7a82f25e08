import ClassBackend.Proofs.Layout.SubtypeTest
import ClassBackend.Proofs.Mips.Motion

/-! Constants, slots and fields on the MIPS machine. -/
namespace ClassBackend.Mips

open Meaning Machine Lowering

variable {F : List Int} {t t' : State} {K K' : List (Slot backend)} {O : List BlockName}
variable {I : List Instr}

theorem adds_add {q : State} (code : q.code = t.code) (fresh : q.fresh = t.fresh)
    (h : Unlabelled I) : Adds t I (q.add I) := by
  refine ⟨?_, fresh, h⟩
  rw [State.add_code, code]

namespace Scenario

variable {X : Scenario} {σ : Store} {c : Point} {s' : Cpu} {D : List Reg}

theorem prefix_size (h : t.code.toList <+: t'.code.toList) : t.code.size ≤ t'.code.size := by
  simpa using h.length_le

theorem ordered (tables : X.Tables) (built : X.setting.Built) :
    (X.model F).Ordered X.setting where
  refl := List.prefix_refl _
  trans := List.IsPrefix.trans
  split := by
    intro t t' t'' placed first second
    obtain ⟨whole, allowed⟩ := placed
    have low := prefix_size first
    have high := prefix_size second
    refine ⟨⟨second.trans whole, fun n h h' => ?_⟩, whole, fun n h h' => ?_⟩
    · exact allowed n h (Nat.lt_of_lt_of_le h' high)
    · exact allowed n (Nat.le_trans low h) h'
  perm := by
    intro t K O O' perm h
    refine { h with opened := ?_, nodup := ?_ }
    · exact fun b hb => h.opened b (perm.symm.subset hb)
    · exact perm.nodup_iff.mp h.nodup
  waits := by
    intro p t t' K σ c elsewhere _ h
    cases p with
    | here => contradiction
    | block b => exact { h with }
    | arm join arm x => exact { h with }
  firm _ := trivial
  block _ h := { h with }
  value _ h := h
  raw _ h := h
  shut _ h := h
  self h := ⟨by decide, h.held.self, h.self⟩
  void _ := ⟨by decide, rfl⟩
  selfResult := show Reg.s0 ≠ .t1 by decide
  voidResult := show Reg.zero ≠ .t1 by decide
  pause h := ⟨_, _, _, h.along, by rw [h.store]⟩
  wrong := trivial
  tags := by
    obtain ⟨p, program⟩ := built.program
    have fits : ∀ k ∈ X.setting.classes.classes, Word.fits k.tag = true := by
      intro k hk
      obtain ⟨x, _, same⟩ := tables.tag k hk
      have low := x.le_toInt
      have high := x.toInt_lt
      simp only [Word.fits, Bool.and_eq_true, decide_eq_true_eq]
      omega
    intro k hk
    refine ⟨fits k hk, ?_⟩
    obtain ⟨d, hd, same⟩ := ClassTable.last_mem program hk
    rw [← same]
    exact fits d hd
  falsity := show Word.fits 0 = true by decide
  truth := show Word.fits 1 = true by decide

theorem constant_law {k : Const} {v : Reg} (h : Asm.constant k t = .ok (v, t')) :
    (X.model F).Same t t' ∧ v ≠ .t1 ∧ ((X.model F).placed t t' → ∀ {K σ c l},
      X.Located F .here t K σ c → Denotes X.pool k l →
      (X.model F).Moves K t' σ c fun c' =>
        (X.model F).value t' c' v (.obj (X.setting.literal l))) := by
  simp only [Asm.constant, bind_ok, pure_ok, emit_ok] at h
  obtain ⟨_, _, rfl, rfl, rfl⟩ := h
  have adds : Adds t [.la .a0 k.label] (t.add [.la .a0 k.label]) :=
    adds_add rfl rfl (by simp [Unlabelled])
  refine ⟨same adds rfl, by decide, fun placed K σ c l h denotes => ?_⟩
  obtain ⟨live, place⟩ := h.held.literal k l denotes
  refine moves_quiet (D := [.a0]) h placed adds.code rfl ((Cpu.Agrees.refl _ _).set (by simp) _)
    (by simp) ?_
  refine ⟨by decide, live, ?_⟩
  change (c.config.cpu.set .a0 _).get .a0 = _
  rw [Cpu.get_set_self _ _ (by decide)]
  exact place.symm

theorem push_moves (framed : X.Framed) (formals : X.Formals F) {r : Reg} {s : Slot backend}
    (placed : (X.model F).placed t t')
    (adds : t'.code.toList = t.code.toList ++ Frame.pushCode r) (stacked : Stacked F K)
    (room : K.length < F.length + X.room) (place : offset s = top F K)
    (h : X.Located F .here t K σ c) :
    ∃ c', X.Located F .here t' (s :: K) σ c' ∧ (X.model F).Kept K c c' ∧ c'.view = c.view ∧
      c'.config.cpu.mem (X.frameWord (offset s)) = some (c.config.cpu.get r) ∧
      ∀ q, q ≠ .sp → c'.config.cpu.get q = c.config.cpu.get q := by
  have inside := top_inFrame stacked room
  have code := h.code placed adds
  have address : c.config.cpu.get .sp + BitVec.ofInt 32 0 = X.frameWord (top F K) := by
    rw [h.sp, frameWord_add, Int.add_zero]
  have stored := h.toReady.frame framed code address inside
  have agree := (Cpu.Agrees.refl [.sp] (c.config.cpu.store (X.frameWord (top F K))
    (c.config.cpu.get r))).set (d := .sp) (by simp)
    (X.frameWord (top F K) + BitVec.ofInt 32 (-4))
  have moved := stored.quiet (I := [.addiu .sp .sp (-wordSize)]) (D := [.sp]) code.tail
    (by simp [Site.exec, Site.effect, wordSize, h.sp]) agree (by simp) (by simp)
  refine ⟨_, ⟨moved, h.store, ?_, ?_, ?_⟩, ?_, rfl, ?_, ?_⟩
  · rw [List.length_cons]
    exact room
  · change (Cpu.set _ _ _).get .sp = _
    rw [Cpu.get_set_self _ _ (by decide), frameWord_add, top_cons]
    rfl
  · change c.config.pc + 1 + 1 = t'.code.size
    rw [← Array.length_toList, adds, List.length_append, Array.length_toList, h.pc]
    rfl
  · intro s' hs x slot
    have above := (formals.above stacked hs).1
    exact slot_frame (n := c.config.pc + 1 + 1) framed (by omega) inside
      (formals.inFrame stacked (Nat.le_of_lt room) hs) slot
  · rw [place]
    exact Function.update_self _ _ _
  · intro q hq
    exact Cpu.get_set_ne _ _ hq

theorem push_shape {r : Reg} {a : Int} {s : Slot backend} (h : Asm.push r t = .ok (a, t'))
    (hs : offset s = a) : t'.code.toList = t.code.toList ++ Frame.pushCode r ∧
      (Shape F t K O → offset s = top F K ∧ Shape F t' (s :: K) O) := by
  obtain ⟨f, known, rfl, fits, rfl⟩ := push_ok h
  have adds : Adds t (Frame.pushCode r) ((t.framed { f with spOffset := f.spOffset - 4 }).add
      (Frame.pushCode r)) := adds_add rfl rfl (by simp [Unlabelled, Frame.pushCode])
  refine ⟨adds.code, fun shape => ?_⟩
  obtain ⟨g, known', at_top⟩ := shape.frame
  cases known.symm.trans known'
  have place : offset s = top F K := hs.trans at_top
  refine ⟨place, shape.grow adds ⟨_, rfl, ?_⟩ ?_ (.push shape.stacked place)⟩
  · rw [top_cons, ← at_top]
  · rw [top_cons, ← at_top]
    exact fits

theorem push_law (framed : X.Framed) (formals : X.Formals F) {r : Reg} {a : Int}
    {s : Slot backend} (h : Asm.push r t = .ok (a, t')) (hs : offset s = a) :
    (X.model F).le t t' ∧ (∀ {K O}, Shape F t K O → s ∉ K ∧ Shape F t' (s :: K) O) ∧
    ((X.model F).placed t t' → ∀ {K O σ c x}, Shape F t K O → K.length < F.length + X.room →
      X.Located F .here t K σ c → (X.model F).value t c r x →
      ∃ c', X.Located F .here t' (s :: K) σ c' ∧ (X.model F).Kept K c c' ∧ X.SlotHas c' s x) := by
  refine ⟨⟨_, (push_shape (F := F) (K := []) (O := []) h hs).1.symm⟩, ?_, ?_⟩
  · intro K O shape
    obtain ⟨place, shape'⟩ := (push_shape h hs).2 shape
    refine ⟨fun mem => ?_, shape'⟩
    have := (formals.above shape.stacked mem).1
    omega
  · intro placed K O σ c x shape room located value
    obtain ⟨code, grown⟩ := push_shape (F := F) (K := K) (O := O) h hs
    obtain ⟨c', there, kept, view, word, _⟩ :=
      push_moves framed formals placed code shape.stacked room (grown shape).1 located
    refine ⟨c', there, kept, _, word, ?_⟩
    rw [view]
    exact value.2

theorem Shape.drop {s : Slot backend} {a : Int} (formals : X.Formals F)
    (shape : Shape F t (s :: K) O) (hs : offset s = a) {f : Frame} (known : t.frame = some f)
    (newest : a = f.spOffset + 4) (fits : Word.fits (f.spOffset + 4) = true)
    (adds : Adds t I t') (frame : t'.frame = some { f with spOffset := f.spOffset + 4 }) :
    Shape F t' K O ∧ offset s = top F K := by
  obtain ⟨g, known', at_top⟩ := shape.frame
  cases known.symm.trans known'
  rcases shape.stacked.uncons with ⟨stacked, place⟩ | ⟨off, mem, rfl, length⟩
  · rw [top_cons] at at_top
    have below : f.spOffset + 4 = top F K := by omega
    exact ⟨shape.grow adds ⟨_, frame, below⟩ (below ▸ fits) stacked, place⟩
  · have within := (formals.within off mem).1
    have := shape.stacked.top_le
    change off = a at hs
    omega

theorem Located.below {p : Spot backend} {s : Slot backend} (h : X.Located F p t (s :: K) σ c) :
    c.config.cpu.get .sp + BitVec.ofInt 32 4 = X.frameWord (top F K) := by
  rw [h.sp, frameWord_add, top_cons, Int.sub_add_cancel]

theorem discard_law (formals : X.Formals F) {a : Int} {s : Slot backend} {u : Unit}
    (hs : offset s = a) (h : Asm.discard a t = .ok (u, t')) :
    (X.model F).le t t' ∧ (∀ {K O}, Shape F t (s :: K) O → Shape F t' K O) ∧
    ((X.model F).placed t t' → ∀ {K σ c}, X.Located F .here t (s :: K) σ c →
      (X.model F).Moves K t' σ c fun c' => (X.model F).Values t t' c c') := by
  obtain ⟨f, known, newest, fits, rfl⟩ := discard_ok h
  have adds : Adds t Frame.discardCode ((t.framed { f with spOffset := f.spOffset + 4 }).add
      Frame.discardCode) := adds_add rfl rfl (by simp [Unlabelled, Frame.discardCode])
  refine ⟨⟨_, adds.code.symm⟩, fun shape => ?_, fun placed K σ c h => ?_⟩
  · exact (Shape.drop formals shape hs known newest fits adds rfl).1
  · have agree := (Cpu.Agrees.refl [.sp] c.config.cpu).set (d := .sp) (by simp)
      (X.frameWord (top F K))
    have room : K.length ≤ F.length + X.room := by
      have := h.room
      rw [List.length_cons] at this
      omega
    have moved := h.shift (L := K) placed adds.code
      (by simp only [Site.exec, Site.effect, Frame.discardCode, wordSize, h.below]; rfl) agree
      (by simp) (by simp) room (Cpu.get_set_self _ _ (by decide))
    exact ⟨_, moved, kept_quiet agree K, values_quiet agree (by simp [valueRegs])⟩

theorem restore_law (formals : X.Formals F) {a : Int} {v : Reg}
    (h : Asm.restore a t = .ok (v, t')) :
    (X.model F).le t t' ∧ (∀ {K O}, Shape F t (.inr a :: K) O → Shape F t' K O) ∧
    ((X.model F).placed t t' → ∀ {K O σ c x}, Shape F t (.inr a :: K) O →
      X.Located F .here t (.inr a :: K) σ c → X.SlotHas c (.inr a) x →
      (X.model F).Moves K t' σ c fun c' =>
        (X.model F).value t' c' v x ∧ (X.model F).Results t t' c c') := by
  simp only [Asm.restore, bind_ok, pure_ok] at h
  obtain ⟨_, _, popped, rfl, rfl⟩ := h
  obtain ⟨f, known, newest, fits, rfl⟩ := pop_ok popped
  have adds : Adds t (Frame.popCode .t1) ((t.framed { f with spOffset := f.spOffset + 4 }).add
      (Frame.popCode .t1)) := adds_add rfl rfl (by simp [Unlabelled, Frame.popCode])
  refine ⟨⟨_, adds.code.symm⟩, fun shape => ?_, fun placed K O σ c x shape h slot => ?_⟩
  · exact (Shape.drop formals shape rfl known newest fits adds rfl).1
  · obtain ⟨_, place⟩ := Shape.drop formals shape rfl known newest fits adds rfl
    obtain ⟨y, hy, rep⟩ := slot
    rw [place] at hy
    have agree := ((Cpu.Agrees.refl [.t1, .sp] c.config.cpu).set (d := .t1) (by simp) y).set
      (d := .sp) (by simp) (X.frameWord (top F K))
    have room : K.length ≤ F.length + X.room := by
      have := h.room
      rw [List.length_cons] at this
      omega
    have other : Reg.sp ≠ .t1 := by decide
    have moved := h.shift (L := K) placed adds.code
      (by simp only [Site.exec, Site.effect, Frame.popCode, wordSize, h.below, hy, Option.map_some,
        Option.bind_some, Cpu.get_set_ne _ _ other]) agree
      (by simp) (by simp) room (Cpu.get_set_self _ _ (by decide))
    refine ⟨_, moved, kept_quiet agree K, ⟨by decide, ?_⟩, ?_⟩
    · change c.view.Rep x ((Cpu.set _ _ _).get .t1)
      rw [Cpu.get_set_ne _ _ (by decide), Cpu.get_set_self _ _ (by decide)]
      exact rep
    · rintro q z other ⟨mem, value⟩
      refine ⟨mem, ?_⟩
      change c.view.Rep z ((Cpu.set _ _ _).get q)
      rw [agree.2 q ?_]
      · exact value
      · intro hq
        rcases List.mem_cons.mp hq with rfl | hq
        · exact other rfl
        · cases List.mem_singleton.mp hq
          exact absurd mem (by decide)

theorem load_moves {K : List (Slot backend)} {σ : Store} {c : Point} {off : Int} {base : Reg}
    {x : Val} {y : BitVec 32} (h : X.Located F .here t K σ c)
    (placed : (X.model F).placed t (t.add [.lw .a0 off base]))
    (address : c.config.cpu.mem (c.config.cpu.get base + BitVec.ofInt 32 off) = some y)
    (rep : c.view.Rep x y) : (X.model F).Moves K (t.add [.lw .a0 off base]) σ c fun c' =>
      (X.model F).value (t.add [.lw .a0 off base]) c' .a0 x := by
  refine moves_quiet (D := [.a0]) h placed (State.add_code _ _)
    (by simp only [Site.exec, Site.effect, address]; rfl)
    ((Cpu.Agrees.refl _ _).set (by simp) y) (by simp) ⟨by decide, ?_⟩
  change c.view.Rep x ((Cpu.set _ _ _).get .a0)
  rw [Cpu.get_set_self _ _ (by decide)]
  exact rep

theorem loadLocal_law {a : Int} {v : Reg} (h : Asm.loadLocal a t = .ok (v, t')) :
    (X.model F).Same t t' ∧ v ≠ .t1 ∧ ((X.model F).placed t t' → ∀ {K σ c x},
      X.Located F .here t K σ c → X.SlotHas c (.inl a) x →
      (X.model F).Moves K t' σ c fun c' => (X.model F).value t' c' v x) := by
  simp only [Asm.loadLocal, bind_ok, pure_ok, emit_ok] at h
  obtain ⟨_, _, rfl, rfl, rfl⟩ := h
  have adds : Adds t [.lw .a0 a .fp] (t.add [.lw .a0 a .fp]) :=
    adds_add rfl rfl (by simp [Unlabelled])
  refine ⟨same adds rfl, by decide, fun placed K σ c x h slot => ?_⟩
  obtain ⟨y, hy, rep⟩ := slot
  refine load_moves h placed ?_ rep
  rw [h.fp]
  exact hy

theorem storeLocal_law (framed : X.Framed) (formals : X.Formals F) {a : Int} {v : Reg} {u : Unit}
    (h : Asm.storeLocal a v t = .ok (u, t')) :
    (X.model F).Same t t' ∧ ((X.model F).placed t t' → ∀ {K O σ c x}, Shape F t K O →
      .inl a ∈ K → X.Located F .here t K σ c → (X.model F).value t c v x →
      ∃ c', X.Located F .here t' K σ c' ∧
        (∀ s ∈ K, s ≠ .inl a → ∀ y, X.SlotHas c s y → X.SlotHas c' s y) ∧
        X.SlotHas c' (.inl a) x ∧ (X.model F).Values t t' c c') := by
  cases emit_ok.mp h
  have adds : Adds t [.sw v a .fp] (t.add [.sw v a .fp]) :=
    adds_add rfl rfl (by simp [Unlabelled])
  refine ⟨same adds rfl, fun placed K O σ c x shape mem h value => ?_⟩
  have inside := formals.inFrame shape.stacked h.room mem
  have stored := h.toReady.frame (n := a) framed (h.code placed adds.code)
    (by rw [h.fp]; rfl) inside
  refine ⟨_, ⟨stored, h.store, h.room, h.sp, ?_⟩, ?_, ⟨_, Function.update_self _ _ _, value.2⟩, ?_⟩
  · change c.config.pc + 1 = _
    rw [h.pc, State.add_size]
    rfl
  · intro s hs other y slot
    refine slot_frame framed (fun same => other ?_) inside
      (formals.inFrame shape.stacked h.room hs) slot
    exact List.inj_on_of_nodup_map (formals.offsets shape.stacked) hs mem same
  · exact fun q y hq => hq

theorem field_address {slot : Nat} {off : Int} (h : fieldOffset slot = .ok off)
    (base : BitVec 32) :
    base + BitVec.ofInt 32 off = X.geometry.word base (headerWords + slot) := by
  rw [ofInt_fieldOffset h]
  rfl

theorem cell_found {heap : List Obj} {p i : Nat} {d : Cell}
    (h : (heap[p]?).bind (·.cells[i]?) = some d) :
    ∃ o, heap[p]? = some o ∧ o.cells[i]? = some d := by
  obtain ⟨o, found, hd⟩ := Option.bind_eq_some_iff.mp h
  exact ⟨o, found, hd⟩

theorem loadField_law {obj v : Reg} {i : Nat} (h : Asm.loadField obj i t = .ok (v, t')) :
    (X.model F).Same t t' ∧ v ≠ .t1 ∧ ((X.model F).placed t t' → ∀ {K σ c r x},
      X.Located F .here t K σ c → (X.model F).value t c obj (.obj r) →
      (σ.heap[r]?).bind (·.cells[i]?) = some (.ref x) →
      (X.model F).Moves K t' σ c fun c' => (X.model F).value t' c' v x) := by
  obtain ⟨rfl, off, known, rfl⟩ := loadField_ok h
  have adds : Adds t [.lw .a0 off obj] (t.add [.lw .a0 off obj]) :=
    adds_add rfl rfl (by simp [Unlabelled])
  refine ⟨same adds rfl, by decide, fun placed K σ c r x h value cell => ?_⟩
  obtain ⟨mem, live, place⟩ := value
  obtain ⟨o, found, hd⟩ := cell_found cell
  rw [← h.store] at found
  obtain ⟨y, hy, rep⟩ := h.held.cell r o i _ found hd
  refine load_moves h placed ?_ rep
  rw [field_address (X := X) known, place]
  exact hy

theorem storeField_law (formals : X.Formals F) {obj v : Reg} {i : Nat} {u : Unit}
    (h : Asm.storeField obj i v t = .ok (u, t')) :
    (X.model F).Same t t' ∧ ((X.model F).placed t t' → ∀ {K O σ c r x d}, Shape F t K O →
      X.Located F .here t K σ c → (X.model F).value t c obj (.obj r) →
      (X.model F).value t c v x → (σ.heap[r]?).bind (·.cells[i]?) = some d → d.isPointer →
      (X.model F).Moves K t' (σ.setField r i x) c fun c' => (X.model F).Values t t' c c') := by
  obtain ⟨off, known, rfl⟩ := storeField_ok h
  have adds : Adds t [.sw v off obj] (t.add [.sw v off obj]) :=
    adds_add rfl rfl (by simp [Unlabelled])
  refine ⟨same adds rfl, fun placed K O σ c r x d shape h object value cell pointer => ?_⟩
  obtain ⟨_, live, place⟩ := object
  obtain ⟨o, found, hd⟩ := cell_found cell
  rw [← h.store] at found
  have stored := h.toReady.field (h.code placed adds.code)
    (by rw [field_address (X := X) known, place]) found hd pointer value.2
  refine ⟨_, ⟨stored, ?_, h.room, h.sp, ?_⟩, ?_, ?_⟩
  · change (c.view.setCell r i (.ref x)).store = _
    rw [← h.store]
    rfl
  · change c.config.pc + 1 = _
    rw [h.pc, State.add_size]
    rfl
  · intro s hs y slot
    exact slot_field h.toReady found hd (formals.inFrame shape.stacked h.room hs) slot
  · exact fun q y hq => ⟨hq.1, View.Rep.mono (View.extends_setCell ..) hq.2⟩

theorem writeBarrier_law (conv : X.Conventions) {obj : Reg} {i : Nat} {u : Unit}
    (h : Asm.writeBarrier obj i t = .ok (u, t')) :
    (X.model F).Same t t' ∧ ((X.model F).placed t t' → ∀ {K σ c r},
      X.Located F .here t K σ c → (X.model F).value t c obj (.obj r) →
      (X.model F).Moves K t' (σ.log (.barrier (.obj r) i)) c fun c' =>
        (X.model F).Results t t' c c') := by
  obtain ⟨off, known, rfl⟩ := writeBarrier_ok h
  have adds : Adds t _ (t.add [.addiu .a1 obj off, .jal Routine.gcAssign.symbol]) :=
    adds_add rfl rfl (by simp [Unlabelled])
  refine ⟨same adds rfl, fun placed K σ c r h object => ?_⟩
  obtain ⟨_, live, place⟩ := object
  have code := h.code placed adds.code
  let s := c.config.cpu.set .a1 (c.config.cpu.get obj + BitVec.ofInt 32 off)
  have agree : c.config.cpu.Agrees [.a1] s := (Cpu.Agrees.refl _ _).set (by simp) _
  have ready := h.toReady.quiet (I := [.addiu .a1 obj off]) code.take rfl agree (by simp) (by simp)
  have means : X.means c.view ⟨X.site.symbol Routine.gcAssign.symbol, s⟩
      (.barrier (.obj r) i) := by
    refine ⟨rfl, r, rfl, live, ?_⟩
    rw [Cpu.get_set_self _ _ (by decide), field_address (X := X) known, place]
  have calls : Calls (X := X) (.jal Routine.gcAssign.symbol) s
      (X.site.symbol Routine.gcAssign.symbol) := .inl ⟨_, rfl, rfl⟩
  obtain ⟨s', answer, preserved, mem⟩ :=
    conv.barrier c.view _ _ i (calling code.tail calls ready.along) means
  have kept : ∀ a, s'.mem a = c.config.cpu.mem a := fun a => by rw [mem]; rfl
  have called := ready.call (W := c.view.log (.barrier (.obj r) i)) code.tail calls answer means
    rfl (View.extends_log ..)
    (by rw [mem]; exact h.held.log _) (fun a x hx => by rw [kept]; exact h.image a x hx)
    (preserved.sub (by simp))
  refine ⟨_, ⟨called, ?_, h.room, ?_, ?_⟩, ?_, ?_⟩
  · change (c.view.log _).store = _
    rw [← h.store]
    rfl
  · exact (preserved .sp (by simp)).trans ((agree.2 .sp (by simp)).trans h.sp)
  · change c.config.pc + 1 + 1 = _
    rw [h.pc, State.add_size]
    rfl
  · rintro s - x ⟨y, hy, rep⟩
    exact ⟨y, (kept _).trans hy, rep⟩
  · rintro q x other ⟨listed, rep⟩
    refine ⟨listed, ?_⟩
    change c.view.Rep x (s'.get q)
    have same : s'.get q = c.config.cpu.get q := by
      simp only [valueRegs, List.mem_cons, List.not_mem_nil, or_false] at listed
      rcases listed with rfl | rfl | rfl | rfl
      · exact (preserved _ (by simp)).trans (agree.2 _ (by simp))
      · exact absurd rfl other
      · exact (preserved _ (by simp)).trans (agree.2 _ (by simp))
      · rfl
    rw [same]
    exact rep

theorem storage (framed : X.Framed) (formals : X.Formals F) (conv : X.Conventions) :
    (X.model F).Storage X.setting where
  constant := by
    intro k t v t' h
    obtain ⟨same, result, run⟩ := constant_law h
    exact ⟨same, result, fun placed K O σ c l _ located denotes => run placed located denotes⟩
  allocLocal h := push_law framed formals h rfl
  freeLocal := by
    intro a t t' h
    obtain ⟨le, shape, run⟩ := discard_law formals (s := .inl a) rfl h
    exact ⟨le, shape, fun placed K O σ c _ located => run placed located⟩
  loadLocal := by
    intro a t v t' h
    obtain ⟨same, result, run⟩ := loadLocal_law h
    exact ⟨same, result, fun placed K O σ c x _ _ located slot => run placed located slot⟩
  storeLocal h := storeLocal_law framed formals h
  loadField := by
    intro obj cls i t v t' h
    obtain ⟨same, result, run⟩ := loadField_law h
    exact ⟨same, result, fun placed K O σ c r x _ located value cell =>
      run placed located value cell⟩
  storeField h := storeField_law formals h
  writeBarrier := by
    intro obj cls i t t' h
    obtain ⟨same, run⟩ := writeBarrier_law conv h
    exact ⟨same, fun placed K O σ c r _ located object => run placed located object⟩
  preserve := by
    intro v t s t' h
    obtain ⟨le, shape, run⟩ := push_law framed formals (s := .inr s) h rfl
    exact ⟨le, fun known => (shape known).2, run⟩
  restore h := restore_law formals h

end Scenario

end ClassBackend.Mips
