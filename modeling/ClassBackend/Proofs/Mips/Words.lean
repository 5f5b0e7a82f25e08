import ClassBackend.Proofs.Mips.Storage

/-! Unboxed words and new objects on the MIPS machine. -/
namespace ClassBackend.Mips

open Meaning Machine Lowering

variable {F : List Int} {t t' : State} {K K' : List (Slot backend)} {O : List BlockName}
variable {I : List Instr}

theorem scratchAt_free (n : Nat) : Reg.scratchAt n ∉ [Reg.fp, .s0, .sp, .zero, .a0, .t1] := by
  have each : ∀ r ∈ Reg.scratch, r ∉ [Reg.fp, .s0, .sp, .zero, .a0, .t1] := by decide
  exact each _ (Reg.scratchAt_mem n)

theorem scratchAt_nonzero (n : Nat) : Reg.scratchAt n ≠ .zero :=
  fun same => scratchAt_free n (by simp [same])

theorem compute_fits {op : ArithOp} {a b n : Int} (h : compute op a b = .result n) :
    Word.fits n = true := by
  have checked : ∀ {m : Int}, (if Word.fits m then Calc.result m else .trap) = .result n →
      Word.fits n = true := by
    intro m h
    split at h
    · cases h
      assumption
    · cases h
  cases op with
  | add => exact checked h
  | sub => exact checked h
  | mul =>
    cases h
    have low := Int.le_bmod (x := a * b) (m := 4294967296) (by decide)
    have high := Int.bmod_lt (x := a * b) (m := 4294967296) (by decide)
    simp only [Word.fits, Bool.and_eq_true, decide_eq_true_eq]
    omega
  | div =>
    simp only [compute] at h
    split at h
    · cases h
    · exact checked h

namespace Scenario

variable {X : Scenario} {σ : Store} {c : Point} {s' : Cpu} {D : List Reg}

theorem load_scratch {r : Reg} {off : Int} {n : Nat} {y : BitVec 32}
    (adds : Adds t [.lw (Reg.scratchAt n) off r] t') (placed : (X.model F).placed t t')
    (h : X.Located F .here t K σ c)
    (word : c.config.cpu.mem (c.config.cpu.get r + BitVec.ofInt 32 off) = some y) :
    (X.model F).Moves K t' σ c fun c' =>
      (c'.config.cpu.get (Reg.scratchAt n) = y ∧
        ∀ q, q ≠ Reg.scratchAt n → c'.config.cpu.get q = c.config.cpu.get q) ∧
      (X.model F).Values t t' c c' := by
  have free := scratchAt_free n
  simp only [List.mem_cons, List.not_mem_nil, or_false, not_or] at free
  obtain ⟨fp, self, sp, zero, a0, t1⟩ := free
  have agree := (Cpu.Agrees.refl [Reg.scratchAt n] c.config.cpu).set (d := Reg.scratchAt n)
    (by simp) y
  refine moves_quiet h placed adds.code (by simp only [Site.exec, Site.effect, word]; rfl) agree
    (by simp [fp, self, sp])
    ⟨⟨Cpu.get_set_self _ _ zero, fun q hq => Cpu.get_set_ne _ _ hq⟩, ?_⟩
  exact values_quiet agree (by
    simp [valueRegs, self, zero, a0, t1])

theorem unbox_law {v : Reg} {cls : ClassLayout} {r : Operand}
    (h : Asm.unbox v cls t = .ok (r, t')) :
    (X.model F).Same t t' ∧ (X.model F).loaded r ∧ (X.model F).recent t' r ∧
    ((X.model F).placed t t' → cls.ownStart = 0 → ∀ {K σ c p o n},
      X.Located F .here t K σ c → (X.model F).value t c v (.obj p) → σ.heap[p]? = some o →
      o.cells[0]? = some (.word n) →
      (X.model F).Moves K t' σ c fun c' =>
        (X.model F).raw t' c' r n ∧ (X.model F).Values t t' c c' ∧
        ∀ q m, (X.model F).recent t q → (X.model F).raw t c q m → (X.model F).raw t' c' q m) := by
  obtain ⟨rfl, off, known, rfl⟩ := unbox_ok h
  have adds : Adds t [.lw (Reg.scratchAt t.nextScratch) off v]
      (t.drawn.add [.lw (Reg.scratchAt t.nextScratch) off v]) :=
    adds_add rfl rfl (by simp [Unlabelled])
  refine ⟨same adds rfl, ⟨_, rfl⟩, ⟨_, rfl, rfl⟩,
    fun placed start K σ c p o n h value found hd => ?_⟩
  obtain ⟨_, live, place⟩ := value
  rw [← h.store] at found
  obtain ⟨y, hy, number⟩ := h.held.cell p o 0 _ found hd
  have word : c.config.cpu.mem (c.config.cpu.get v + BitVec.ofInt 32 off) = some y := by
    rw [field_address (X := X) known, place, start]
    exact hy
  obtain ⟨c', there, kept, ⟨loaded, others⟩, values⟩ := load_scratch adds placed h word
  refine ⟨c', there, kept, ?_, values, ?_⟩
  · change (c'.config.cpu.get _).toInt = n
    rw [loaded]
    exact number
  · rintro q m ⟨k, next, rfl⟩ raw
    change (c'.config.cpu.get _).toInt = m
    rw [others]
    · exact raw
    · rw [next]
      exact Reg.scratchAt_succ k

theorem loadTag_law {obj : Reg} {r : Operand} (h : Asm.loadTag obj t = .ok (r, t')) :
    (X.model F).Same t t' ∧ (X.model F).loaded r ∧
    ((X.model F).placed t t' → ∀ {K σ c p o},
      X.Located F .here t K σ c → (X.model F).value t c obj (.obj p) → σ.heap[p]? = some o →
      (X.model F).Moves K t' σ c fun c' =>
        (X.model F).raw t' c' r o.tag ∧ (X.model F).Values t t' c c') := by
  obtain ⟨rfl, rfl⟩ := loadTag_ok h
  have adds : Adds t [.lw (Reg.scratchAt t.nextScratch) 0 obj]
      (t.drawn.add [.lw (Reg.scratchAt t.nextScratch) 0 obj]) :=
    adds_add rfl rfl (by simp [Unlabelled])
  refine ⟨same adds rfl, ⟨_, rfl⟩, fun placed K σ c p o h value found => ?_⟩
  obtain ⟨_, live, place⟩ := value
  rw [← h.store] at found
  obtain ⟨y, hy, number⟩ := h.held.tag p o found
  have word : c.config.cpu.mem (c.config.cpu.get obj + BitVec.ofInt 32 0) = some y := by
    rw [place]
    simpa using hy
  obtain ⟨c', there, kept, ⟨loaded, _⟩, values⟩ := load_scratch adds placed h word
  refine ⟨c', there, kept, ?_, values⟩
  change (c'.config.cpu.get _).toInt = o.tag
  rw [loaded]
  exact number

theorem rawWord_law {n : Int} {r : Operand}
    (h : Asm.ofExcept ((Word.ofLiteral n).map Operand.imm) t = .ok (r, t')) :
    t' = t ∧ ∀ c : Point, Word.fits n = true → (c.config.cpu.operand r).toInt = n := by
  obtain ⟨literal, same⟩ := asm_ofExcept_ok.mp h
  refine ⟨same, fun c fits => ?_⟩
  simp only [Word.ofLiteral, fits, if_true, Except.map] at literal
  cases literal
  exact fits_toInt fits

/-- The numbers that the language computes with are those of the machine, as far as it says. -/
def Calculates (X : Scenario) : Prop :=
  ∀ op a b, X.setting.compute op a b ≠ .undefined → X.setting.compute op a b = compute op a b

theorem computed {i : Instr} {n : Nat} {k k' : Calc}
    (adds : Adds t [i] t') (placed : (X.model F).placed t t') (h : X.Located F .here t K σ c)
    (performs : X.site.perform c.config i = Site.settle c.config (Reg.scratchAt n) k)
    (agrees : k' ≠ .undefined → k' = k) (fits : ∀ m, k = .result m → Word.fits m = true) :
    (X.model F).Computed K t' σ c (.reg (Reg.scratchAt n)) k' := by
  have code := h.code placed adds.code
  cases k' with
  | undefined => trivial
  | trap =>
    have trap : k = .trap := (agrees (by simp)).symm
    subst trap
    change X.course.ends (.trapped σ.trace)
    rw [← h.store]
    exact run_trap code performs h.along
  | result m =>
    have result : k = .result m := (agrees (by simp)).symm
    have free := scratchAt_free n
    simp only [List.mem_cons, List.not_mem_nil, or_false, not_or] at free
    obtain ⟨fp, self, sp, zero, _, _⟩ := free
    have agree := (Cpu.Agrees.refl [Reg.scratchAt n] c.config.cpu).set (d := Reg.scratchAt n)
      (by simp) (BitVec.ofInt 32 m)
    have along := run_settle code performs result h.along
    refine ⟨⟨c.seen, ⟨c.config.pc + 1, _⟩, c.view⟩,
      ⟨⟨along, h.held, h.image, ?_, ?_⟩, h.store, h.room, ?_, ?_⟩, kept_quiet agree K, ?_⟩
    · exact (agree.2 _ (by simp [Ne.symm fp])).trans h.fp
    · exact (agree.2 _ (by simp [Ne.symm self])).trans h.self
    · exact (agree.2 _ (by simp [Ne.symm sp])).trans h.sp
    · change c.config.pc + 1 = _
      rw [h.pc, adds.size]
      rfl
    · change ((Cpu.set _ _ _).get _).toInt = m
      rw [Cpu.get_set_self _ _ zero]
      exact fits_toInt (fits m result)

theorem inReg_adds {a : Operand} {r : Reg} (h : Asm.inReg a t = .ok (r, t')) :
    ∃ I, Adds t I t' ∧ t'.frame = t.frame := by
  rcases inReg_ok.mp h with ⟨_, rfl⟩ | ⟨n, _, rfl, rfl⟩
  · exact ⟨[], ⟨by simp, rfl, by simp [Unlabelled]⟩, rfl⟩
  · exact ⟨_, adds_add rfl rfl (by simp [Unlabelled]), rfl⟩

theorem operation_arithOp (op : ArithOp) : (Asm.arithOp op).operation? = some op := by
  cases op <;> rfl

theorem arith_law (calculates : X.Calculates) {op : ArithOp} {a b r : Operand}
    (h : Asm.arith op a b t = .ok (r, t')) :
    (X.model F).Same t t' ∧ ((X.model F).placed t t' → (X.model F).loaded a →
      ∀ {K σ c n m}, X.Located F .here t K σ c → (X.model F).raw t c a n →
      (X.model F).raw t c b m →
      (X.model F).Computed K t' σ c r (X.setting.compute op n m)) := by
  obtain ⟨q, mid, first, rfl, rfl⟩ := arith_ok h
  constructor
  · obtain ⟨I, adds, frame⟩ := inReg_adds first
    exact same (Adds.trans adds (adds_add (q := mid.drawn) rfl rfl (by simp [Unlabelled]))) frame
  · rintro placed ⟨p, rfl⟩ K σ c n m located left right
    rcases inReg_ok.mp first with ⟨same, rfl⟩ | ⟨_, other, _⟩
    · cases same
      refine computed (t := mid) (adds_add rfl rfl (by simp [Unlabelled])) placed located
        (k := compute op n m) ?_
        (calculates op n m) fun _ => compute_fits
      simp only [Site.perform, operation_arithOp]
      rw [← left, ← right]
      rfl
    · cases other

theorem negate_law (calculates : X.Calculates) {a r : Operand}
    (h : Asm.negate a t = .ok (r, t')) :
    (X.model F).Same t t' ∧ ((X.model F).placed t t' → (X.model F).loaded a →
      ∀ {K σ c n}, X.Located F .here t K σ c → (X.model F).raw t c a n →
      (X.model F).Computed K t' σ c r (X.setting.compute .sub 0 n)) := by
  obtain ⟨q, mid, first, rfl, rfl⟩ := negate_ok h
  constructor
  · obtain ⟨I, adds, frame⟩ := inReg_adds first
    exact same (Adds.trans adds (adds_add (q := mid.drawn) rfl rfl (by simp [Unlabelled]))) frame
  · rintro placed ⟨p, rfl⟩ K σ c n located value
    rcases inReg_ok.mp first with ⟨same, rfl⟩ | ⟨_, other, _⟩
    · cases same
      refine computed (t := mid) (adds_add rfl rfl (by simp [Unlabelled])) placed located
        (k := compute .sub 0 n)
        ?_ (calculates .sub 0 n) fun _ => compute_fits
      simp only [Site.perform]
      rw [← value]
      rfl
    · cases other

/-- A prototype is copied: there is a new object, and what was in memory is still there. -/
theorem Ready.copy (tables : X.Tables) (conv : X.Conventions) (built : X.setting.Built)
    (h : X.Ready c) {k : ClassLayout} (known : k ∈ X.setting.classes.classes)
    (code : X.Code c.config.pc (.jal Routine.objectCopy.symbol :: I))
    (proto : c.config.cpu.get .a0 = X.site.symbol (Linkage.prototype k.name)) :
    ∃ s', X.Ready ⟨c.seen ++ [.call ⟨X.site.symbol Routine.objectCopy.symbol, c.config.cpu⟩],
        ⟨c.config.pc + 1, s'⟩, (c.view.log (.allocate k.tag)).add
          ⟨k.tag, List.replicate k.fields.length .unset⟩ (s'.get .a0)⟩ ∧
      Preserves [.t5, .s0, .fp, .sp] c.config.cpu s' ∧
      ∀ a, (c.config.cpu.mem a).isSome → s'.mem a = c.config.cpu.mem a := by
  obtain ⟨p, program⟩ := built.program
  have calls : Calls (X := X) (.jal Routine.objectCopy.symbol) c.config.cpu
      (X.site.symbol Routine.objectCopy.symbol) := .inl ⟨_, rfl, rfl⟩
  have means : X.means c.view ⟨X.site.symbol Routine.objectCopy.symbol, c.config.cpu⟩
      (.allocate k.tag) := ⟨rfl, k, known, rfl, proto⟩
  obtain ⟨s', answer, preserved, copied⟩ := conv.copy c.view _ _ (calling code calls h.along) means
  obtain ⟨size, word, length⟩ := tables.size k known
  have copy := copied size (by
    change c.config.cpu.mem (X.geometry.word (c.config.cpu.get .a0) 1) = _
    rw [proto]
    exact h.image _ _ word)
  rw [length] at copy
  have words : ∀ j < headerWords + k.fields.length, ∀ x,
      X.image (X.geometry.word (X.site.symbol (Linkage.prototype k.name)) j) = some x →
      s'.mem (X.geometry.word (s'.get .a0) j) = some x := by
    intro j hj x hx
    rw [copy.copied j hj]
    change c.config.cpu.mem (X.geometry.word (c.config.cpu.get .a0) j) = _
    rw [proto]
    exact h.image _ _ hx
  have new : ∀ j < headerWords + k.fields.length,
      (s'.mem (X.geometry.word (s'.get .a0) j)).isSome := by
    intro j hj
    obtain ⟨x, hx⟩ := Option.isSome_iff_exists.mp (tables.prototype k known j hj)
    rw [words j hj x hx]
    rfl
  have after : X.setting.after (.allocate k.tag) c.view.store = some
      ((c.view.log (.allocate k.tag)).add
        ⟨k.tag, List.replicate k.fields.length .unset⟩ (s'.get .a0)).store :=
    Setting.after_allocate (ClassTable.getElem?_tag program known) _
  refine ⟨s', h.call code calls answer means after ?_ ?_ ?_ ?_, preserved, copy.old⟩
  · exact (View.extends_log ..).trans (View.extends_add ..)
  · have vacant : Vacant X.geometry c.config.cpu.mem (s'.get .a0)
        (headerWords + k.fields.length) := ⟨copy.nonzero, copy.fresh, copy.distinct⟩
    obtain ⟨x, hx, number⟩ := tables.tag k known
    rw [← Geometry.word_zero X.geometry (X.site.symbol _)] at hx
    have tag := words 0 (by simp only [headerWords]; omega) x hx
    rw [Geometry.word_zero] at tag
    have table := words 2 (by simp only [headerWords]; omega) _ (tables.table k known)
    exact (h.held.log (.allocate k.tag)).blank program known vacant copy.old new ⟨x, tag, number⟩
      table
  · intro a x hx
    rw [copy.old a]
    · exact h.image a x hx
    · change (c.config.cpu.mem a).isSome
      rw [h.image a x hx]
      rfl
  · exact preserved.sub (by simp)

theorem kept_grown {c' : Point} (grown : c.view.Extends c'.view)
    (old : ∀ a, (c.config.cpu.mem a).isSome → c'.config.cpu.mem a = c.config.cpu.mem a)
    (K : List (Slot backend)) : (X.model F).Kept K c c' := by
  rintro s - x ⟨y, hy, rep⟩
  refine ⟨y, ?_, rep.mono grown⟩
  rw [old]
  · exact hy
  · rw [hy]
    rfl

theorem carry_run (a : Operand) (s : Cpu) : ∃ s', X.site.exec (carryCode a) s = some s' ∧
    s.Agrees [.t5] s' ∧ s'.get .t5 = s.operand a := by
  have moved : ∀ x, s.Agrees [.t5] (s.set .t5 x) ∧ (s.set .t5 x).get .t5 = x := fun x =>
    ⟨(Cpu.Agrees.refl _ _).set (by simp) x, Cpu.get_set_self _ _ (by decide)⟩
  cases a with
  | imm n => exact ⟨_, rfl, moved _⟩
  | reg r =>
    by_cases there : r = .t5
    · subst there
      exact ⟨s, rfl, .refl _ _, rfl⟩
    · have code : carryCode (.reg r) = [.move .t5 r] := by
        cases r <;> first | rfl | contradiction
      rw [code]
      exact ⟨_, rfl, moved _⟩

theorem carryCode_unlabelled (a : Operand) : Unlabelled (carryCode a) := by
  intro b
  unfold carryCode
  split <;> simp

theorem boxInt_law (formals : X.Formals F) (tables : X.Tables) (conv : X.Conventions)
    (built : X.setting.Built) {raw : Operand} {int : ClassLayout} {v : Reg}
    (h : Asm.boxInt raw int t = .ok (v, t')) :
    (X.model F).Same t t' ∧ v ≠ .t1 ∧
    ((X.model F).placed t t' → X.setting.classes.find Builtin.intName = .ok int →
      int.ownStart = 0 → int.fields.length = 1 → ∀ {K O σ c n}, Shape F t K O →
      X.Located F .here t K σ c → (X.model F).raw t c raw n →
      (X.model F).Moves K t' ((σ.log (.allocate int.tag)).add ⟨int.tag, [.word n]⟩) c fun c' =>
        (X.model F).value t' c' v (.obj σ.heap.length)) := by
  obtain ⟨rfl, off, field, rfl⟩ := boxInt_ok h
  have adds : Adds t _ (t.add (carryCode raw ++ [.la .a0 (Linkage.prototype int.name),
      .jal Routine.objectCopy.symbol, .sw .t5 off .a0])) :=
    adds_add rfl rfl ((carryCode_unlabelled raw).append (by simp [Unlabelled]))
  refine ⟨same adds rfl, by decide, fun placed found start single K O σ c n shape h value => ?_⟩
  have known := ClassTable.mem_of_find found
  have code := h.code placed adds.code
  obtain ⟨s₁, run₁, agree₁, word₁⟩ := carry_run (X := X) raw c.config.cpu
  have ready₁ := h.toReady.quiet code.take run₁ agree₁ (by simp) (by simp)
  have code₁ := code.drop
  let s₂ := s₁.set .a0 (X.site.symbol (Linkage.prototype int.name))
  have agree₂ : s₁.Agrees [.a0] s₂ := (Cpu.Agrees.refl _ _).set (by simp) _
  have ready₂ := ready₁.quiet (I := [.la .a0 (Linkage.prototype int.name)]) code₁.take rfl
    agree₂ (by simp) (by simp)
  obtain ⟨s₃, ready₃, preserved, old⟩ := ready₂.copy tables conv built known code₁.tail
    (Cpu.get_set_self _ _ (by decide))
  rw [single] at ready₃
  let V := (c.view.log (.allocate int.tag)).add ⟨int.tag, [.unset]⟩ (s₃.get .a0)
  have newest : V.store.heap[c.view.store.heap.length]? = some ⟨int.tag, [.unset]⟩ := by
    simp [V, View.add, View.log]
  have place : V.place c.view.store.heap.length = s₃.get .a0 := View.add_place_new ..
  have address : s₃.get .a0 + BitVec.ofInt 32 off =
      X.geometry.word (V.place c.view.store.heap.length) headerWords := by
    rw [field_address (X := X) field, start, place]
    rfl
  have ready₄ := ready₃.box code₁.tail.tail address found newest
  have word₃ : s₃.get .t5 = c.config.cpu.operand raw :=
    (preserved .t5 (by simp)).trans ((agree₂.2 .t5 (by simp)).trans word₁)
  have number : (s₃.get .t5).toInt = n := by
    rw [word₃]
    exact value
  refine ⟨_, ⟨ready₄, ?_, h.room, ?_, ?_⟩, ?_, ⟨by decide, ?_, ?_⟩⟩
  · change V.store.setCell _ 0 (.word (s₃.get .t5).toInt) = _
    rw [number, ← h.store]
    exact Store.add_setCell (c.view.store.log (.allocate int.tag)) _ 0 _
  · exact (preserved .sp (by simp)).trans ((agree₂.2 .sp (by simp)).trans
      ((agree₁.2 .sp (by simp)).trans h.sp))
  · change c.config.pc + (carryCode raw).length + 1 + 1 + 1 = _
    rw [h.pc, State.add_size, List.length_append]
    rfl
  · intro s hs x slot
    have same : s₂.mem = c.config.cpu.mem := agree₂.1.trans agree₁.1
    have grown : X.SlotHas ⟨c.seen, ⟨0, s₃⟩, V⟩ s x :=
      kept_grown (F := F) (K := K) (c := c) ((View.extends_log ..).trans (View.extends_add ..))
        (fun a used => (old a (by rw [same]; exact used)).trans (congrFun same a)) s hs x slot
    exact slot_field (n := 0) (i := 0) ready₃ newest rfl
      (formals.inFrame shape.stacked h.room hs) grown
  · rw [← h.store]
    simp [View.setCell, Store.setCell, View.add, View.log]
  · rw [← h.store]
    exact place.symm

theorem words (formals : X.Formals F) (tables : X.Tables) (conv : X.Conventions)
    (built : X.setting.Built) (calculates : X.Calculates) : (X.model F).Words X.setting where
  unbox := by
    intro v cls t r t' h
    obtain ⟨same, loaded, recent, run⟩ := unbox_law h
    exact ⟨same, loaded, recent, fun placed start K O σ c p o n _ located value found hd =>
      run placed start located value found hd⟩
  boxInt h := boxInt_law formals tables conv built h
  rawWord h := rawWord_law h
  arith := by
    intro op a b t r t' h
    obtain ⟨same, run⟩ := arith_law calculates h
    exact ⟨same, fun placed loaded K O σ c n m _ located left right =>
      run placed loaded located left right⟩
  negate := by
    intro a t r t' h
    obtain ⟨same, run⟩ := negate_law calculates h
    exact ⟨same, fun placed loaded K O σ c n _ located value => run placed loaded located value⟩
  loadTag := by
    intro obj t r t' h
    obtain ⟨same, loaded, run⟩ := loadTag_law h
    exact ⟨same, loaded, fun placed K O σ c p o _ located value found =>
      run placed located value found⟩

end Scenario

end ClassBackend.Mips
