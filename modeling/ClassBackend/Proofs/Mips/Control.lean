import ClassBackend.Proofs.Mips.Words

/-! Blocks, branches and joins on the MIPS machine. -/
namespace ClassBackend.Mips

open Meaning Machine Lowering

variable {F : List Int} {t t' : State} {K : List (Slot backend)} {O : List BlockName}
variable {I : List Instr}

namespace Scenario

variable {X : Scenario} {σ : Store} {c : Point}

theorem newBlock_law {hint : String} {b : BlockName} (h : Asm.newBlock hint t = .ok (b, t')) :
    (X.model F).le t t' ∧ (∀ {K O}, Shape F t K O → Shape F t' K (b :: O)) ∧
      ∀ {p K σ c}, X.Located F p t K σ c → X.Located F p t' K σ c := by
  simp only [Asm.newBlock, Fresh.block, Except.ok.injEq, Prod.mk.injEq] at h
  obtain ⟨rfl, rfl⟩ := h
  refine ⟨List.prefix_refl _, fun {K O} h => ?_, fun {p K σ c} h => ?_⟩
  · refine ⟨h.frame, h.fits, h.stacked, ?_, ?_, ?_⟩
    · exact fun b hb => Nat.lt_succ_of_lt (h.labels b hb)
    · intro b hb
      rcases List.mem_cons.mp hb with rfl | hb
      · refine ⟨Nat.lt_succ_self _, fun placed => ?_⟩
        exact Nat.lt_irrefl _ (h.labels _ placed)
      · exact ⟨Nat.lt_succ_of_lt (h.opened b hb).1, (h.opened b hb).2⟩
    · refine List.nodup_cons.mpr ⟨fun hb => ?_, h.nodup⟩
      exact Nat.lt_irrefl _ (h.opened _ hb).1
  · refine { h with at_ := ?_ }
    cases p <;> exact h.at_

theorem place_shape {b : BlockName} (h : Shape F t K (b :: O)) :
    Shape F (t.add [.label (.block b)]) K O := by
  obtain ⟨fresh, nodup⟩ := List.nodup_cons.mp h.nodup
  refine ⟨h.frame, h.fits, h.stacked, ?_, ?_, nodup⟩
  · intro d hd
    rw [State.add_code, List.mem_append, List.mem_singleton] at hd
    rcases hd with hd | hd
    · exact h.labels d hd
    · cases hd
      exact (h.opened _ List.mem_cons_self).1
  · intro d hd
    obtain ⟨low, absent⟩ := h.opened d (List.mem_cons_of_mem _ hd)
    refine ⟨low, fun placed => ?_⟩
    rw [State.add_code, List.mem_append, List.mem_singleton] at placed
    rcases placed with placed | placed
    · exact absent placed
    · cases placed
      exact fresh hd

theorem position_eq {b : BlockName} (h : Shape F t K (b :: O))
    (placed : (X.model F).placed t (t.add [.label (.block b)])) :
    X.site.position b = t.code.size := by
  obtain ⟨⟨rest, whole⟩, _⟩ := placed
  have absent := (h.opened b List.mem_cons_self).2
  rw [State.add_code] at whole
  unfold Site.position
  rw [← whole, List.append_assoc, List.idxOf_append_of_notMem absent]
  simp

theorem Ready.enter {b : BlockName} (shape : Shape F t K (b :: O))
    (placed : (X.model F).placed t (t.add [.label (.block b)])) (h : X.Ready c)
    (there : c.config.pc = X.site.position b) :
    X.Ready ⟨c.seen, ⟨(t.add [.label (.block b)]).code.size, c.config.cpu⟩, c.view⟩ := by
  rw [position_eq shape placed] at there
  have code := code_of_placed (F := F) placed (State.add_code _ _)
  rw [← there] at code
  have ready := h.quiet (D := []) code rfl (.refl _ _) (by simp) (by simp)
  rw [there, List.length_singleton] at ready
  rw [State.add_size, List.length_singleton]
  exact ready

theorem switchTo_law {b : BlockName} {u : Unit} (h : Asm.switchTo b t = .ok (u, t')) :
    (X.model F).le t t' ∧ (∀ {K O}, Shape F t K (b :: O) → Shape F t' K O) ∧
    ((X.model F).placed t t' → ∀ {K O σ c}, Shape F t K (b :: O) →
      X.Located F (.block b) t K σ c → (X.model F).Turns .here K t t' σ c) := by
  cases emit_ok.mp h
  refine ⟨⟨_, (State.add_code _ _).symm⟩, place_shape, fun placed K O σ c shape h => ?_⟩
  have ready := h.toReady.enter shape placed h.at_
  exact ⟨_, ⟨ready, h.store, h.room, h.sp, rfl⟩, kept_quiet (.refl [] _) K,
    fun q y hq => hq, fun q n hq => hq⟩

theorem merge_law {join : BlockName} {v : Reg} (h : Asm.merge join t = .ok (v, t')) :
    (X.model F).le t t' ∧ v ≠ .t1 ∧
    (∀ {K O}, Shape F t K (join :: O) → Shape F t' K O) ∧
    ((X.model F).placed t t' → ∀ {K O σ c x} {arm : Unit}, Shape F t K (join :: O) →
      X.Located F (.arm join arm x) t K σ c →
      (X.model F).Moves K t' σ c fun c' => (X.model F).value t' c' v x) := by
  obtain ⟨rfl, rfl⟩ := merge_ok h
  refine ⟨⟨_, (State.add_code _ _).symm⟩, by decide, place_shape,
    fun placed K O σ c x arm shape h => ?_⟩
  have ready := h.toReady.enter shape placed h.at_.1
  exact ⟨_, ⟨ready, h.store, h.room, h.sp, rfl⟩, kept_quiet (.refl [] _) K, by decide, h.at_.2⟩

theorem Ready.jump {b : BlockName} (h : X.Ready c)
    (code : X.Code c.config.pc (.goto (.block b) :: I)) :
    X.Ready ⟨c.seen, ⟨X.site.position b, c.config.cpu⟩, c.view⟩ :=
  ⟨run_goto code h.along, h.held, h.image, h.fp, h.self⟩

theorem jump_law {b : BlockName} {u : Unit} (h : Asm.jump b t = .ok (u, t')) :
    (X.model F).Same t t' ∧ ((X.model F).placed t t' → ∀ {K σ c},
      X.Located F .here t K σ c → (X.model F).Turns (.block b) K t t' σ c) := by
  cases emit_ok.mp h
  have adds : Adds t [.goto (.block b)] (t.add [.goto (.block b)]) :=
    adds_add rfl rfl (by simp [Unlabelled])
  refine ⟨same adds rfl, fun placed K σ c h => ?_⟩
  have ready := h.toReady.jump (h.code placed adds.code)
  exact ⟨_, ⟨ready, h.store, h.room, h.sp, rfl⟩, kept_quiet (.refl [] _) K,
    fun q y hq => hq, fun q n hq => hq⟩

theorem intoAcc_run {v : Reg} {x : Val} (h : X.Ready c)
    (code : X.Code c.config.pc (intoAccCode v ++ I)) (rep : c.view.Rep x (c.config.cpu.get v)) :
    ∃ s', X.Ready ⟨c.seen, ⟨c.config.pc + (intoAccCode v).length, s'⟩, c.view⟩ ∧
      c.config.cpu.Agrees [.a0] s' ∧ c.view.Rep x (s'.get .a0) := by
  unfold intoAccCode at code ⊢
  by_cases acc : v = .a0
  · subst acc
    exact ⟨c.config.cpu, h, .refl _ _, rep⟩
  · rw [if_neg acc] at code ⊢
    have agree : c.config.cpu.Agrees [.a0] (c.config.cpu.set .a0 (c.config.cpu.get v)) :=
      (Cpu.Agrees.refl _ _).set (by simp) _
    refine ⟨_, h.quiet code.take rfl agree (by simp) (by simp), agree, ?_⟩
    rw [Cpu.get_set_self _ _ (by decide)]
    exact rep

theorem closeArm_law {v : Reg} {join : BlockName} {arm : Unit}
    (h : Asm.closeArm v join t = .ok (arm, t')) :
    (X.model F).Same t t' ∧ ((X.model F).placed t t' → ∀ {K σ c x},
      X.Located F .here t K σ c → (X.model F).value t c v x →
      ∃ c', X.Located F (.arm join arm x) t' K σ c' ∧ (X.model F).Kept K c c') := by
  cases closeArm_ok h
  have adds : Adds t _ (t.add (intoAccCode v ++ [.goto (.block join)])) :=
    adds_add rfl rfl ((intoAccCode_unlabelled v).append (by simp [Unlabelled]))
  refine ⟨same adds rfl, fun placed K σ c x h value => ?_⟩
  have code := h.code placed adds.code
  obtain ⟨s', ready, agree, rep⟩ := intoAcc_run h.toReady code value.2
  have ready' := ready.jump code.drop
  refine ⟨_, ⟨ready', h.store, h.room, ?_, rfl, rep⟩, kept_quiet agree K⟩
  exact (agree.2 _ (by simp)).trans h.sp

theorem relation_branchCond (op : Relop) : (Asm.branchCond op).relation? = some op := by
  cases op <;> rfl

theorem branch_law {op : Relop} {a b : Operand} {yes no : BlockName} {u : Unit}
    (h : Asm.branchRaw op a b yes no t = .ok (u, t')) :
    (X.model F).Same t t' ∧ ((X.model F).placed t t' → ∀ {r : Reg}, a = .reg r →
      ∀ {K σ c} {taken : Bool}, X.Located F .here t K σ c →
      holds op (c.config.cpu.get r).toInt (c.config.cpu.operand b).toInt = taken →
      (X.model F).Turns (.block (if taken then yes else no)) K t t' (σ.log (.branch taken)) c) := by
  obtain ⟨q, mid, first, rfl⟩ := branchRaw_ok h
  constructor
  · obtain ⟨I, adds, frame⟩ := inReg_adds first
    exact same (Adds.trans adds (adds_add rfl rfl (by simp [Unlabelled]))) frame
  · rintro placed r rfl K σ c taken located test
    rcases inReg_ok.mp first with ⟨same, rfl⟩ | ⟨_, other, _⟩
    · cases same
      have code := located.code placed (State.add_code _ _)
      have along := run_branch code (relation_branchCond op) test located.along
      have ready : X.Ready ⟨c.seen ++ [.branch taken],
          ⟨if taken then X.site.position yes else c.config.pc + 1, c.config.cpu⟩,
          c.view.log (.branch taken)⟩ :=
        ⟨along, located.held.log _, located.image, located.fp, located.self⟩
      have there : X.Ready ⟨c.seen ++ [.branch taken],
          ⟨X.site.position (if taken then yes else no), c.config.cpu⟩,
          c.view.log (.branch taken)⟩ := by
        cases taken with
        | true => exact ready
        | false => exact ready.jump code.tail
      have grown := c.view.extends_log (.branch taken)
      refine ⟨_, ⟨there, ?_, located.room, located.sp, rfl⟩, ?_, fun q y hq => ?_,
        fun q n hq => hq⟩
      · rw [← located.store]
        rfl
      · exact kept_grown grown (fun _ _ => rfl) K
      · exact ⟨hq.1, View.Rep.mono grown hq.2⟩
    · cases other

theorem branchSame_law {a b : Reg} {yes no : BlockName} {u : Unit}
    (h : Asm.branchRaw .eq (.reg a) (.reg b) yes no t = .ok (u, t')) :
    (X.model F).Same t t' ∧ ((X.model F).placed t t' → ∀ {K σ c x y},
      X.Located F .here t K σ c → c.view.Rep x (c.config.cpu.get a) →
      c.view.Rep y (c.config.cpu.get b) →
      (X.model F).Turns (.block (if x = y then yes else no)) K t t'
        (σ.log (.branch (x = y))) c) := by
  obtain ⟨same, run⟩ := branch_law h
  refine ⟨same, fun placed K σ c x y h hx hy => ?_⟩
  have test : holds .eq (c.config.cpu.get a).toInt (c.config.cpu.operand (.reg b)).toInt =
      decide (x = y) := by
    rw [holds, beq_eq_decide, decide_eq_decide, BitVec.toInt_inj]
    exact h.held.rep_eq_iff hx hy
  have turns := run placed rfl h test
  simpa only [decide_eq_true_eq] using turns

theorem control : (X.model F).Control where
  newBlock h := newBlock_law h
  switchTo h := switchTo_law h
  jump := by
    intro b t t' h
    obtain ⟨same, run⟩ := jump_law h
    exact ⟨same, fun placed K O σ c _ located => run placed located⟩
  branchRaw := by
    intro op a b yes no t t' h
    obtain ⟨same, run⟩ := branch_law h
    refine ⟨same, ?_⟩
    rintro placed ⟨r, rfl⟩ K O σ c n m _ located left right
    refine run placed rfl located ?_
    change holds op (c.config.cpu.operand (.reg r)).toInt _ = _
    rw [left, right]
  branchVoid := by
    intro v yes no t t' h
    obtain ⟨same, run⟩ := branchSame_law (b := .zero) h
    exact ⟨same, fun placed K O σ c x _ located value => run placed located value.2 rfl⟩
  branchSame := by
    intro a b yes no t t' h
    obtain ⟨same, run⟩ := branchSame_law h
    exact ⟨same, fun placed K O σ c x y _ located left right =>
      run placed located left.2 right.2⟩
  closeArm := by
    intro v join t arm t' h
    obtain ⟨same, run⟩ := closeArm_law h
    exact ⟨same, trivial, fun _ _ => trivial, fun placed K O σ c x _ located value =>
      run placed located value⟩
  merge := by
    intro arms join t v t' h
    obtain ⟨le, result, shape, run⟩ := merge_law h
    exact ⟨le, result, shape, fun placed _ K O σ c arm x known _ located =>
      run placed known located⟩

end Scenario

end ClassBackend.Mips
