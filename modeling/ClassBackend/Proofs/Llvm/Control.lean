import ClassBackend.Proofs.Llvm.Words

/-! Blocks, branches and joins on the machine for LLVM IR. -/
namespace ClassBackend.Llvm

open Meaning Machine Lowering

variable {t t' : State} {K : List (Slot backend)} {O : List BlockName} {N : Nat}
variable {is : List Instr} {last : Bool} {b : BlockName}

theorem newBlock_ok {hint : String} (h : Gen.newBlock hint t = .ok (b, t')) :
    b.id = t.fresh.next ∧ t'.body? = t.body? ∧ t'.fresh.next = t.fresh.next + 1 := by
  simp only [Gen.newBlock, Fresh.block, Except.ok.injEq, Prod.mk.injEq] at h
  obtain ⟨rfl, rfl⟩ := h
  exact ⟨rfl, rfl, rfl⟩

theorem newBlock_le {hint : String} (h : Gen.newBlock hint t = .ok (b, t')) : State.Le t t' := by
  obtain ⟨_, same, next⟩ := newBlock_ok h
  refine ⟨by omega, fun d open_ => ⟨d, ?_, .refl _ d⟩⟩
  rw [same]
  exact open_

theorem newBlock_shape {hint : String} (h : Gen.newBlock hint t = .ok (b, t'))
    (shape : Shape t K O) : Shape t' K (b :: O) := by
  obtain ⟨id, same, next⟩ := newBlock_ok h
  obtain ⟨d, open_, formed, slots, absent⟩ := shape.body
  refine ⟨⟨d, same ▸ open_, formed.mono (by omega), slots, ?_⟩, ?_, ?_⟩
  · intro e he placed
    rcases List.mem_cons.mp he with rfl | old
    · have := formed.labels _ placed
      omega
    · exact absent e old placed
  · intro e he
    rcases List.mem_cons.mp he with rfl | old
    · omega
    · have := shape.opened e old
      omega
  · refine List.nodup_cons.mpr ⟨fun old => ?_, shape.nodup⟩
    have := shape.opened _ old
    omega

theorem switchTo_ok {u : Unit} (h : Gen.switchTo b t = .ok (u, t')) :
    ∃ d, t.body? = some d ∧ t'.body? = some (d.opened (.block b)) ∧ t'.fresh = t.fresh := by
  obtain ⟨d, d', open_, run, there, fresh⟩ := body_ok h
  cases builder_startBlock_ok.mp run
  exact ⟨d, open_, there, fresh⟩

theorem switchTo_le {u : Unit} (h : Gen.switchTo b t = .ok (u, t')) : State.Le t t' := by
  obtain ⟨d, open_, there, fresh⟩ := switchTo_ok h
  refine ⟨Nat.le_of_eq (by rw [fresh]), fun e open' => ⟨_, there, ?_⟩⟩
  cases open_.symm.trans open'
  exact within_opened

theorem switchTo_shape {u : Unit} (h : Gen.switchTo b t = .ok (u, t'))
    (shape : Shape t K (b :: O)) : Shape t' K O := by
  obtain ⟨d, open_, there, fresh⟩ := switchTo_ok h
  obtain ⟨e, open', formed, slots, absent⟩ := shape.body
  cases open_.symm.trans open'
  obtain ⟨distinct, nodup⟩ := List.nodup_cons.mp shape.nodup
  have low := shape.opened b List.mem_cons_self
  have new := absent b List.mem_cons_self
  refine ⟨⟨_, there, ⟨?_, ?_, ?_⟩, slots, ?_⟩, ?_, nodup⟩
  · intro q hq
    rw [Builder.labels_opened, List.mem_append, List.mem_singleton] at hq
    rw [fresh]
    rcases hq with old | same
    · exact formed.labels q old
    · cases same
      exact low
  · rw [Builder.labels_opened]
    exact List.nodup_append.mpr ⟨formed.nodup, List.nodup_singleton _, by
      rintro l hl _ hb rfl
      cases List.mem_singleton.mp hb
      exact new hl⟩
  · rw [fresh]
    exact formed.allocas
  · intro q hq placed
    rw [Builder.labels_opened, List.mem_append, List.mem_singleton] at placed
    rcases placed with old | same
    · exact absent q (List.mem_cons_of_mem _ hq) old
    · cases same
      exact distinct hq
  · intro q hq
    rw [fresh]
    exact shape.opened q (List.mem_cons_of_mem _ hq)

namespace Scenario

variable {X : Scenario} {σ : Store} {c : Point}

theorem newBlock_law {hint : String} (h : Gen.newBlock hint t = .ok (b, t')) {p : Spot backend}
    (located : X.Located p t K σ c) : X.Located p t' K σ c := by
  obtain ⟨_, same, next⟩ := newBlock_ok h
  have le : t.fresh.next ≤ t'.fresh.next := by omega
  refine ⟨located.toReady, located.store, fun v hv => (located.firm v hv).mono le, ?_⟩
  have at_ := located.at_
  cases p with
  | here =>
    change ∃ d, t'.body? = some d ∧ _
    rw [same]
    exact at_
  | block d => exact at_
  | arm join arm x =>
    obtain ⟨there, before, below, rep⟩ := at_
    exact ⟨there, before, below.mono le, rep⟩

theorem Located.open_ {u : Unit} (h : Gen.switchTo b t = .ok (u, t')) (ready : X.Ready c)
    (store : c.view.store = σ) (firm : Firm t K)
    (there : c.config.label = .block b ∧ c.config.index = 0) : X.Located .here t' K σ c := by
  obtain ⟨d, _, open', fresh⟩ := switchTo_ok h
  refine ⟨ready, store, fun v hv => ?_, _, open', there.1, there.2⟩
  rw [fresh]
  exact firm v hv

theorem switchTo_law {u : Unit} (h : Gen.switchTo b t = .ok (u, t'))
    (located : X.Located (.block b) t K σ c) : (X.model N).Turns .here K t t' σ c := by
  obtain ⟨_, _, _, fresh⟩ := switchTo_ok h
  refine ⟨c, .open_ h located.toReady located.store located.firm located.at_, ?_, ?_, ?_⟩
  · exact fun _ _ _ slot => slot
  · intro v x value
    refine ⟨?_, value.2⟩
    rw [fresh]
    exact value.1
  · intro r n raw
    refine ⟨?_, raw.2⟩
    rw [fresh]
    exact raw.1

theorem Ready.enter (h : X.Ready c) {l : Label}
    (code : X.Code c.config.label c.config.index (.br l :: is)) :
    X.Ready ⟨c.seen, c.config.enter l, c.view⟩ :=
  ⟨run_br code h.along, h.held, h.image, h.allocas, h.self⟩

theorem jump_law {u : Unit} (h : Gen.jump b t = .ok (u, t')) :
    (X.model N).Same t t' ∧ (X.Placed t t' → ∀ {K O σ c}, Shape t K O →
      X.Located .here t K σ c → (X.model N).Turns (.block b) K t t' σ c) := by
  have adds := (terminate_adds (by simp [Plain]) h).1
  refine ⟨⟨adds.le, adds.shape⟩, fun placed K O σ c shape located => ?_⟩
  have ready := located.toReady.enter (located.code placed adds shape)
  have firm : Firm t' K := fun v hv => (located.firm v hv).mono adds.next
  refine ⟨_, ⟨ready, located.store, firm, rfl, rfl⟩, fun s _ y slot => ?_, ?_, ?_⟩
  · cases s <;> exact slot
  · exact fun v x value => ⟨value.1.mono adds.next, value.2⟩
  · exact fun r n raw => ⟨raw.1.mono adds.next, raw.2⟩

theorem branchOn_law {op : Relop} {ty : Ty} {x y : Operand} {yes no : BlockName} {u : Unit}
    (h : Gen.branchOn op ty x y yes no t = .ok (u, t')) :
    (X.model N).Same t t' ∧ (X.Placed t t' → ∀ {K O σ c} {taken : Bool}, Shape t K O →
      X.Located .here t K σ c → holds op (X.eval c x).toInt (X.eval c y).toInt = taken →
      (X.model N).Turns (.block (if taken then yes else no)) K t t' (σ.log (.branch taken)) c) := by
  simp only [Gen.branchOn, bind_ok] at h
  obtain ⟨q, t₁, first, second⟩ := h
  obtain ⟨rfl, _, adds₁⟩ := assign_adds first
  have adds := adds₁.trans (terminate_adds (by simp [Plain]) second).1
  refine ⟨⟨adds.le, adds.shape⟩, fun placed K O σ c taken shape located test => ?_⟩
  have code := located.code placed adds shape
  let s := c.config.assign ⟨t.fresh.next⟩ (if taken then 1 else 0)
  have run : X.site.exec [.assign ⟨t.fresh.next⟩ (.compare op ty x y)] c.config = some s := by
    change some (c.config.assign _ (if holds op (X.eval c x).toInt (X.eval c y).toInt then 1
      else 0)) = _
    rw [test]
  have ready := located.toReady.quiet code.take run fun r hr rhs mem =>
    spared placed adds shape r hr rhs (List.mem_append_left _ mem)
  have later : X.Later t c ⟨c.seen, s, c.view⟩ := .quiet run (by simp)
  have chosen : decide (X.site.eval s.temps (.temp ⟨t.fresh.next⟩) ≠ 0) = taken := by
    rw [eval_assign_self]
    cases taken <;> decide
  have along := run_condBr code.drop chosen ready.along
  have grown := c.view.extends_log (.branch taken)
  have there : X.Later t c ⟨c.seen ++ [.branch taken],
      s.enter (if taken then .block yes else .block no), c.view.log (.branch taken)⟩ :=
    ⟨grown, later.temps, later.slots⟩
  have ready' : X.Ready ⟨c.seen ++ [.branch taken],
      s.enter (if taken then .block yes else .block no), c.view.log (.branch taken)⟩ :=
    ⟨along, ready.held.log _, ready.image, ready.allocas, ready.self⟩
  refine ⟨_, ⟨ready', ?_, fun v hv => (located.firm v hv).mono adds.next, ?_⟩,
    there.kept shape adds.le placed located, there.values adds.le, there.raws adds.le⟩
  · rw [← located.store]
    rfl
  · cases taken <;> exact ⟨rfl, rfl⟩

theorem branchSame_law {x y : Operand} {yes no : BlockName} {u : Unit}
    (h : Gen.branchOn .eq .ptr x y yes no t = .ok (u, t')) :
    (X.model N).Same t t' ∧ (X.Placed t t' → ∀ {K O σ c v w}, Shape t K O →
      X.Located .here t K σ c → c.view.Rep v (X.eval c x) → c.view.Rep w (X.eval c y) →
      (X.model N).Turns (.block (if v = w then yes else no)) K t t'
        (σ.log (.branch (v = w))) c) := by
  obtain ⟨same, run⟩ := branchOn_law (X := X) (N := N) h
  refine ⟨same, fun placed K O σ c v w shape located left right => ?_⟩
  have test : holds .eq (X.eval c x).toInt (X.eval c y).toInt = decide (v = w) := by
    rw [holds, beq_eq_decide, decide_eq_decide, BitVec.toInt_inj]
    exact located.held.rep_eq_iff left right
  have turns := run placed shape located test
  simpa only [decide_eq_true_eq] using turns

theorem arm_apart {d : Body} {l : Label} (open_ : t.body? = some d)
    (unclosed : d.current.terminated = false) (shape : Shape t K O)
    (shut : ∃ e, t.body? = some e ∧ e.Shut l) : l ≠ d.current.label := by
  obtain ⟨e, open', k, hk, label, closed⟩ := shut
  cases open_.symm.trans open'
  obtain ⟨e, open'', formed, _, _⟩ := shape.body
  cases open_.symm.trans open''
  rintro rfl
  have nodup := formed.nodup
  rw [Builder.labels_eq, List.nodup_append] at nodup
  rw [Builder.blocks, List.mem_append, List.mem_singleton] at hk
  rcases hk with hk | rfl
  · exact nodup.2.2 _ (List.mem_map_of_mem hk) _ (List.mem_singleton_self _) label
  · rw [unclosed] at closed
    contradiction

theorem closeArm_law {v : Operand} {arm : Operand × Label}
    (h : Gen.closeArm v b t = .ok (arm, t')) :
    (X.model N).Same t t' ∧ (X.model N).shut t' arm ∧
    (∀ {K O a}, Shape t K O → (X.model N).shut t a → (X.model N).apart a arm) ∧
    (X.Placed t t' → ∀ {K O σ c x}, Shape t K O → X.Located .here t K σ c →
      (X.model N).value t c v x →
      ∃ c', X.Located (.arm b arm x) t' K σ c' ∧ (X.model N).Kept K c c') := by
  obtain ⟨jumped, d, open_, rfl⟩ := closeArm_ok h
  have adds := (terminate_adds (by simp [Plain]) jumped).1
  obtain ⟨e, open', unclosed, there⟩ := adds.body
  cases open_.symm.trans open'
  refine ⟨⟨adds.le, adds.shape⟩, ⟨_, there, ?_⟩, fun shape shut =>
    arm_apart open_ unclosed shape shut, fun placed K O σ c x shape located value => ?_⟩
  · exact ⟨_, List.mem_append_right _ (List.mem_singleton_self _), rfl, rfl⟩
  · have ready := located.toReady.enter (located.code placed adds shape)
    obtain ⟨d', open'', label, _⟩ := located.at_
    cases open_.symm.trans open''
    refine ⟨_, ⟨ready, located.store, fun w hw => (located.firm w hw).mono adds.next,
      ⟨rfl, rfl⟩, label, value.1.mono adds.next, value.2⟩, fun s _ y slot => ?_⟩
    cases s <;> exact slot

theorem find_arm {arms : List (Operand × Label)} (apart : arms.Pairwise fun a a' => a.2 ≠ a'.2)
    {arm : Operand × Label} (mem : arm ∈ arms) : arms.find? (·.2 = arm.2) = some arm := by
  induction apart with
  | nil => contradiction
  | @cons a arms first _ ih =>
    rcases List.mem_cons.mp mem with rfl | later
    · simp
    · rw [List.find?_cons_of_neg (by simpa using first arm later)]
      exact ih later

theorem merge_law {arms : List (Operand × Label)} {v : Operand}
    (h : Gen.merge arms b t = .ok (v, t')) :
    State.Le t t' ∧ (∀ {K O}, Shape t K (b :: O) → Shape t' K O) ∧
    (X.Placed t t' → arms.Pairwise (X.model N).apart → ∀ {K O σ c arm x}, Shape t K (b :: O) →
      arm ∈ arms → X.Located (.arm b arm x) t K σ c →
      (X.model N).Moves K t' σ c fun c' => (X.model N).value t' c' v x) := by
  simp only [Gen.merge, bind_ok] at h
  obtain ⟨_, t₁, first, second⟩ := h
  have opens : ∀ {K O}, Shape t K (b :: O) → Shape t₁ K O := switchTo_shape first
  cases arms with
  | nil =>
    obtain ⟨rfl, rfl⟩ := pure_ok.mp second
    exact ⟨switchTo_le first, opens, fun _ _ K O σ c arm x _ mem => absurd mem List.not_mem_nil⟩
  | cons a arms =>
    obtain ⟨rfl, next, adds⟩ := assign_adds second
    refine ⟨(switchTo_le first).trans adds.le, fun shape => adds.shape (opens shape),
      fun placed apart K O σ c arm x shape mem located => ?_⟩
    obtain ⟨_, placed₁⟩ := placed.split (switchTo_le first) adds.le
    obtain ⟨⟨label, index⟩, before, below, rep⟩ := located.at_
    have located₁ : X.Located .here t₁ K σ c :=
      .open_ first located.toReady located.store located.firm ⟨label, index⟩
    have run : X.site.exec [.assign ⟨t₁.fresh.next⟩ (.phi (a :: arms))] c.config =
        some (c.config.assign ⟨t₁.fresh.next⟩ (X.eval c arm.1)) := by
      change (((a :: arms).find? (·.2 = c.config.before)).map _).bind _ = _
      rw [before, find_arm apart mem]
      rfl
    have goes := goes_quiet (Q := fun c' =>
        X.eval c' (.temp ⟨t₁.fresh.next⟩) = X.eval c arm.1 ∧ c'.view = c.view)
      located₁ placed₁ adds (opens shape) run ⟨eval_assign_self _ _ _, rfl⟩
    apply goes.moves (opens shape) adds.le placed₁ located₁
    rintro c' later ⟨value, view⟩
    refine ⟨?_, ?_⟩
    · rw [next]
      exact Nat.lt_succ_self _
    · rw [value, view]
      exact rep

theorem control : (X.model N).Control where
  newBlock h := ⟨newBlock_le h, newBlock_shape h, newBlock_law h⟩
  switchTo h := ⟨switchTo_le h, switchTo_shape h, fun _ _ _ _ _ _ located =>
    switchTo_law h located⟩
  jump h := jump_law h
  branchRaw := by
    intro op a b yes no t t' h
    obtain ⟨same, run⟩ := branchOn_law (X := X) (N := N) h
    refine ⟨same, fun placed _ K O σ c n m shape located left right => ?_⟩
    apply run placed shape located
    rw [left.2, right.2]
  branchVoid := by
    intro v yes no t t' h
    obtain ⟨same, run⟩ := branchSame_law (X := X) (N := N) h
    exact ⟨same, fun placed K O σ c x shape located value =>
      run placed shape located value.2 (w := .void) rfl⟩
  branchSame := by
    intro a b yes no t t' h
    obtain ⟨same, run⟩ := branchSame_law (X := X) (N := N) h
    exact ⟨same, fun placed K O σ c x y shape located left right =>
      run placed shape located left.2 right.2⟩
  closeArm h := closeArm_law h
  merge := by
    intro arms join t v t' h
    obtain ⟨le, shape, run⟩ := merge_law (X := X) (N := N) h
    exact ⟨le, trivial, shape, run⟩

end Scenario

end ClassBackend.Llvm
