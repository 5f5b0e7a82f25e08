import ClassBackend.Proofs.Lowering.Steps

/-! Branches, joins, calls and aborts in step with an evaluation. A machine that has branched waits
at its block while the code of the other blocks is laid down. -/
namespace ClassBackend.Lowering

open Meaning

variable {B : Backend} {M : Model B} {S : Setting} {β : Type} {Z : Scene B}
variable {n : Nat} {H : List (B.Saved × Val)} {p : Spot B}
variable {vs : List (B.Value × Val)} {rs : List (B.Raw × Int)}

theorem Model.Stands.turn {names : List (String × Binding B.Local)} {slots : List (Slot B)}
    {s : Session B} {t : B.State} {w : World} {c : M.Config} {σ : Store} {q : Spot B}
    (h : M.Stands n names slots H p vs rs s w c) (live : Live names slots H)
    (turns : M.Turns q slots s.target t σ c) :
    ∃ c', M.Stands n names slots H q vs rs { s with target := t } { w with store := σ } c' := by
  obtain ⟨c', located, kept, values, raws⟩ := turns
  exact ⟨c', h.move live located kept (fun e he => values _ _ (h.values e he))
    fun e he => raws _ _ (h.raws e he)⟩

theorem newBlock_sim (law : M.Lawful S) (hint : String) :
    Sim M (M.Sets Z) (M.Stands n Z.names Z.slots H p vs rs) (target (B.newBlock hint)) (pure ())
      (fun b => M.Sets { Z with opened := b :: Z.opened })
      fun _ _ => M.Stands n Z.names Z.slots H p vs rs := by
  refine .ofTarget (fun run hs => ?_) (fun run hs placed _ w c hw => ?_)
  · obtain ⟨grown, shape, _⟩ := law.newBlock run
    exact ⟨grown, hs.retarget law.toOrdered grown (shape hs.shape)⟩
  · obtain ⟨grown, _, moves⟩ := law.newBlock run
    exact ⟨c, moves hw.located, hw.room, hw.env, hw.saved,
      fun e he => law.value grown (hw.values e he), fun e he => law.raw grown (hw.raws e he)⟩

theorem switchTo_lays (law : M.Lawful S) {b : BlockName} {O : List BlockName}
    (hO : Z.opened.Perm (b :: O)) :
    Lays M (M.Sets Z) (target (B.switchTo b)) fun _ => M.Sets { Z with opened := O } := by
  refine .ofTarget fun run hs => ?_
  obtain ⟨grown, shape, _⟩ := law.switchTo run
  exact ⟨grown, hs.retarget law.toOrdered grown (shape (law.perm hO hs.shape))⟩

theorem switchTo_sim (law : M.Lawful S) {b : BlockName}
    {O : List BlockName} (live : Live Z.names Z.slots H) (hO : Z.opened.Perm (b :: O)) :
    Sim M (M.Sets Z) (M.Stands n Z.names Z.slots H (.block b) vs rs) (target (B.switchTo b))
      (pure ()) (fun _ => M.Sets { Z with opened := O })
      fun _ _ => M.Stands n Z.names Z.slots H .here vs rs := by
  refine ⟨switchTo_lays law hO, fun s _ s' run hs placed w c hw => ?_⟩
  obtain ⟨t, step, rfl⟩ := target_ok.mp run
  obtain ⟨_, _, turns⟩ := law.switchTo step
  exact hw.turn live (turns placed.1 (law.perm hO hs.shape) hw.located)

theorem jump_sim (law : M.Lawful S) (live : Live Z.names Z.slots H) (b : BlockName) :
    Sim M (M.Sets Z) (M.Stands n Z.names Z.slots H .here vs rs) (target (B.jump b))
      (pure ()) (fun _ => M.Sets Z) fun _ _ => M.Stands n Z.names Z.slots H (.block b) vs rs := by
  refine .ofTarget (fun run hs => ?_) (fun run hs placed _ w c hw => ?_)
  · obtain ⟨same, _⟩ := law.jump run
    exact ⟨same.1, hs.same law.toOrdered same⟩
  · obtain ⟨_, turns⟩ := law.jump run
    exact hw.turn live (turns placed hs.shape hw.located)

theorem branchRaw_sim (law : M.Lawful S) (live : Live Z.names Z.slots H) (op : Relop)
    {a b : B.Raw} {i j : Int} (ha : (a, i) ∈ rs) (hb : (b, j) ∈ rs) (loaded : M.loaded a)
    (yes no : BlockName) :
    Sim M (M.Sets Z) (M.Stands n Z.names Z.slots H .here vs rs)
      (target (B.branchRaw op a b yes no)) (decided (holds op i j)) (fun _ => M.Sets Z)
      fun _ _ =>
        M.Stands n Z.names Z.slots H (.block (if holds op i j then yes else no)) vs rs := by
  refine .ofTarget (fun run hs => ?_) (fun run hs placed _ w c hw => ?_)
  · obtain ⟨same, _⟩ := law.branchRaw run
    exact ⟨same.1, hs.same law.toOrdered same⟩
  · obtain ⟨_, turns⟩ := law.branchRaw run
    exact hw.turn live
      (turns placed loaded hs.shape hw.located (hw.raws _ ha) (hw.raws _ hb))

theorem branchVoid_sim (law : M.Lawful S) {v : B.Value} {x : Val} (live : Live Z.names Z.slots H)
    (hv : (v, x) ∈ vs) (yes no : BlockName) :
    Sim M (M.Sets Z) (M.Stands n Z.names Z.slots H .here vs rs)
      (target (B.branchVoid v yes no)) (decided (x = .void)) (fun _ => M.Sets Z)
      fun _ _ => M.Stands n Z.names Z.slots H (.block (if x = .void then yes else no)) vs rs := by
  refine .ofTarget (fun run hs => ?_) (fun run hs placed _ w c hw => ?_)
  · obtain ⟨same, _⟩ := law.branchVoid run
    exact ⟨same.1, hs.same law.toOrdered same⟩
  · obtain ⟨_, turns⟩ := law.branchVoid run
    exact hw.turn live (turns placed hs.shape hw.located (hw.values _ hv))

theorem branchSame_sim (law : M.Lawful S) {v u : B.Value}
    {x y : Val} (live : Live Z.names Z.slots H) (hv : (v, x) ∈ vs) (hu : (u, y) ∈ vs)
    (yes no : BlockName) :
    Sim M (M.Sets Z) (M.Stands n Z.names Z.slots H .here vs rs)
      (target (B.branchSame v u yes no)) (decided (x = y)) (fun _ => M.Sets Z)
      fun _ _ => M.Stands n Z.names Z.slots H (.block (if x = y then yes else no)) vs rs := by
  refine .ofTarget (fun run hs => ?_) (fun run hs placed _ w c hw => ?_)
  · obtain ⟨same, _⟩ := law.branchSame run
    exact ⟨same.1, hs.same law.toOrdered same⟩
  · obtain ⟨_, turns⟩ := law.branchSame run
    exact hw.turn live (turns placed hs.shape hw.located (hw.values _ hv) (hw.values _ hu))

theorem closeArm_lays (law : M.Lawful S) (v : B.Value) (join : BlockName) :
    Lays M (M.Sets Z) (target (B.closeArm v join))
      fun a => M.Sets { Z with arms := Z.arms ++ [a] } := by
  refine .ofTarget fun run hs => ?_
  obtain ⟨same, shut, apart, _⟩ := law.closeArm run
  have hs' := hs.same law.toOrdered same
  refine ⟨same.1, hs'.shows, hs'.shape, hs'.pooled, ?_, ?_⟩
  · intro a ha
    rcases List.mem_append.mp ha with ha | ha
    · exact hs'.shut a ha
    · cases List.mem_singleton.mp ha
      exact shut
  · refine List.pairwise_append.mpr ⟨hs.apart, List.pairwise_singleton _ _, ?_⟩
    intro a ha b hb
    cases List.mem_singleton.mp hb
    exact apart hs.shape (hs.shut a ha)

theorem closeArm_sim (law : M.Lawful S) {v : B.Value} {x : Val} (live : Live Z.names Z.slots H)
    (hv : (v, x) ∈ vs) (join : BlockName) :
    Sim M (M.Sets Z) (M.Stands n Z.names Z.slots H .here vs rs) (target (B.closeArm v join))
      (pure ()) (fun a => M.Sets { Z with arms := Z.arms ++ [a] })
      fun a _ => M.Stands n Z.names Z.slots H (.arm join a x) [] [] := by
  refine ⟨closeArm_lays law v join, fun s _ s' run hs placed w c hw => ?_⟩
  obtain ⟨t, step, rfl⟩ := target_ok.mp run
  obtain ⟨_, _, _, moves⟩ := law.closeArm step
  obtain ⟨c', located, kept⟩ := moves placed.1 hs.shape hw.located (hw.values _ hv)
  exact ⟨c', hw.move live located kept (by simp) (by simp)⟩

theorem merge_lays (law : M.Lawful S) {join : BlockName} {arms : List B.Arm} {O : List BlockName}
    (hO : Z.opened.Perm (join :: O)) :
    Lays M (M.Sets Z) (target (B.merge arms join))
      fun v s => M.Sets { Z with opened := O } s ∧ M.result v := by
  refine .ofTarget fun run hs => ?_
  obtain ⟨grown, result, shape, _⟩ := law.merge run
  exact ⟨grown, hs.retarget law.toOrdered grown (shape (law.perm hO hs.shape)), result⟩

theorem merge_sim (law : M.Lawful S) {join : BlockName}
    {arms : List B.Arm} {arm : B.Arm} {x : Val} {O : List BlockName} (live : Live Z.names Z.slots H)
    (hO : Z.opened.Perm (join :: O)) (part : arms.Sublist Z.arms) (mem : arm ∈ arms) :
    Sim M (M.Sets Z) (M.Stands n Z.names Z.slots H (.arm join arm x) vs rs)
      (target (B.merge arms join)) (pure ())
      (fun v s => M.Sets { Z with opened := O } s ∧ M.result v)
      fun v _ => M.Stands n Z.names Z.slots H .here [(v, x)] [] := by
  refine ⟨merge_lays law hO, fun s _ s' run hs placed w c hw => ?_⟩
  obtain ⟨t, step, rfl⟩ := target_ok.mp run
  obtain ⟨_, _, _, moves⟩ := law.merge step
  obtain ⟨c', here, kept, hv⟩ :=
    moves placed.1 (hs.apart.sublist part) (law.perm hO hs.shape) mem hw.located
  exact ⟨c', hw.move live here kept (by simpa using hv) (by simp)⟩

theorem allocate_sim (law : M.Lawful S) {k : ClassLayout} (live : Live Z.names Z.slots H)
    (mem : k ∈ S.classes.classes) :
    Sim M (M.Sets Z) (M.Stands n Z.names Z.slots H .here vs rs) (target (B.allocate k))
      (Meaning.allocate k.tag (List.replicate k.fields.length .unset)) (fun _ => M.Sets Z)
      fun v x => M.Stands n Z.names Z.slots H .here [(v, x)] [] := by
  refine .ofTarget (fun run hs => ?_) (fun run hs placed _ w c hw => ?_)
  · obtain ⟨same, _⟩ := law.allocate run
    exact ⟨same.1, hs.same law.toOrdered same⟩
  · obtain ⟨_, moves⟩ := law.allocate run
    obtain ⟨c', here, kept, hv⟩ := moves placed mem hs.shape hw.located
    exact ⟨c', hw.move live here kept (by simpa using hv) (by simp)⟩

theorem answered_outcome {K : List (Slot B)} {t : B.State} {σ : Store} {c : M.Config}
    {label : String} {recv : Val} {args : List Val} {v : B.Value} {w : World}
    {Q : Val → World → Prop} (wrong : M.ends .wrong)
    (h : M.Answered S K t σ c label recv args v) (store : w.store = σ)
    (k : ∀ σ' c' x, M.located .here t K σ' c' → M.Kept K c c' → M.value t c' v x →
      Q x { w with store := σ' }) :
    Outcome M.ends (invoke S label recv args w) Q := by
  subst store
  unfold invoke
  by_cases takes : S.takes label args.length = true
  swap
  · rw [if_neg takes]
    exact wrong
  rw [if_pos takes]
  refine Outcome.bind ?_
  have h := h takes
  cases answer : S.oracle.call label recv args (w.store.log (.call label recv args)) with
  | none =>
    simp only [log, answer, Outcome] at h ⊢
    exact h
  | some y =>
    obtain ⟨x, heap⟩ := y
    simp only [log, answer, Outcome] at h ⊢
    obtain ⟨c', here, kept, hv⟩ := h
    exact k _ c' x here kept hv

theorem callInit_sim (law : M.Lawful S) {k : ClassLayout} {v : B.Value} {x : Val}
    (live : Live Z.names Z.slots H)
    (hv : (v, x) ∈ vs) :
    Sim M (M.Sets Z) (M.Stands n Z.names Z.slots H .here vs rs) (target (B.callInit k v))
      (invoke S (Linkage.initializer k.name) x []) (fun u s => M.Sets Z s ∧ M.result u)
      fun u y => M.Stands n Z.names Z.slots H .here [(u, y)] [] := by
  refine .ofTarget (fun run hs => ?_) (fun run hs placed _ w c hw => ?_)
  · obtain ⟨same, result, _⟩ := law.callInit run
    exact ⟨same.1, hs.same law.toOrdered same, result⟩
  · obtain ⟨_, _, answers⟩ := law.callInit run
    refine answered_outcome law.wrong (answers placed hs.shape hw.located (hw.values _ hv)) rfl ?_
    intro σ c' y here kept hu
    exact ⟨c', hw.move live here kept (by simpa using hu) (by simp)⟩

theorem newSelfType_sim (law : M.Lawful S) (live : Live Z.names Z.slots H)
    (tagged : ∀ tag k, S.classes.atTag tag = .ok k → k ∈ S.classes.classes ∧ k.tag = tag) :
    Sim M (M.Sets Z) (M.Stands (n + 1) Z.names Z.slots H .here vs rs) (target B.newSelfType)
      (do
        let o ← object (.obj S.self)
        create S (← Meaning.ofExcept (S.classes.atTag o.tag)))
      (fun u s => M.Sets Z s ∧ M.result u)
      fun u y => M.Stands (n + 1) Z.names Z.slots H .here [(u, y)] [] := by
  refine .ofTarget (fun run hs => ?_) (fun run hs placed _ w c hw => ?_)
  · obtain ⟨same, result, _⟩ := law.newSelfType run
    exact ⟨same.1, hs.same law.toOrdered same, result⟩
  · obtain ⟨_, _, answers⟩ := law.newSelfType run
    refine Outcome.bind (object_outcome law.wrong fun r o self found => ?_)
    cases self
    refine Outcome.bind ?_
    cases hk : S.classes.atTag o.tag with
    | error e => exact law.wrong
    | ok k =>
      obtain ⟨mem, tag⟩ := tagged _ _ hk
      have room := hw.room
      refine Outcome.bind (Outcome.bind ?_)
      change Outcome M.ends (invoke S _ (.obj w.store.heap.length) [] { w with store := _ }) _
      refine answered_outcome law.wrong
        (answers placed mem hs.shape (by omega) hw.located found tag.symm) rfl ?_
      intro σ c' y here kept hu
      exact ⟨c', hw.move live here kept (by simpa using hu) (by simp)⟩

theorem callEquality_sim (law : M.Lawful S) {v u : B.Value}
    {x y : Val} (live : Live Z.names Z.slots H) (hv : (v, x) ∈ vs) (hu : (u, y) ∈ vs)
    (differ : x ≠ y) :
    Sim M (M.Sets Z) (M.Stands n Z.names Z.slots H .here vs rs) (target (B.callEquality v u))
      (ask S x y) (fun r s => M.Sets Z s ∧ M.loaded r)
      fun r b => M.Stands n Z.names Z.slots H .here [] [(r, if b then 1 else 0)] := by
  refine .ofTarget (fun run hs => ?_) (fun run hs placed _ w c hw => ?_)
  · obtain ⟨same, loaded, _⟩ := law.callEquality run
    exact ⟨same.1, hs.same law.toOrdered same, loaded⟩
  · obtain ⟨_, _, moves⟩ := law.callEquality run
    obtain ⟨c', here, kept, hr⟩ :=
      moves placed hs.shape hw.located (hw.values _ hv) (hw.values _ hu) differ
    exact ⟨c', hw.move live here kept (by simp) (by simpa using hr)⟩

theorem abort_lays (law : M.Lawful S) (kind : AbortKind) (file : Const) (line : UInt64) :
    Lays M (M.Sets Z) (target (B.abort kind file line)) fun _ => M.Sets Z :=
  .same law.toOrdered fun run => (law.abort run).1

theorem abort_sim (law : M.Lawful S) {kind : AbortKind} {file : Const} {line : UInt64}
    (known : (file, .str S.current.fileName) ∈ Z.pooled) :
    Sim M (M.Sets Z) (M.Stands n Z.names Z.slots H .here vs rs) (target (B.abort kind file line))
      (Meaning.abort S kind line : Eval β) (fun _ => M.Sets Z) fun _ _ _ _ _ => False := by
  refine ⟨abort_lays law kind file line, fun s _ s' run hs placed w c hw => ?_⟩
  obtain ⟨t, step, rfl⟩ := target_ok.mp run
  obtain ⟨_, stops⟩ := law.abort step
  refine Outcome.bind (?_ : Outcome _ (halt _) _)
  exact stops placed.1 hs.shape hw.located ((hs.pooled _ known).mono placed.2)

end ClassBackend.Lowering
