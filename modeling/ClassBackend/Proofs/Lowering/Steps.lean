import ClassBackend.Proofs.Lowering.Simulation

/-! The operations of a backend in step with an evaluation: every law of a model as a judgement
about a session. -/
namespace ClassBackend.Lowering

open Meaning

variable {B : Backend} {M : Model B} {S : Setting} {α β : Type} {Z : Scene B}
variable {n : Nat} {H : List (B.Saved × Val)} {p : Spot B}
variable {vs : List (B.Value × Val)} {rs : List (B.Raw × Int)}

theorem Model.Sets.retarget {s : Session B} (h : M.Sets Z s) (ho : M.Ordered S) {t : B.State}
    {K : List (Slot B)} {O : List BlockName} (grown : M.le s.target t) (shape : M.shape t K O) :
    M.Sets { Z with slots := K, opened := O } { s with target := t } where
  shows := h.shows
  shape := shape
  pooled := h.pooled
  shut a ha := ho.shut grown (h.shut a ha)
  apart := h.apart

theorem Model.Sets.same {s : Session B} (h : M.Sets Z s) (ho : M.Ordered S) {t : B.State}
    (same : M.Same s.target t) : M.Sets Z { s with target := t } :=
  h.retarget ho same.1 (same.2 h.shape)

theorem Model.Sets.trim {s : Session B} (h : M.Sets Z s) {C : List (Const × Literal)}
    {D : List B.Arm} (pooled : C ⊆ Z.pooled) (arms : D.Sublist Z.arms) :
    M.Sets { Z with pooled := C, arms := D } s where
  shows := h.shows
  shape := h.shape
  pooled e he := h.pooled e (pooled he)
  shut a ha := h.shut a (arms.subset ha)
  apart := h.apart.sublist arms

theorem means_kept {names : List (String × Binding B.Local)} {env : Env} {c c' : M.Config}
    (h : List.Forall₂ (M.Means c) names env)
    (kept : ∀ a ∈ locals names, ∀ x, M.slot c (.inl a) x → M.slot c' (.inl a) x) :
    List.Forall₂ (M.Means c') names env := by
  induction h with
  | nil => exact .nil
  | @cons e y names env hx _ ih =>
    obtain ⟨name, b⟩ := e
    obtain ⟨m, y⟩ := y
    refine .cons ?_ (ih fun a ha => kept a ?_)
    · cases b with
      | field i => cases y with
        | field j => exact hx
        | stack v => exact hx.elim
      | stack a => cases y with
        | field j => exact hx.elim
        | stack v => exact ⟨hx.1, kept a (by simp [locals]) v hx.2⟩
    · obtain ⟨e, he, same⟩ := List.mem_filterMap.mp ha
      exact List.mem_filterMap.mpr ⟨e, List.mem_cons_of_mem _ he, same⟩

theorem Model.Stands.move {names : List (String × Binding B.Local)} {slots : List (Slot B)}
    {s s' : Session B} {w : World} {c c' : M.Config} {σ : Store} {q : Spot B}
    {vs' : List (B.Value × Val)} {rs' : List (B.Raw × Int)}
    (h : M.Stands n names slots H p vs rs s w c) (live : Live names slots H)
    (located : M.located q s'.target slots σ c') (kept : M.Kept slots c c')
    (values : ∀ e ∈ vs', M.value s'.target c' e.1 e.2)
    (raws : ∀ e ∈ rs', M.raw s'.target c' e.1 e.2) :
    M.Stands n names slots H q vs' rs' s' { w with store := σ } c' where
  located := located
  room := h.room
  env := means_kept h.env fun a ha => kept _ (live.locals a ha)
  saved e he := kept _ (live.saved e he) _ (h.saved e he)
  values := values
  raws := raws

theorem Sim.ofTarget {pre : Session B → Prop} {P : Session B → World → M.Config → Prop}
    {m : Emit B.State α} {ε : Eval β} {post : α → Session B → Prop}
    {Q : α → β → Session B → World → M.Config → Prop}
    (lays : ∀ {s a t}, m s.target = .ok (a, t) → pre s →
      M.le s.target t ∧ post a { s with target := t })
    (runs : ∀ {s a t}, m s.target = .ok (a, t) → pre s → M.placed s.target t →
      PoolLe s.pool M.pool → ∀ {w c}, P s w c →
      Outcome M.ends (ε w) fun x w' => ∃ c', Q a x { s with target := t } w' c') :
    Sim M pre P (target m) ε post Q := by
  refine ⟨fun s a s' run hs => ?_, fun s a s' run hs placed w c hw => ?_⟩
  · obtain ⟨t, ht, rfl⟩ := target_ok.mp run
    obtain ⟨grown, ha⟩ := lays ht hs
    exact ⟨⟨grown, PoolLe.refl _⟩, ha⟩
  · obtain ⟨t, ht, rfl⟩ := target_ok.mp run
    exact runs ht hs placed.1 placed.2 hw

theorem Lays.ofTarget {pre : Session B → Prop} {m : Emit B.State α} {post : α → Session B → Prop}
    (lays : ∀ {s a t}, m s.target = .ok (a, t) → pre s →
      M.le s.target t ∧ post a { s with target := t }) : Lays M pre (target m) post := by
  intro s a s' run hs
  obtain ⟨t, ht, rfl⟩ := target_ok.mp run
  obtain ⟨grown, ha⟩ := lays ht hs
  exact ⟨⟨grown, PoolLe.refl _⟩, ha⟩

theorem Lays.same (ho : M.Ordered S) {m : Emit B.State α}
    (h : ∀ {t a t'}, m t = .ok (a, t') → M.Same t t') :
    Lays M (M.Sets Z) (target m) fun _ => M.Sets Z :=
  .ofTarget fun run hs => ⟨(h run).1, hs.same ho (h run)⟩

theorem Sim.skip (ho : M.Ordered S) {pre : Session B → Prop} {m : Lowering B α}
    {post : α → Session B → Prop} {names : List (String × Binding B.Local)}
    {slots : List (Slot B)} (away : p ≠ .here) (h : Lays M pre m post) :
    Sim M pre (M.Stands n names slots H p vs rs) m (pure ()) post
      fun _ _ => M.Stands n names slots H p vs rs := by
  refine ⟨h, fun s a s' run hs _ w c hw => ?_⟩
  obtain ⟨⟨grown, _⟩, _⟩ := h run hs
  exact ⟨c, ho.waits away grown hw.located, hw.room, hw.env, hw.saved,
    fun e he => ho.value grown (hw.values e he), fun e he => ho.raw grown (hw.raws e he)⟩

theorem pooled_sim (ho : M.Ordered S) {f : Pool → Const × Pool} {l : Literal}
    (hf : ∀ p, PoolLe p (f p).2 ∧ Denotes (f p).2 (f p).1 l) :
    Sim M (M.Sets Z) (M.Stands n Z.names Z.slots H p vs rs) (pooled f) (pure ())
      (fun k => M.Sets { Z with pooled := (k, l) :: Z.pooled })
      fun _ _ => M.Stands n Z.names Z.slots H p vs rs := by
  refine ⟨fun s k s' run hs => ?_, fun s k s' run hs _ w c hw => ?_⟩
  · cases run
    refine ⟨⟨ho.refl, (hf s.pool).1⟩, hs.shows, hs.shape, ?_, hs.shut, hs.apart⟩
    rintro e (_ | ⟨_, he⟩)
    · exact (hf s.pool).2
    · exact (hs.pooled e he).mono (hf s.pool).1
  · cases run
    exact ⟨c, hw.located, hw.room, hw.env, hw.saved, hw.values, hw.raws⟩

theorem constant_sim (law : M.Lawful S) {k : Const} {l : Literal} (live : Live Z.names Z.slots H)
    (hk : ∀ s, M.Sets Z s → Denotes s.pool k l) :
    Sim M (M.Sets Z) (M.Stands n Z.names Z.slots H .here vs rs) (target (B.constant k)) (pure ())
      (fun v s => M.Sets Z s ∧ M.result v)
      fun v _ => M.Stands n Z.names Z.slots H .here [(v, .obj (S.literal l))] [] := by
  refine .ofTarget (fun run hs => ?_) (fun run hs placed pool w c hw => ?_)
  · obtain ⟨same, hr, _⟩ := law.constant run
    exact ⟨same.1, hs.same law.toOrdered same, hr⟩
  · obtain ⟨_, _, moves⟩ := law.constant run
    obtain ⟨c', here, kept, hv⟩ := moves placed hs.shape hw.located ((hk _ hs).mono pool)
    exact ⟨c', hw.move live here kept (by simpa using hv) (by simp)⟩

theorem Live.save {names : List (String × Binding B.Local)} {slots : List (Slot B)}
    (h : Live names slots H) (a : B.Saved) (x : Val) :
    Live names (.inr a :: slots) ((a, x) :: H) where
  locals b hb := List.mem_cons_of_mem _ (h.locals b hb)
  distinct := h.distinct
  saved e he := by
    rcases List.mem_cons.mp he with rfl | he
    · exact List.mem_cons_self ..
    · exact List.mem_cons_of_mem _ (h.saved e he)

theorem preserve_sim (law : M.Lawful S) {v : B.Value} {x : Val} (live : Live Z.names Z.slots H)
    (hv : (v, x) ∈ vs) :
    Sim M (M.Sets Z) (M.Stands (n + 1) Z.names Z.slots H .here vs rs) (target (B.preserve v))
      (pure ()) (fun a => M.Sets { Z with slots := .inr a :: Z.slots })
      fun a _ => M.Stands n Z.names (.inr a :: Z.slots) ((a, x) :: H) .here [] [] := by
  refine .ofTarget (fun run hs => ?_) (fun run hs placed _ w c hw => ?_)
  · obtain ⟨grown, shape, _⟩ := law.preserve run
    exact ⟨grown, hs.retarget law.toOrdered grown (shape hs.shape)⟩
  · obtain ⟨_, _, moves⟩ := law.preserve run
    have room := hw.room
    obtain ⟨c', here, kept, hx⟩ :=
      moves placed hs.shape (by omega) hw.located (hw.values _ hv)
    refine ⟨c', here, by simpa using by omega,
      means_kept hw.env fun a ha => kept _ (live.locals a ha),
      ?_, by simp, by simp⟩
    intro e he
    rcases List.mem_cons.mp he with rfl | he
    · exact hx
    · exact kept _ (live.saved e he) _ (hw.saved e he)

theorem restore_sim (law : M.Lawful S) {a : B.Saved} {x : Val} (live : Live Z.names Z.slots H)
    (hr : ∀ e ∈ vs, M.result e.1) :
    Sim M (M.Sets { Z with slots := .inr a :: Z.slots })
      (M.Stands n Z.names (.inr a :: Z.slots) ((a, x) :: H) .here vs rs) (target (B.restore a))
      (pure ()) (fun _ => M.Sets Z)
      fun v _ => M.Stands (n + 1) Z.names Z.slots H .here ((v, x) :: vs) [] := by
  refine .ofTarget (fun run hs => ?_) (fun run hs placed _ w c hw => ?_)
  · obtain ⟨grown, shape, _⟩ := law.restore run
    exact ⟨grown, hs.retarget law.toOrdered grown (shape hs.shape)⟩
  · obtain ⟨_, _, moves⟩ := law.restore run
    have room := hw.room
    obtain ⟨c', here, kept, hx, results⟩ :=
      moves placed hs.shape hw.located (hw.saved (a, x) (List.mem_cons_self ..))
    refine ⟨c', here, ?_, means_kept hw.env fun b hb => kept _ (live.locals b hb),
      fun e he => kept _ (live.saved e he) _ (hw.saved e (List.mem_cons_of_mem _ he)), ?_, by simp⟩
    · simp only [List.length_cons] at room
      omega
    · intro e he
      rcases List.mem_cons.mp he with rfl | he
      · exact hx
      · exact results _ _ (hr e he) (hw.values e he)

theorem rawWord_sim (law : M.Lawful S) {k : Int} (hk : M.word k) :
    Sim M (M.Sets Z) (M.Stands n Z.names Z.slots H p vs rs) (target (B.rawWord k)) (pure ())
      (fun _ => M.Sets Z) fun r _ => M.Stands n Z.names Z.slots H p vs ((r, k) :: rs) := by
  refine .ofTarget (fun run hs => ?_) (fun run hs placed _ w c hw => ?_)
  · obtain ⟨rfl, _⟩ := law.rawWord run
    exact ⟨law.refl, hs⟩
  · obtain ⟨rfl, value⟩ := law.rawWord run
    refine ⟨c, hw.located, hw.room, hw.env, hw.saved, hw.values, ?_⟩
    intro e he
    rcases List.mem_cons.mp he with rfl | he
    · exact value c hk
    · exact hw.raws e he

theorem object_outcome {ends : Stop → Prop} {x : Val} {w : World} {Q : Obj → World → Prop}
    (wrong : ends .wrong) (h : ∀ r o, x = .obj r → w.store.heap[r]? = some o → Q o w) :
    Outcome ends (object x w) Q := by
  cases x with
  | void => exact wrong
  | obj r =>
    unfold object
    cases found : w.store.heap[r]? with
    | none => simpa [Outcome, found] using wrong
    | some o => simpa [Outcome, found] using h r o rfl found

theorem unbox_outcome {ends : Stop → Prop} {x : Val} {w : World}
    {Q : Int → World → Prop} (wrong : ends .wrong)
    (h : ∀ r o k, x = .obj r → w.store.heap[r]? = some o → o.cells[0]? = some (.word k) → Q k w) :
    Outcome ends (Meaning.unbox x w) Q := by
  refine Outcome.bind (object_outcome wrong fun r o hx found => ?_)
  rcases hcells : o.cells with _ | ⟨_ | _ | k | _, rest⟩
  · exact wrong
  · exact wrong
  · exact wrong
  · exact h r o k hx found (by simp [hcells])
  · exact wrong

theorem unbox_sim (law : M.Lawful S) {cls : ClassLayout} (live : Live Z.names Z.slots H)
    (first : M.Lives → cls.ownStart = 0) {v : B.Value} {x : Val} (hv : (v, x) ∈ vs) :
    Sim M (fun s => M.Sets Z s ∧ ∀ e ∈ rs, M.recent s.target e.1)
      (M.Stands n Z.names Z.slots H .here vs rs) (target (B.unbox v cls)) (Meaning.unbox x)
      (fun r s => (M.Sets Z s ∧ M.recent s.target r) ∧ M.loaded r)
      fun r k => M.Stands n Z.names Z.slots H .here vs ((r, k) :: rs) := by
  refine .ofTarget (fun run hs => ?_) (fun run hs placed _ w c hw => ?_)
  · obtain ⟨same, loaded, recent, _⟩ := law.unbox run
    exact ⟨same.1, ⟨hs.1.same law.toOrdered same, recent⟩, loaded⟩
  · obtain ⟨_, _, _, moves⟩ := law.unbox run
    refine unbox_outcome law.wrong fun r o k hx found cell => ?_
    subst hx
    obtain ⟨c', here, kept, hr, values, raws⟩ :=
      moves placed (first ⟨_, _, _, _, _, hw.located⟩) hs.1.shape hw.located (hw.values _ hv) found
        cell
    refine ⟨c', hw.move live here kept (fun e he => values _ _ (hw.values e he)) ?_⟩
    intro e he
    rcases List.mem_cons.mp he with rfl | he
    · exact hr
    · exact raws _ _ (hs.2 e he) (hw.raws e he)

section

variable {γ δ : Type} {f : B.Raw → Lowering B γ} {g : Int → Eval δ} {post : γ → Session B → Prop}
variable {R : γ → δ → Session B → World → M.Config → Prop}

theorem Sim.unboxed (law : M.Lawful S) {cls : ClassLayout} (live : Live Z.names Z.slots H)
    (first : M.Lives → cls.ownStart = 0) {v : B.Value} {x : Val} (hv : (v, x) ∈ vs)
    (k : ∀ a i, M.loaded a → Sim M (M.Sets Z) (M.Stands n Z.names Z.slots H .here vs [(a, i)])
      (f a) (g i) post R) :
    Sim M (M.Sets Z) (M.Stands n Z.names Z.slots H .here vs []) (target (B.unbox v cls) >>= f)
      (Meaning.unbox x >>= g) post R := by
  refine Sim.bind (S := S) law.toOrdered ((unbox_sim law live first hv).weaken
    (fun s hs => ⟨hs, by simp⟩) (fun _ _ _ h => h) (fun _ _ h => h) (fun _ _ _ _ _ h => h))
    fun a i => .given fun loaded => ?_
  exact (k a i loaded).weaken (fun _ h => h.1) (fun _ _ _ h => h) (fun _ _ h => h)
    (fun _ _ _ _ _ h => h)

theorem Sim.unboxedBoth (law : M.Lawful S) {cls : ClassLayout} (live : Live Z.names Z.slots H)
    (first : M.Lives → cls.ownStart = 0) {v v' : B.Value} {x x' : Val} (hv : (v, x) ∈ vs)
    (hv' : (v', x') ∈ vs) {f : B.Raw → B.Raw → Lowering B γ} {g : Int → Int → Eval δ}
    (k : ∀ a i b j, M.loaded a → M.loaded b →
      Sim M (M.Sets Z) (M.Stands n Z.names Z.slots H .here vs [(b, j), (a, i)])
        (f a b) (g i j) post R) :
    Sim M (M.Sets Z) (M.Stands n Z.names Z.slots H .here vs [])
      (target (B.unbox v cls) >>= fun a => target (B.unbox v' cls) >>= f a)
      (Meaning.unbox x >>= fun i => Meaning.unbox x' >>= g i) post R := by
  refine Sim.bind (S := S) law.toOrdered ((unbox_sim law live first hv).weaken
    (fun s hs => ⟨hs, by simp⟩) (fun _ _ _ h => h) (fun _ _ h => h) (fun _ _ _ _ _ h => h))
    fun a i => .given fun loaded => ?_
  refine Sim.bind (S := S) law.toOrdered ((unbox_sim law live first hv').weaken
    (fun s hs => ⟨hs.1, by simpa using hs.2⟩) (fun _ _ _ h => h) (fun _ _ h => h)
    (fun _ _ _ _ _ h => h)) fun b j => .given fun loaded' => ?_
  exact (k a i b j loaded loaded').weaken (fun _ h => h.1) (fun _ _ _ h => h) (fun _ _ h => h)
    (fun _ _ _ _ _ h => h)

end

theorem compute_outcome {ends : Stop → Prop} {op : ArithOp} {i j : Int} {w : World}
    {Q : Int → World → Prop} (wrong : ends .wrong)
    (h : match S.compute op i j with
      | .result k => Q k w
      | .trap => ends (.trapped w.store.trace)
      | .undefined => True) :
    Outcome ends (Meaning.compute S op i j w) Q := by
  unfold Meaning.compute
  cases hc : S.compute op i j with
  | result k =>
    rw [hc] at h
    exact h
  | trap =>
    rw [hc] at h
    exact h
  | undefined => exact wrong

theorem Model.Stands.computed {names : List (String × Binding B.Local)} {slots : List (Slot B)}
    {s s' : Session B} {w : World} {c : M.Config} {op : ArithOp} {i j : Int} {r : B.Raw}
    (hw : M.Stands n names slots H p vs rs s w c) (live : Live names slots H)
    (wrong : M.ends .wrong)
    (h : M.Computed slots s'.target w.store c r (S.compute op i j)) :
    Outcome M.ends (Meaning.compute S op i j w) fun k w' =>
      ∃ c', M.Stands n names slots H .here [] [(r, k)] s' w' c' := by
  refine compute_outcome wrong ?_
  cases hc : S.compute op i j with
  | result k =>
    rw [hc] at h
    obtain ⟨c', here, kept, hr⟩ := h
    exact ⟨c', hw.move live here kept (by simp) (by simpa using hr)⟩
  | trap =>
    rw [hc] at h
    exact h
  | undefined => trivial

theorem arith_sim (law : M.Lawful S) {op : ArithOp}
    {a b : B.Raw} {i j : Int} (live : Live Z.names Z.slots H) (ha : (a, i) ∈ rs) (hb : (b, j) ∈ rs)
    (loaded : M.loaded a) :
    Sim M (M.Sets Z) (M.Stands n Z.names Z.slots H .here vs rs) (target (B.arith op a b))
      (Meaning.compute S op i j) (fun _ => M.Sets Z)
      fun r k => M.Stands n Z.names Z.slots H .here [] [(r, k)] := by
  refine .ofTarget (fun run hs => ?_) (fun run hs placed _ w c hw => ?_)
  · obtain ⟨same, _⟩ := law.arith run
    exact ⟨same.1, hs.same law.toOrdered same⟩
  · obtain ⟨_, moves⟩ := law.arith run
    exact hw.computed live law.wrong
      (moves placed loaded hs.shape hw.located (hw.raws _ ha) (hw.raws _ hb))

theorem negate_sim (law : M.Lawful S) {a : B.Raw} {i : Int} (live : Live Z.names Z.slots H)
    (ha : (a, i) ∈ rs) (loaded : M.loaded a) :
    Sim M (M.Sets Z) (M.Stands n Z.names Z.slots H .here vs rs) (target (B.negate a))
      (Meaning.compute S .sub 0 i) (fun _ => M.Sets Z)
      fun r k => M.Stands n Z.names Z.slots H .here [] [(r, k)] := by
  refine .ofTarget (fun run hs => ?_) (fun run hs placed _ w c hw => ?_)
  · obtain ⟨same, _⟩ := law.negate run
    exact ⟨same.1, hs.same law.toOrdered same⟩
  · obtain ⟨_, moves⟩ := law.negate run
    exact hw.computed live law.wrong (moves placed loaded hs.shape hw.located (hw.raws _ ha))

theorem boxInt_sim (law : M.Lawful S) {int : ClassLayout} (live : Live Z.names Z.slots H)
    (found : S.classes.find Builtin.intName = .ok int)
    (layout : M.Lives → int.ownStart = 0 ∧ int.fields.length = 1) {a : B.Raw} {i : Int}
    (ha : (a, i) ∈ rs) :
    Sim M (M.Sets Z) (M.Stands n Z.names Z.slots H .here vs rs) (target (B.boxInt a int))
      (Meaning.allocate int.tag [.word i]) (fun v s => M.Sets Z s ∧ M.result v)
      fun v x => M.Stands n Z.names Z.slots H .here [(v, x)] [] := by
  refine .ofTarget (fun run hs => ?_) (fun run hs placed _ w c hw => ?_)
  · obtain ⟨same, result, _⟩ := law.boxInt run
    exact ⟨same.1, hs.same law.toOrdered same, result⟩
  · obtain ⟨_, _, moves⟩ := law.boxInt run
    obtain ⟨first, single⟩ := layout ⟨_, _, _, _, _, hw.located⟩
    obtain ⟨c', here, kept, hv⟩ :=
      moves placed found first single hs.shape hw.located (hw.raws _ ha)
    exact ⟨c', hw.move live here kept (by simpa using hv) (by simp)⟩

theorem loadTag_sim (law : M.Lawful S) {v : B.Value} {x : Val} (live : Live Z.names Z.slots H)
    (hv : (v, x) ∈ vs) :
    Sim M (M.Sets Z) (M.Stands n Z.names Z.slots H .here vs rs) (target (B.loadTag v)) (object x)
      (fun r s => M.Sets Z s ∧ M.loaded r)
      fun r o s w c => M.Stands n Z.names Z.slots H .here vs [(r, (o.tag : Int))] s w c := by
  refine .ofTarget (fun run hs => ?_) (fun run hs placed _ w c hw => ?_)
  · obtain ⟨same, loaded, _⟩ := law.loadTag run
    exact ⟨same.1, hs.same law.toOrdered same, loaded⟩
  · obtain ⟨_, _, moves⟩ := law.loadTag run
    refine object_outcome law.wrong fun r o hx found => ?_
    subst hx
    obtain ⟨c', here, kept, hr, values⟩ := moves placed hs.shape hw.located (hw.values _ hv) found
    exact ⟨c', hw.move live here kept (fun e he => values _ _ (hw.values e he)) (by simpa using hr)⟩

end ClassBackend.Lowering
