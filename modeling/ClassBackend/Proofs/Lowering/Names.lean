import ClassBackend.Proofs.Lowering.Forms

/-! Forms of expression that read, change or extend what is in scope. A name has one meaning for
the lowering, a field of `self` or a slot, and one for the evaluation; the two lists go in
step. -/
namespace ClassBackend.Lowering

open Meaning

variable {B : Backend} {M : Model B} {S : Setting}
variable {l r : Lowering B B.Value} {d e : Nat} {ε η : Eval Val}

theorem means_name {c : M.Config} {n m : String} {b : Binding B.Local} {x : Var}
    (h : M.Means c (n, b) (m, x)) : n = m := by
  cases b with
  | field i => cases x with
    | field j => exact h.1
    | stack v => exact h.elim
  | stack a => cases x with
    | field j => exact h.elim
    | stack v => exact h.1

theorem means_lookup {c : M.Config} {names : List (String × Binding B.Local)} {env : Env}
    (h : List.Forall₂ (M.Means c) names env) {name : String} {b : Binding B.Local}
    (found : names.lookup name = some b) :
    ∃ x, env.lookup name = some x ∧ M.Means c (name, b) (name, x) := by
  induction h with
  | nil => cases found
  | @cons p q names env hx _ ih =>
    obtain ⟨n, b'⟩ := p
    obtain ⟨m, x⟩ := q
    have same : n = m := means_name hx
    subst same
    by_cases own : name = n
    · subst own
      simp only [List.lookup_cons, beq_self_eq_true, Option.some.injEq] at found ⊢
      subst found
      exact ⟨x, rfl, hx⟩
    · have other : (name == n) = false := by simpa using own
      simp only [List.lookup_cons, other] at found ⊢
      exact ih found

theorem mem_locals {names : List (String × Binding B.Local)} {name : String} {a : B.Local}
    (found : names.lookup name = some (.stack a)) : a ∈ locals names := by
  induction names with
  | nil => cases found
  | cons e names ih =>
    obtain ⟨n, b⟩ := e
    by_cases own : name = n
    · subst own
      simp only [List.lookup_cons, beq_self_eq_true, Option.some.injEq] at found
      subst found
      simp [locals]
    · have other : (name == n) = false := by simpa using own
      simp only [List.lookup_cons, other] at found
      obtain ⟨e, he, same⟩ := List.mem_filterMap.mp (ih found)
      exact List.mem_filterMap.mpr ⟨e, List.mem_cons_of_mem _ he, same⟩

theorem binding_ok {Z : Scene B} {name : String} {b : Binding B.Local} {s s' : Session B}
    (run : Lowering.binding name s = .ok (b, s')) (hs : M.Sets Z s) :
    s' = s ∧ Z.names.lookup name = some b := by
  unfold Lowering.binding at run
  split at run
  · contradiction
  · split at run
    · contradiction
    · rename_i sym named
      unfold SymbolTable.lookup at run
      rw [hs.shows.look named] at run
      cases found : Z.names.lookup name with
      | none =>
        rw [found] at run
        contradiction
      | some b' =>
        rw [found] at run
        cases run
        exact ⟨rfl, rfl⟩

theorem Sim.named {β γ : Type} {Z : Scene B} {H : List (B.Saved × Val)} {n : Nat}
    {vs : List (B.Value × Val)} {rs : List (B.Raw × Int)} {name : String}
    {f : Binding B.Local → Lowering B γ} {g : Var → Eval β}
    {post : γ → Session B → Prop} {Q : γ → β → Session B → World → M.Config → Prop}
    (field : ∀ i, Sim M (M.Sets Z) (M.Stands n Z.names Z.slots H .here vs rs) (f (.field i))
      (g (.field i)) post Q)
    (stack : ∀ a x, Z.names.lookup name = some (.stack a) → Sim M (M.Sets Z)
      (fun s w c => M.Stands n Z.names Z.slots H .here vs rs s w c ∧ M.slot c (.inl a) x)
      (f (.stack a)) (g (.stack x)) post Q) :
    Sim M (M.Sets Z) (M.Stands n Z.names Z.slots H .here vs rs) (Lowering.binding name >>= f)
      (var name >>= g) post Q := by
  refine ⟨fun s a s' run hs => ?_, fun s a s' run hs placed w c hw => ?_⟩
  · obtain ⟨b, _, first, second⟩ := bind_ok.mp run
    obtain ⟨rfl, found⟩ := binding_ok first hs
    cases b with
    | field i => exact (field i).lays second hs
    | stack a => exact (stack a .void found).lays second hs
  · obtain ⟨b, _, first, second⟩ := bind_ok.mp run
    obtain ⟨rfl, found⟩ := binding_ok first hs
    obtain ⟨x, bound, means⟩ := means_lookup hw.env found
    refine Outcome.bind ?_
    rw [show var name w = .ok (x, w) by simp only [var, bound]]
    cases b with
    | field i =>
      cases x with
      | field j =>
        cases means.2
        exact (field i).runs second hs placed hw
      | stack v => exact means.elim
    | stack a =>
      cases x with
      | field j => exact means.elim
      | stack v => exact (stack a v found).runs second hs placed ⟨hw, means.2⟩

theorem identifier_realizes (law : M.Lawful S) (name : String) :
    Realizes M (identifier B S.context name) 0 (Meaning.identifier S name) := by
  unfold identifier Meaning.identifier
  by_cases self : name = selfName
  · simp only [self, if_true]
    exact self_realizes law
  intro Z H n live _
  simp only [self, if_false]
  refine .named (fun i => ?_) (fun a x found => ?_)
  · refine .ofTarget (fun run hs => ?_) (fun run hs placed _ w c hw => ?_)
    · obtain ⟨same, result, _⟩ := law.loadField run
      exact ⟨same.1, hs.same law.toOrdered same, result⟩
    · obtain ⟨_, _, moves⟩ := law.loadField run
      simp only [loadAttribute]
      split
      · rename_i v cell
        obtain ⟨c', here, kept, hv⟩ :=
          moves placed hs.shape hw.located (law.self hw.located) cell
        exact ⟨c', hw.move live here kept (by simpa using hv) (by simp)⟩
      · exact law.wrong
  · refine .ofTarget (fun run hs => ?_) (fun run hs placed _ w c hw => ?_)
    · obtain ⟨same, result, _⟩ := law.loadLocal run
      exact ⟨same.1, hs.same law.toOrdered same, result⟩
    · obtain ⟨_, _, moves⟩ := law.loadLocal run
      obtain ⟨c', here, kept, hv⟩ := moves placed hs.shape (live.locals a (mem_locals found))
        hw.1.located hw.2
      exact ⟨c', hw.1.move live here kept (by simpa using hv) (by simp)⟩

theorem means_rebind {c c' : M.Config} {names : List (String × Binding B.Local)} {env : Env}
    (h : List.Forall₂ (M.Means c) names env) {name : String} {a : B.Local} {x : Val}
    (found : names.lookup name = some (.stack a)) (distinct : (locals names).Nodup)
    (others : ∀ b ∈ locals names, b ≠ a → ∀ y, M.slot c (.inl b) y → M.slot c' (.inl b) y)
    (own : M.slot c' (.inl a) x) : List.Forall₂ (M.Means c') names (rebind name x env) := by
  induction h with
  | nil => cases found
  | @cons p q names env hx rest ih =>
    obtain ⟨n, b⟩ := p
    obtain ⟨m, y⟩ := q
    have same : n = m := means_name hx
    subst same
    by_cases this : name = n
    · subst this
      simp only [List.lookup_cons, beq_self_eq_true, Option.some.injEq] at found
      subst found
      simp only [rebind, if_true]
      refine .cons ⟨rfl, own⟩ (means_kept rest fun b hb => others b ?_ ?_)
      · exact List.mem_cons_of_mem _ hb
      · rintro rfl
        exact (List.nodup_cons.mp distinct).1 hb
    · have other : (name == n) = false := by simpa using this
      simp only [List.lookup_cons, other] at found
      simp only [rebind, Ne.symm this, if_false]
      have mem := mem_locals found
      cases b with
      | field i =>
        refine .cons ?_ (ih found distinct others)
        cases y with
        | field j => exact hx
        | stack v => exact hx.elim
      | stack b =>
        refine .cons ?_ (ih found (List.nodup_cons.mp distinct).2
          fun b' hb => others b' (List.mem_cons_of_mem _ hb))
        cases y with
        | field j => exact hx.elim
        | stack v =>
          refine ⟨rfl, others b (List.mem_cons_self ..) ?_ v hx.2⟩
          rintro rfl
          exact (List.nodup_cons.mp distinct).1 mem

theorem assign_realizes (law : M.Lawful S) (name : String) (hl : Realizes M l d ε) :
    Realizes M (Lowering.assign B S.context name l) d (setVariable S name ε) := by
  intro Z H n live room
  have ho := law.toOrdered
  unfold Lowering.assign setVariable
  refine Sim.bind (S := S) ho (hl.sim live room) fun v x => .given fun result => ?_
  refine .named (fun i => ?_) (fun a y found => ?_)
  · have store : Sim M (M.Sets Z) (M.Stands n Z.names Z.slots H .here [(v, x)] [])
        (target (B.storeField B.selfObject S.current i v)) (storeAttribute S i x)
        (fun _ => M.Sets Z) fun _ _ => M.Stands n Z.names Z.slots H .here [(v, x)] [] := by
      refine .ofTarget (fun run hs => ?_) (fun run hs placed _ w c hw => ?_)
      · obtain ⟨same, _⟩ := law.storeField run
        exact ⟨same.1, hs.same ho same⟩
      · obtain ⟨_, moves⟩ := law.storeField run
        simp only [storeAttribute]
        split
        · rename_i d cell
          split
          · rename_i pointer
            obtain ⟨c', here, kept, values⟩ := moves placed hs.shape hw.located
              (law.self hw.located) (hw.values _ (List.mem_singleton_self _)) cell pointer
            exact ⟨c', hw.move live here kept (fun e he => values _ _ (hw.values e he)) (by simp)⟩
          · exact law.wrong
        · exact law.wrong
    have barrier : Sim M (M.Sets Z) (M.Stands n Z.names Z.slots H .here [(v, x)] [])
        (target (B.writeBarrier B.selfObject S.current i)) (log (.barrier (.obj S.self) i))
        (fun _ => M.Sets Z) fun _ _ => M.Stands n Z.names Z.slots H .here [(v, x)] [] := by
      refine .ofTarget (fun run hs => ?_) (fun run hs placed _ w c hw => ?_)
      · obtain ⟨same, _⟩ := law.writeBarrier run
        exact ⟨same.1, hs.same ho same⟩
      · obtain ⟨_, moves⟩ := law.writeBarrier run
        obtain ⟨c', here, kept, results⟩ :=
          moves placed hs.shape hw.located (law.self hw.located)
        refine ⟨c', hw.move live here kept (fun e he => ?_) (by simp)⟩
        cases List.mem_singleton.mp he
        exact results _ _ result (hw.values _ he)
    refine Sim.bind (S := S) ho store fun _ _ => ?_
    refine Sim.bind (S := S) ho barrier fun _ _ => ?_
    exact .ret ho (fun _ hs => ⟨hs, result⟩) fun _ _ _ hw => hw
  · have store : Sim M (M.Sets Z)
        (fun s w c => M.Stands n Z.names Z.slots H .here [(v, x)] [] s w c ∧ M.slot c (.inl a) y)
        (target (B.storeLocal a v))
        (fun w => .ok ((), { w with env := rebind name x w.env }) : Eval Unit)
        (fun _ => M.Sets Z) fun _ _ => M.Stands n Z.names Z.slots H .here [(v, x)] [] := by
      refine .ofTarget (fun run hs => ?_) (fun run hs placed _ w c hw => ?_)
      · obtain ⟨same, _⟩ := law.storeLocal run
        exact ⟨same.1, hs.same ho same⟩
      · obtain ⟨_, moves⟩ := law.storeLocal run
        obtain ⟨c', here, others, own, values⟩ := moves placed hs.shape
          (live.locals a (mem_locals found)) hw.1.located
          (hw.1.values _ (List.mem_singleton_self _))
        refine ⟨c', here, hw.1.room, means_rebind hw.1.env found live.distinct ?_ own, ?_,
          fun e he => values _ _ (hw.1.values e he), by simp⟩
        · intro b hb differ
          exact others _ (live.locals b hb) (by simpa using differ)
        · intro e he
          exact others _ (live.saved e he) (by simp) _ (hw.1.saved e he)
    refine Sim.bind (S := S) ho store fun _ _ => ?_
    exact .ret ho (fun _ hs => ⟨hs, result⟩) fun _ _ _ hw => hw

theorem Live.bind {names : List (String × Binding B.Local)} {slots : List (Slot B)}
    {H : List (B.Saved × Val)} (h : Live names slots H) {a : B.Local} (fresh : .inl a ∉ slots)
    (name : String) : Live ((name, .stack a) :: names) (.inl a :: slots) H where
  locals b hb := by
    rcases List.mem_cons.mp hb with rfl | hb
    · exact List.mem_cons_self ..
    · exact List.mem_cons_of_mem _ (h.locals b hb)
  distinct := List.nodup_cons.mpr ⟨fun mem => fresh (h.locals a mem), h.distinct⟩
  saved e he := List.mem_cons_of_mem _ (h.saved e he)

section

variable {Z : Scene B} {H : List (B.Saved × Val)} {n : Nat}
variable {vs : List (B.Value × Val)} {rs : List (B.Raw × Int)}

theorem allocLocal_sim (law : M.Lawful S) {v : B.Value} {x : Val} (live : Live Z.names Z.slots H)
    (hv : (v, x) ∈ vs) :
    Sim M (M.Sets Z) (M.Stands (n + 1) Z.names Z.slots H .here vs rs) (target (B.allocLocal v))
      (pure ()) (fun a s => M.Sets { Z with slots := .inl a :: Z.slots } s ∧ .inl a ∉ Z.slots)
      fun a _ s w c =>
        M.Stands n Z.names (.inl a :: Z.slots) H .here [] [] s w c ∧ M.slot c (.inl a) x := by
  refine .ofTarget (fun run hs => ?_) (fun run hs placed _ w c hw => ?_)
  · obtain ⟨grown, shape, _⟩ := law.allocLocal run
    obtain ⟨fresh, shape⟩ := shape hs.shape
    exact ⟨grown, hs.retarget law.toOrdered grown shape, fresh⟩
  · obtain ⟨_, _, moves⟩ := law.allocLocal run
    have room := hw.room
    obtain ⟨c', here, kept, hx⟩ :=
      moves placed hs.shape (by omega) hw.located (hw.values _ hv)
    refine ⟨c', ⟨here, ?_, means_kept hw.env fun b hb => kept _ (live.locals b hb),
      fun e he => kept _ (live.saved e he) _ (hw.saved e he), by simp, by simp⟩, hx⟩
    simp only [List.length_cons]
    omega

theorem freeLocal_sim (law : M.Lawful S) {a : B.Local} {name : String}
    (live : Live Z.names Z.slots H) :
    Sim M (M.Sets { Z with slots := .inl a :: Z.slots })
      (M.Stands n ((name, .stack a) :: Z.names) (.inl a :: Z.slots) H .here vs [])
      (target (B.freeLocal a)) forget (fun _ => M.Sets Z)
      fun _ _ => M.Stands (n + 1) Z.names Z.slots H .here vs [] := by
  refine .ofTarget (fun run hs => ?_) (fun run hs placed _ w c hw => ?_)
  · obtain ⟨grown, shape, _⟩ := law.freeLocal run
    exact ⟨grown, hs.retarget law.toOrdered grown (shape hs.shape)⟩
  · obtain ⟨_, _, moves⟩ := law.freeLocal run
    obtain ⟨c', here, kept, values⟩ := moves placed hs.shape hw.located
    have room := hw.room
    simp only [List.length_cons] at room
    obtain ⟨env, store⟩ := w
    obtain ⟨_, _, _, rest, rfl⟩ := List.forall₂_cons_left_iff.mp hw.env
    exact ⟨c', here, by omega, means_kept rest fun b hb => kept _ (live.locals b hb),
      fun e he => kept _ (live.saved e he) _ (hw.saved e he),
      fun e he => values _ _ (hw.values e he), by simp⟩

theorem Model.Stands.rename {p : Spot B} {names : List (String × Binding B.Local)}
    {slots : List (Slot B)} {s : Session B} {w : World} {c : M.Config}
    (h : M.Stands n names slots H p vs rs s w c) (i : Interner)
    (t : SymbolTable (Binding B.Local)) :
    M.Stands n names slots H p vs rs { s with names := i, scopes := t } w c :=
  ⟨h.located, h.room, h.env, h.saved, h.values, h.raws⟩

theorem pushScope_sim (ho : M.Ordered S) {Q : M.Config → Prop}
    {names : List (String × Binding B.Local)} {slots : List (Slot B)} :
    Sim M (M.Sets Z) (fun s w c => M.Stands n names slots H .here vs rs s w c ∧ Q c)
      Lowering.pushScope (pure ()) (fun _ => M.Sets { Z with marks := none :: Z.marks })
      fun _ _ s w c => M.Stands n names slots H .here vs rs s w c ∧ Q c := by
  refine ⟨fun s a s' run hs => ?_, fun s a s' run hs _ w c hw => ?_⟩
  · cases run
    exact ⟨⟨ho.refl, PoolLe.refl _⟩, hs.shows.pushScope, hs.shape, hs.pooled, hs.shut, hs.apart⟩
  · cases run
    exact ⟨c, hw.1.rename _ _, hw.2⟩

theorem bindName_sim (ho : M.Ordered S) {name : String} {a : B.Local} {x : Val} :
    Sim M (M.Sets Z)
      (fun s w c => M.Stands n Z.names Z.slots H .here vs rs s w c ∧ M.slot c (.inl a) x)
      (Lowering.bindName name (.stack a)) (declare name x)
      (fun _ => M.Sets
        { Z with names := (name, .stack a) :: Z.names, marks := some name :: Z.marks })
      fun _ _ => M.Stands n ((name, .stack a) :: Z.names) Z.slots H .here vs rs := by
  have inv : ∀ {s s' : Session B}, Lowering.bindName name (.stack a) s = .ok ((), s') →
      ∃ t, s.scopes.addSymbol (s.names.intern name).1 (.stack a) = .ok t ∧
        s' = { s with names := (s.names.intern name).2, scopes := t } := by
    intro s s' run
    unfold Lowering.bindName at run
    dsimp only at run
    split at run
    · rename_i t added
      cases run
      exact ⟨t, added, rfl⟩
    · contradiction
  refine ⟨fun s _ s' run hs => ?_, fun s _ s' run hs _ w c hw => ?_⟩
  · obtain ⟨t, added, rfl⟩ := inv run
    exact ⟨⟨ho.refl, PoolLe.refl _⟩, hs.shows.addSymbol added, hs.shape, hs.pooled, hs.shut,
      hs.apart⟩
  · obtain ⟨t, added, rfl⟩ := inv run
    exact ⟨c, hw.1.located, hw.1.room, .cons ⟨rfl, hw.2⟩ hw.1.env, hw.1.saved, hw.1.values,
      hw.1.raws⟩

theorem popScope_sim (ho : M.Ordered S) {name : String} {b : Binding B.Local}
    {marks : List (Option String)} {names : List (String × Binding B.Local)}
    {slots : List (Slot B)} :
    Sim M (M.Sets { Z with names := (name, b) :: Z.names, marks := some name :: none :: marks })
      (M.Stands n names slots H .here vs rs) Lowering.popScope (pure ())
      (fun _ => M.Sets { Z with marks := marks })
      fun _ _ => M.Stands n names slots H .here vs rs := by
  have inv : ∀ {s s' : Session B}, Lowering.popScope s = .ok ((), s') →
      ∃ t, s.scopes.popScope = .ok t ∧ s' = { s with scopes := t } := by
    intro s s' run
    unfold Lowering.popScope at run
    split at run
    · rename_i t popped
      cases run
      exact ⟨t, popped, rfl⟩
    · contradiction
  refine ⟨fun s _ s' run hs => ?_, fun s _ s' run hs _ w c hw => ?_⟩
  · obtain ⟨t, popped, rfl⟩ := inv run
    exact ⟨⟨ho.refl, PoolLe.refl _⟩, hs.shows.popScope popped, hs.shape, hs.pooled, hs.shut,
      hs.apart⟩
  · obtain ⟨t, popped, rfl⟩ := inv run
    exact ⟨c, hw.rename _ _⟩

def enterScope (name : String) (v : B.Value) : Lowering B B.Local := do
  let a ← target (B.allocLocal v)
  pushScope
  bindName name (.stack a)
  pure a

def leaveScope (a : B.Local) : Lowering B Unit := do
  popScope
  target (B.freeLocal a)

theorem inScope_pieces (name : String) (v : B.Value) (l : Lowering B B.Value) :
    inScope B name v l =
      enterScope name v >>= fun a => l >>= fun u => leaveScope a >>= fun _ => pure u := by
  simp only [inScope, enterScope, leaveScope, bind_assoc, pure_bind]

def Scene.bound (Z : Scene B) (name : String) (a : B.Local) : Scene B :=
  { Z with
    names := (name, .stack a) :: Z.names
    slots := .inl a :: Z.slots
    marks := some name :: none :: Z.marks }

theorem enterScope_sim (law : M.Lawful S) (live : Live Z.names Z.slots H) (name : String)
    {v : B.Value} {x : Val}
    (hv : (v, x) ∈ vs) :
    Sim M (M.Sets Z) (M.Stands (n + 1) Z.names Z.slots H .here vs rs) (enterScope name v)
      (declare name x)
      (fun a s => M.Sets (Z.bound name a) s ∧ .inl a ∉ Z.slots)
      fun a _ => M.Stands n ((name, .stack a) :: Z.names) (.inl a :: Z.slots) H .here [] [] := by
  have ho := law.toOrdered
  unfold enterScope
  refine Sim.first (S := S) ho (allocLocal_sim law live hv) fun a => .given fun fresh => ?_
  refine Sim.first (S := S) ho (pushScope_sim ho) fun _ => ?_
  rw [← bind_pure (declare name x)]
  refine Sim.bind (S := S) ho (bindName_sim ho) fun _ _ => ?_
  exact .ret ho (fun _ hs => ⟨hs, fresh⟩) fun _ _ _ hw => hw

theorem leaveScope_sim (law : M.Lawful S) (live : Live Z.names Z.slots H) (name : String)
    (a : B.Local) :
    Sim M (M.Sets (Z.bound name a))
      (M.Stands n ((name, .stack a) :: Z.names) (.inl a :: Z.slots) H .here vs []) (leaveScope a)
      forget (fun _ => M.Sets Z) fun _ _ => M.Stands (n + 1) Z.names Z.slots H .here vs [] := by
  have ho := law.toOrdered
  unfold leaveScope
  refine Sim.first (S := S) ho (popScope_sim (Z := { Z with slots := .inl a :: Z.slots }) ho)
    fun _ => ?_
  exact freeLocal_sim law live

theorem enterScope_lays (law : M.Lawful S) (live : Live Z.names Z.slots H) (name : String)
    (v : B.Value) :
    Lays M (M.Sets Z) (enterScope name v)
      fun a s => M.Sets (Z.bound name a) s ∧ .inl a ∉ Z.slots := by
  have sim : Sim M (M.Sets Z) (M.Stands (0 + 1) Z.names Z.slots H .here [(v, .void)] [])
      (enterScope name v) (declare name .void) _ _ :=
    enterScope_sim law live name (List.mem_singleton_self _)
  exact sim.lays

theorem leaveScope_lays (law : M.Lawful S) (live : Live Z.names Z.slots H) (name : String)
    (a : B.Local) :
    Lays M (M.Sets (Z.bound name a)) (leaveScope a) fun _ => M.Sets Z := by
  have sim : Sim M _ (M.Stands 0 ((name, .stack a) :: Z.names) (.inl a :: Z.slots) H .here [] [])
      (leaveScope a) forget _ _ := leaveScope_sim law live name a
  exact sim.lays

theorem inScope_sim (law : M.Lawful S) {name : String} {v : B.Value} {x : Val}
    (live : Live Z.names Z.slots H)
    (hv : (v, x) ∈ vs) (hl : Realizes M l d ε) (room : d + 1 ≤ n) :
    Sim M (M.Sets Z) (M.Stands n Z.names Z.slots H .here vs rs) (inScope B name v l)
      (Meaning.inScope name x ε) (fun u s => M.Sets Z s ∧ M.result u)
      fun u y => M.Stands n Z.names Z.slots H .here [(u, y)] [] := by
  have ho := law.toOrdered
  obtain ⟨k, rfl⟩ : ∃ k, n = k + 1 := ⟨n - 1, by omega⟩
  rw [inScope_pieces]
  refine Sim.bind (S := S) ho (enterScope_sim law ‹_› name hv) fun a _ => .given fun fresh => ?_
  have inner := live.bind fresh name
  refine Sim.bind (S := S) ho (hl.sim (Z := Z.bound name a) ‹_› (by omega))
    fun u y => .given fun result => ?_
  refine Sim.bind (S := S) ho (leaveScope_sim law live name a) fun _ _ => ?_
  exact .ret ho (fun _ hs => ⟨hs, result⟩) fun _ _ _ hw => hw

theorem letIn_realizes (law : M.Lawful S) (name : String) (hl : Realizes M l d ε)
    (hr : Realizes M r e η) :
    Realizes M (Lowering.letIn B name l r) (max d (e + 1)) (Meaning.letIn name ε η) := by
  intro Z H n live room
  unfold Lowering.letIn Meaning.letIn
  refine Sim.bind (S := S) law.toOrdered (hl.sim live (by omega)) fun v x => .given fun _ => ?_
  exact inScope_sim law live (List.mem_singleton_self (v, x)) hr (by omega)

end

end ClassBackend.Lowering
