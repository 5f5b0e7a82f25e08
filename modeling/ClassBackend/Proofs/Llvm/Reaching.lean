import ClassBackend.Proofs.Account.Unit
import ClassBackend.Proofs.Llvm.Ledger
import ClassBackend.Proofs.Llvm.Discipline

/-! The account of which temporaries are defined. It is a certificate that grows with the function:
a block that has a name and no place yet is entered in it with what is defined at a point that all
its entries come after. -/
namespace ClassBackend.Llvm

open Lowering

/-- What is known at a point: a certificate, and temporaries that are defined there. -/
structure Known extends Certificate where
  temps : List Temp

namespace Known

variable {u w w' : Known}

structure Le (w w' : Known) : Prop where
  later : w.toCertificate.Le w'.toCertificate
  temps : w.temps ⊆ w'.temps

theorem Le.refl (w : Known) : w.Le w := ⟨.refl _, fun _ h => h⟩

theorem Le.trans (h : u.Le w) (h' : w.Le w') : u.Le w' :=
  ⟨h.later.trans h'.later, fun _ ht => h'.temps (h.temps ht)⟩

end Known

/-- The function so far keeps to the certificate, and no number is used twice. -/
structure Tracks (w : Certificate) (n : Nat) (b : Body) : Prop where
  covers : w.Covers b.allocas.toList b.blocks
  below : ∀ t ∈ Certificate.temps b.allocas.toList b.blocks, t.id < n
  named : ∀ c T, w.starts c = some T → c.id < n

def Known.Ends (w : Known) (b : Body) : Prop :=
  ∃ S, w.start b.current.label = some S ∧
    w.temps ⊆ b.allocas.toList ++ S ++ Certificate.results b.current.instrs.toList

namespace Certificate

variable {w w' : Certificate} {slots slots' : List Temp} {closed bs : List (Block Label Instr)}
variable {c : Block Label Instr} {K S T : List Temp} {i : Instr} {last : Bool} {t : Temp}
variable {l : Label} {b : BlockName}

theorem Checks.mono (h : w.Checks slots c) (known : w.Le w') (more : slots ⊆ slots') :
    w'.Checks slots' c := by
  obtain ⟨S, hS, flows, edges⟩ := h
  have grown : slots ++ S ⊆ slots' ++ S := List.append_subset.mpr
    ⟨List.subset_append_of_subset_left _ more, List.subset_append_right ..⟩
  refine ⟨S, known.start hS, flows.mono known grown, fun l hl => ?_⟩
  obtain ⟨T, hT, sub⟩ := edges l hl
  refine ⟨T, known.start hT, fun t ht => ?_⟩
  rcases List.mem_append.mp (sub ht) with early | late
  · exact List.mem_append_left _ (grown early)
  · exact List.mem_append_right _ late

theorem results_append (is js : List Instr) : results (is ++ js) = results is ++ results js :=
  List.filterMap_append

theorem results_single : results [i] = i.result?.toList := by
  rw [results_cons, results, List.filterMap_nil, List.append_nil]

theorem temps_snoc : temps slots (closed ++ [c]) =
    temps slots closed ++ results c.instrs.toList := by
  simp [temps]

theorem Covers.push (h : w.Covers slots (closed ++ [c])) (start : w.start c.label = some S)
    (known : K ⊆ slots ++ S ++ results c.instrs.toList) (fine : w.Fine K i)
    (fresh : ∀ t, i.result? = some t → t ∉ temps slots (closed ++ [c]))
    (goes : ∀ l ∈ i.targets, ∃ T, w.start l = some T ∧ T ⊆ K) :
    w.Covers slots
      (closed ++ [{ c with instrs := c.instrs ++ [i].toArray, terminated := last }]) := by
  have whole : temps slots
      (closed ++ [{ c with instrs := c.instrs ++ [i].toArray, terminated := last }]) =
      temps slots (closed ++ [c]) ++ i.result?.toList := by
    rw [temps_snoc, temps_snoc, Array.toList_append, results_append, results_single,
      List.append_assoc]
  have more : slots ++ S ++ results c.instrs.toList ⊆
      slots ++ S ++ results (c.instrs ++ [i].toArray).toList := by
    rw [Array.toList_append, results_append, ← List.append_assoc]
    exact List.subset_append_left ..
  constructor
  · obtain ⟨d, rest, eq, entry⟩ := h.entry
    cases closed with
    | nil =>
      cases eq
      exact ⟨_, _, rfl, entry⟩
    | cons e closed =>
      cases eq
      exact ⟨_, _, rfl, entry⟩
  · rw [whole, List.nodup_append]
    refine ⟨h.once, ?_, ?_⟩
    · cases i.result? <;> simp
    · rintro t ht _ new rfl
      exact fresh t (Option.mem_toList.mp new) ht
  · rw [whole]
    exact fun l T hT => List.subset_append_of_subset_left _ (h.defined l T hT)
  · intro d hd
    rcases List.mem_append.mp hd with old | new
    · exact h.blocks d (List.mem_append_left _ old)
    · rw [List.mem_singleton.mp new]
      obtain ⟨S', hS', flows, edges⟩ := h.blocks c (by simp)
      cases start.symm.trans hS'
      refine ⟨S, start, ?_, fun l hl => ?_⟩
      · rw [Array.toList_append]
        exact flows.append ⟨fine.mono (.refl w) known, trivial⟩
      · rw [Block.exits, Array.toList_append, List.flatMap_append, List.mem_append] at hl
        rcases hl with old | new
        · obtain ⟨T, hT, sub⟩ := edges l old
          exact ⟨T, hT, fun t ht => more (sub ht)⟩
        · obtain ⟨T, hT, sub⟩ := goes l (by simpa using new)
          exact ⟨T, hT, fun t ht => more (known (sub ht))⟩
  · intro a ha
    obtain ⟨d, hd, label, S', hS', there⟩ := h.arms a ha
    rcases List.mem_append.mp hd with old | new
    · exact ⟨d, List.mem_append_left _ old, label, S', hS', there⟩
    · cases List.mem_singleton.mp new
      cases start.symm.trans hS'
      exact ⟨_, List.mem_append_right _ (List.mem_singleton_self _), label, S, hS', there.mono more⟩

theorem Covers.slot (h : w.Covers slots bs) (fresh : t ∉ temps slots bs) :
    w.Covers (slots ++ [t]) bs := by
  have more : temps slots bs ⊆ temps (slots ++ [t]) bs := by
    simp only [temps]
    grind
  constructor
  · exact h.entry
  · have perm : (temps (slots ++ [t]) bs).Perm (t :: temps slots bs) := by
      rw [temps, List.append_assoc]
      exact List.perm_middle
    rw [perm.nodup_iff, List.nodup_cons]
    exact ⟨fresh, h.once⟩
  · exact fun l T hT s hs => more (h.defined l T hT hs)
  · exact fun c hc => (h.blocks c hc).mono (.refl w) (List.subset_append_left ..)
  · intro a ha
    obtain ⟨c, hc, label, S, hS, there⟩ := h.arms a ha
    exact ⟨c, hc, label, S, hS, there.mono (by grind)⟩

theorem Covers.place (h : w.Covers slots bs) (start : w.start l = some S) :
    w.Covers slots (bs ++ [{ label := l }]) := by
  have whole : temps slots (bs ++ [{ label := l }]) = temps slots bs := by
    rw [temps_snoc]
    simp [results]
  constructor
  · obtain ⟨b, rest, rfl, entry⟩ := h.entry
    exact ⟨b, _, rfl, entry⟩
  · rw [whole]
    exact h.once
  · rw [whole]
    exact h.defined
  · intro c hc
    rcases List.mem_append.mp hc with old | new
    · exact h.blocks c old
    · rw [List.mem_singleton.mp new]
      exact ⟨S, start, trivial, by simp [Block.exits]⟩
  · intro a ha
    obtain ⟨c, hc, rest⟩ := h.arms a ha
    exact ⟨c, List.mem_append_left _ hc, rest⟩

def enter (w : Certificate) (b : BlockName) (T : List Temp) : Certificate :=
  { w with starts := Function.update w.starts b (some T) }

def leave (w : Certificate) (a : Operand × Label) : Certificate := { w with arms := w.arms ++ [a] }

theorem enter_self : (w.enter b T).starts b = some T := Function.update_self ..

theorem enter_other {d : BlockName} (other : d ≠ b) : (w.enter b T).starts d = w.starts d :=
  Function.update_of_ne other ..

theorem Le.enter (new : w.starts b = none) : w.Le (w.enter b T) := by
  refine ⟨rfl, fun d S hS => ?_, fun _ ha => ha⟩
  have other : d ≠ b := by
    rintro rfl
    exact absurd (new.symm.trans hS) (by simp)
  exact (enter_other other).trans hS

theorem Le.leave (a : Operand × Label) : w.Le (w.leave a) :=
  ⟨rfl, fun _ _ h => h, List.subset_append_left ..⟩

theorem Covers.enter (h : w.Covers slots bs) (new : w.starts b = none) (sub : T ⊆ temps slots bs) :
    (w.enter b T).Covers slots bs := by
  have known : w.Le (w.enter b T) := .enter new
  refine ⟨h.entry, h.once, fun l S hS => ?_, fun c hc => (h.blocks c hc).mono known fun _ h => h,
    fun a ha => ?_⟩
  · cases l with
    | entry => exact h.defined .entry S hS
    | block d =>
      by_cases own : d = b
      · subst own
        cases enter_self.symm.trans hS
        exact sub
      · exact h.defined (.block d) S ((enter_other own).symm.trans hS)
  · obtain ⟨c, hc, label, S, hS, there⟩ := h.arms a ha
    exact ⟨c, hc, label, S, known.start hS, there⟩

theorem Covers.leave (h : w.Covers slots (closed ++ [c])) (start : w.start c.label = some S)
    {v : Operand} (there : Available w.formals (slots ++ S ++ results c.instrs.toList) v) :
    (w.leave (v, c.label)).Covers slots (closed ++ [c]) := by
  refine ⟨h.entry, h.once, h.defined, fun d hd => (h.blocks d hd).mono (.leave _) fun _ h => h,
    fun a ha => ?_⟩
  rcases List.mem_append.mp ha with old | new
  · exact h.arms a old
  · rw [List.mem_singleton.mp new]
    exact ⟨c, by simp, rfl, S, start, there⟩

end Certificate

open Certificate

variable {w w' u : Known} {n m : Nat} {b : Body} {i : Instr} {v : Operand} {s s' : State}
variable {f : Function} {x : Unit}

/-- A function that is done, with what is certified of it. -/
def Certified (f : Function) : Prop :=
  ∃ w : Certificate, w.formals = f.formals ∧ w.Covers f.body.allocas.toList f.body.blocks

/-- The function that is being filled keeps to what is known of it. -/
structure Holds (w : Known) (closed : Bool) (s : State) : Prop where
  function : ∃ f, s.function = some f ∧ f.formals = w.formals ∧
    Tracks w.toCertificate s.fresh.next f.body ∧
    w.Ends f.body ∧ f.body.current.terminated = closed
  done : ∀ g ∈ s.functions.toList, Certified g

theorem body_inv {g : Body → Except Fault Body} (h : Gen.body g s = .ok (x, s')) :
    ∃ f b, s.function = some f ∧ g f.body = .ok b ∧
      s' = { s with function := some { f with body := b } } := by
  unfold Gen.body at h
  split at h
  · cases h
  · rename_i f there
    split at h
    · rename_i b run
      cases h
      exact ⟨f, b, there, run, rfl⟩
    · cases h

theorem Tracks.mono (h : Tracks w.toCertificate n b) (le : n ≤ m) : Tracks w.toCertificate m b where
  covers := h.covers
  below t ht := Nat.lt_of_lt_of_le (h.below t ht) le
  named c T hc := Nat.lt_of_lt_of_le (h.named c T hc) le

def Known.learn (w : Known) (ts : List Temp) : Known := { w with temps := w.temps ++ ts }

theorem Known.Le.learn (ts : List Temp) : w.Le (w.learn ts) :=
  ⟨.refl _, List.subset_append_left ..⟩

theorem Tracks.push (h : Tracks w.toCertificate n b) (ends : w.Ends b) (fine : w.Fine w.temps i)
    (le : n ≤ m) (fresh : ∀ t, i.result? = some t → n ≤ t.id ∧ t.id < m)
    (goes : ∀ l ∈ i.targets, ∃ T, w.start l = some T ∧ T ⊆ w.temps) (last : Bool) :
    Tracks w.toCertificate m (b.extend [i] last) ∧
      (w.learn i.result?.toList).Ends (b.extend [i] last) := by
  obtain ⟨S, hS, known⟩ := ends
  refine ⟨⟨?_, ?_, (h.mono le).named⟩, S, hS, ?_⟩
  · exact h.covers.push hS known fine (fun t ht old => absurd (h.below t old)
      (Nat.not_lt_of_le (fresh t ht).1)) goes
  · intro t ht
    rw [blocks_extend, temps_snoc, Array.toList_append, results_append, results_single,
      ← List.append_assoc, List.mem_append] at ht
    rcases ht with old | new
    · exact (h.mono le).below t (by rwa [Builder.blocks, temps_snoc])
    · exact (fresh t (Option.mem_toList.mp new)).2
  · rw [Known.learn, Builder.extend, Array.toList_append, results_append, results_single,
      ← List.append_assoc]
    exact List.append_subset.mpr
      ⟨List.subset_append_of_subset_left _ known, List.subset_append_right ..⟩

section Operations

theorem emit_holds (h : Holds w false s) (run : Gen.emit i s = .ok (x, s'))
    (fine : w.Fine w.temps i) (plain : i.result? = none) (straight : i.targets = []) :
    Holds w false s' := by
  obtain ⟨f, b, there, emitted, rfl⟩ := body_inv run
  obtain ⟨_, rfl⟩ := builder_emit_ok.mp emitted
  obtain ⟨g, there', formals, tracks, ends, _⟩ := h.function
  cases there.symm.trans there'
  obtain ⟨tracks, ends⟩ := tracks.push ends fine (Nat.le_refl _) (by simp [plain])
    (by simp [straight]) false
  rw [plain, Option.toList_none, Known.learn, List.append_nil] at ends
  exact ⟨⟨_, rfl, formals, tracks, ends, rfl⟩, h.done⟩

theorem terminate_holds (h : Holds w false s) (run : Gen.terminate i s = .ok (x, s'))
    (fine : w.Fine w.temps i) (plain : i.result? = none)
    (goes : ∀ l ∈ i.targets, ∃ T, w.start l = some T ∧ T ⊆ w.temps) : Holds w true s' := by
  obtain ⟨f, b, there, emitted, rfl⟩ := body_inv run
  obtain ⟨_, rfl⟩ := builder_terminate_ok.mp emitted
  obtain ⟨g, there', formals, tracks, ends, _⟩ := h.function
  cases there.symm.trans there'
  obtain ⟨tracks, ends⟩ := tracks.push ends fine (Nat.le_refl _) (by simp [plain]) goes true
  rw [plain, Option.toList_none, Known.learn, List.append_nil] at ends
  exact ⟨⟨_, rfl, formals, tracks, ends, rfl⟩, h.done⟩

theorem assign_holds {rhs : Rhs} (h : Holds w false s) (run : Gen.assign rhs s = .ok (v, s'))
    (fine : ∀ t, w.Fine w.temps (.assign t rhs)) :
    ∃ t, v = .temp t ∧ Holds (w.learn [t]) false s' := by
  simp only [Gen.assign, bind_ok, pure_ok] at run
  obtain ⟨t, s₁, drawn, _, s₂, emitted, rfl, rfl⟩ := run
  cases drawn
  refine ⟨_, rfl, ?_⟩
  obtain ⟨f, b, there, pushed, rfl⟩ := body_inv emitted
  obtain ⟨_, rfl⟩ := builder_emit_ok.mp pushed
  obtain ⟨g, there', formals, tracks, ends, _⟩ := h.function
  cases there.symm.trans there'
  obtain ⟨tracks, ends⟩ := tracks.push ends (fine ⟨s.fresh.next⟩) (Nat.le_succ _)
    (by simp [Instr.result?]) (by simp [Instr.targets]) false
  exact ⟨⟨_, rfl, formals, tracks, ends, rfl⟩, h.done⟩

theorem slotFor_holds {p : Operand} (h : Holds w false s) (run : Gen.slotFor v s = .ok (p, s'))
    (hv : Available w.formals w.temps v) :
    ∃ t, p = .temp t ∧ Holds (w.learn [t]) false s' := by
  simp only [Gen.slotFor, bind_ok, pure_ok] at run
  obtain ⟨t, s₁, drawn, _, s₂, placed, _, s₃, stored, rfl, rfl⟩ := run
  cases drawn
  obtain ⟨f, _, there, ⟨⟩, rfl⟩ := body_inv placed
  obtain ⟨g, there', formals, tracks, ⟨S, hS, known⟩, unclosed⟩ := h.function
  cases there.symm.trans there'
  refine ⟨_, rfl, emit_holds ?_ stored ?_ rfl rfl⟩
  · have fresh : (⟨s.fresh.next⟩ : Temp) ∉ temps f.body.allocas.toList f.body.blocks :=
      fun old => Nat.lt_irrefl _ (tracks.below _ old)
    have slots : (f.body.alloca ⟨s.fresh.next⟩).allocas.toList =
        f.body.allocas.toList ++ [⟨s.fresh.next⟩] := Array.toList_push ..
    refine ⟨⟨_, rfl, formals, ⟨?_, ?_, (tracks.mono (Nat.le_succ _)).named⟩, ⟨S, hS, ?_⟩,
      unclosed⟩, h.done⟩
    · rw [slots]
      exact tracks.covers.slot fresh
    · rw [slots]
      intro t ht
      rw [temps, List.mem_append, List.mem_append, List.mem_singleton] at ht
      rcases ht with (old | rfl) | result
      · exact (tracks.mono (Nat.le_succ _)).below t (List.mem_append_left _ old)
      · exact Nat.lt_succ_self _
      · exact (tracks.mono (Nat.le_succ _)).below t (List.mem_append_right _ result)
    · rw [slots, Known.learn]
      grind [Builder.alloca]
  · refine ⟨?_, List.nil_subset _⟩
    simp only [Instr.operands, List.mem_cons, List.not_mem_nil, or_false, forall_eq_or_imp,
      forall_eq]
    exact ⟨hv.mono (List.subset_append_left ..), List.mem_append_right _ (by simp)⟩

theorem newBlock_holds {closed : Bool} {hint : String} {c : BlockName} (h : Holds w closed s)
    (run : Gen.newBlock hint s = .ok (c, s')) (known : u.Le w) :
    let w' : Known := { w with toCertificate := w.enter c u.temps }
    w.Le w' ∧ Holds w' closed s' ∧ w'.starts c = some u.temps := by
  cases run
  obtain ⟨f, there, formals, tracks, ⟨S, hS, ends⟩, shut⟩ := h.function
  have new : w.starts ⟨hint, s.fresh.next⟩ = none := by
    cases old : w.starts ⟨hint, s.fresh.next⟩ with
    | none => rfl
    | some T => exact absurd (tracks.named _ T old) (Nat.lt_irrefl _)
  have known' := Certificate.Le.enter (T := u.temps) new
  have sub : u.temps ⊆ temps f.body.allocas.toList f.body.blocks := by
    refine fun t ht => (tracks.covers.known_defined (b := f.body.current) (r :=
      f.body.current.instrs.toList) ?_ hS fun _ h => h) (ends (known.temps ht))
    simp [Builder.blocks]
  refine ⟨⟨known', fun _ ht => ht⟩, ⟨⟨f, there, formals, ⟨?_, ?_, ?_⟩, ⟨S, known'.start hS, ends⟩,
    shut⟩, h.done⟩, enter_self⟩
  · exact tracks.covers.enter new sub
  · exact (tracks.mono (Nat.le_succ _)).below
  · intro d T hd
    by_cases own : d = ⟨hint, s.fresh.next⟩
    · subst own
      exact Nat.lt_succ_self _
    · exact (tracks.mono (Nat.le_succ _)).named d T ((enter_other own).symm.trans hd)

theorem switchTo_holds {c : BlockName} (h : Holds w true s)
    (run : Gen.switchTo c s = .ok (x, s')) (entered : w.starts c = some u.temps) :
    Holds ⟨w.toCertificate, u.temps⟩ false s' := by
  obtain ⟨f, b, there, opened, rfl⟩ := body_inv run
  cases builder_startBlock_ok.mp opened
  obtain ⟨g, there', formals, tracks, _, shut⟩ := h.function
  cases there.symm.trans there'
  have blocks : (f.body.opened (.block c)).blocks = f.body.blocks ++ [{ label := .block c }] := by
    simp [Builder.blocks, Builder.opened, shut]
  refine ⟨⟨_, rfl, formals, ⟨?_, ?_, tracks.named⟩, ⟨u.temps, entered, ?_⟩, rfl⟩, h.done⟩
  · rw [blocks]
    exact tracks.covers.place entered
  · rw [blocks, temps_snoc]
    simpa [results, Builder.opened] using tracks.below
  · intro t ht
    exact List.mem_append_left _ (List.mem_append_right _ ht)

end Operations

def Known.Has (w : Known) (v : Operand) : Prop := Available w.formals w.temps v

theorem Known.Has.grown {v : Operand} (h : w.Has v) (known : w.Le w') : w'.Has v := by
  have h : Available w.formals w.temps v := h
  rw [known.later.formals] at h
  exact h.mono known.temps

@[reducible] def dominance : Ledger where
  World := Known
  le := Known.Le
  later w w' := w.toCertificate.Le w'.toCertificate
  idle _ _ s := s.function = none ∧ ∀ g ∈ s.functions.toList, Certified g
  inside w _ := Holds w false
  shut w _ := Holds w true
  frame w _ n := w.formals = n
  const _ _ := True
  has := Known.Has
  struct _ := True
  entered w b u := w.starts b = some u.temps ∧ u.toCertificate.Le w.toCertificate
  arm w _ a := a ∈ w.arms
  cls _ := True
  label _ := True

theorem dominance_ordered : dominance.account.Ordered where
  refl := Known.Le.refl
  trans := Known.Le.trans
  later_trans := Certificate.Le.trans
  later := Known.Le.later
  const _ _ := trivial
  value known h := h.grown known
  raw known h := h.grown known
  slot known h := h.grown known
  saved known h := h.grown known
  frame later h := later.formals.symm.trans h
  entered later h := ⟨later.starts _ _ h.1, h.2.trans later⟩
  arm later h := later.arms h

section Laws

theorem dominance_reads : dominance.Reads where
  self := trivial
  null := trivial
  int := trivial
  literal _ := trivial
  bool := trivial
  routine _ := trivial
  objects := trivial
  table _ := trivial
  initializer _ := trivial
  method _ := trivial
  own _ := trivial
  header := trivial
  row := trivial

theorem slotFor_keeps (hv : w.Has v) :
    dominance.account.Keeps w (Gen.slotFor v) Known.Has := by
  intro _ s p s' there run
  obtain ⟨t, rfl, holds⟩ := slotFor_holds there run hv
  exact ⟨_, .learn [t], holds, List.mem_append_right _ (List.mem_singleton_self t)⟩

theorem terminate_shuts (operands : ∀ v ∈ i.operands, w.Has v)
    (plain : i.result? = none) (incoming : i.incoming = [])
    (goes : ∀ l ∈ i.targets, ∃ b u, l = .block b ∧ dominance.entered w b u ∧ u.Le w) :
    dominance.account.Shuts w (Gen.terminate i) dominance.account.whatever := by
  refine fun _ _ _ _ there run => ⟨w, .refl w, terminate_holds there run
    ⟨operands, by simp [incoming]⟩ plain fun l hl => ?_, trivial⟩
  obtain ⟨b, u, rfl, entered, known⟩ := goes l hl
  exact ⟨u.temps, entered.1, known.temps⟩

theorem dominance_steps : dominance.Steps where
  pool {w _ _ _} there _ _ := ⟨w, .refl w, there, fun _ _ _ => trivial⟩
  emit operands _ plain incoming straight := fun _ _ _ _ there run =>
    ⟨_, .refl _, emit_holds there run ⟨operands, by simp [incoming]⟩ plain straight, trivial⟩
  assign operands _ plain := fun _ s v s' there run => by
    obtain ⟨t, rfl, holds⟩ := assign_holds there run fun t => ⟨operands, by simp [plain t]⟩
    exact ⟨_, .learn [t], holds, List.mem_append_right _ (List.mem_singleton_self t)⟩
  slotFor := slotFor_keeps
  terminate operands _ := terminate_shuts operands

theorem closeArm_shuts {u : Known} {join : BlockName} (hv : w.Has v)
    (hjoin : dominance.entered w join u) (known : u.Le w) :
    dominance.account.Shuts w (Gen.closeArm v join) fun w' a => dominance.arm w' join a := by
  intro p s a s' there run
  simp only [Gen.closeArm, bind_ok, pure_ok] at run
  obtain ⟨l, s₁, label, _, s₂, left, rfl, rfl⟩ := run
  obtain ⟨f, open_, _⟩ := there.function
  simp only [Gen.currentLabel, open_] at label
  cases label
  have jump : dominance.account.Shuts w (Gen.jump join) dominance.account.whatever :=
    terminate_shuts (by simp [Instr.operands]) rfl rfl fun l hl =>
      ⟨join, u, List.mem_singleton.mp hl, hjoin, known⟩
  obtain ⟨w₁, grown, there₁, _⟩ := jump p _ _ _ there left
  obtain ⟨_, _, open₁, pushed, rfl⟩ := body_inv (g := fun b => b.terminate _) left
  cases open_.symm.trans open₁
  obtain ⟨_, rfl⟩ := builder_terminate_ok.mp pushed
  obtain ⟨g, open₂, formals, tracks, ⟨S, hS, ends⟩, shut⟩ := there₁.function
  cases open₂
  have left : Available w₁.formals _ v := Available.mono (hv.grown grown) ends
  refine ⟨⟨w₁.toCertificate.leave (v, _), w₁.temps⟩, grown.trans ⟨.leave _, fun _ h => h⟩,
    ⟨⟨_, rfl, formals, ⟨tracks.covers.leave hS left, tracks.below, tracks.named⟩,
      ⟨S, hS, ends⟩, shut⟩, there₁.done⟩, ?_⟩
  exact List.mem_append_right _ (List.mem_singleton_self _)

theorem merge_opens {u : Known} {arms : List (Operand × Label)} {join : BlockName}
    (hjoin : dominance.entered w join u) (harms : ∀ a ∈ arms, a ∈ w.arms) :
    dominance.account.Opens w u (Gen.merge arms join) Known.Has := by
  intro p s v s' there run
  obtain ⟨_, s₁, placed, rest⟩ := bind_ok.mp run
  have holds := switchTo_holds there placed hjoin.1
  by_cases none : arms.isEmpty = true
  · rw [if_pos none] at rest
    obtain ⟨rfl, rfl⟩ := pure_ok.mp rest
    exact ⟨⟨w.toCertificate, u.temps⟩, .refl _, ⟨hjoin.2, fun _ h => h⟩, holds, trivial⟩
  · rw [if_neg none] at rest
    obtain ⟨t, rfl, holds⟩ := assign_holds holds rest fun t => ⟨by simp [Instr.operands,
      Rhs.operands], harms⟩
    exact ⟨Known.learn ⟨w.toCertificate, u.temps⟩ [t], .refl _,
      ⟨hjoin.2, List.subset_append_left ..⟩, holds,
      List.mem_append_right _ (List.mem_singleton_self t)⟩

theorem dominance_joins : dominance.Joins where
  newBlock _ known := fun _ _ _ _ there run => by
    obtain ⟨grown, holds, entered⟩ := newBlock_holds there run known
    exact ⟨_, grown, holds, entered, known.later.trans grown.later⟩
  nextBlock _ known there run := by
    obtain ⟨grown, holds, entered⟩ := newBlock_holds there run known
    exact ⟨_, grown, holds, entered, known.later.trans grown.later⟩
  switchTo {w u b} hb := fun _ _ _ _ there run =>
    ⟨⟨w.toCertificate, u.temps⟩, .refl _, ⟨hb.2, fun _ h => h⟩, switchTo_holds there run hb.1,
      trivial⟩
  closeArm := closeArm_shuts
  merge := merge_opens

theorem dominance_balanced : dominance.Balanced where
  toOrdered := dominance_ordered
  toReads := dominance_reads
  toSteps := dominance_steps
  toJoins := dominance_joins

end Laws

section Functions

theorem Tracks.start (n formals : Nat) :
    Tracks ⟨formals, fun _ => none, []⟩ n (Builder.new : Body) where
  covers := by
    refine ⟨⟨_, [], rfl, rfl⟩, by simp [temps, Builder.new, Builder.blocks, results], ?_, ?_,
      by simp⟩
    · intro l T hT
      cases l with
      | entry => cases hT; exact List.nil_subset _
      | block c => cases hT
    · intro c hc
      cases List.mem_singleton.mp hc
      exact ⟨[], rfl, trivial, by simp [Block.exits, Builder.new]⟩
  below := by simp [temps, Builder.new, Builder.blocks, results]
  named := by simp

theorem dominance_framed : dominance.account.Framed where
  start := ⟨rfl, by simp⟩
  beginFunction {L p t t' label n} there run := by
    cases run
    exact ⟨⟨⟨n, fun _ => none, []⟩, []⟩, ⟨⟨_, rfl, rfl, .start _ _, ⟨[], rfl, List.nil_subset _⟩,
      rfl⟩, there.2⟩, rfl⟩
  formal frame below := slotFor_keeps (show Available _ _ (.arg _) from frame ▸ below)
  endFunction {w L p t t' v n} there frame hv run := by
    obtain ⟨_, s₁, ended, rest⟩ := bind_ok.mp run
    have holds : Holds w true s₁ := by
      refine terminate_holds there ended ⟨?_, List.nil_subset _⟩ rfl (by simp [Instr.targets])
      simp only [Instr.operands, List.mem_singleton, forall_eq]
      exact hv
    obtain ⟨f, open_, formals, tracks, _⟩ := holds.function
    simp only [open_, Except.ok.injEq, Prod.mk.injEq, true_and] at rest
    subst rest
    refine ⟨rfl, fun g hg => ?_⟩
    rw [Array.toList_push, List.mem_append, List.mem_singleton] at hg
    rcases hg with old | rfl
    · exact holds.done g old
    · exact ⟨w.toCertificate, formals.symm, tracks.covers⟩

theorem dominance_knows (cx : Context) : dominance.account.Knows cx where
  find _ := trivial
  current := trivial
  label _ _ := trivial

/-- Every function of an emitted unit has a certificate. -/
theorem emitUnit_certified {t : ClassTable} {p : Pool} {s : State}
    (h : Resolved.emitUnit backend t = .ok (p, s)) :
    ∀ f ∈ s.functions.toList, Certified f :=
  (Account.emitUnit_idle dominance_framed dominance_balanced.lawful
    (fun _ _ => dominance_knows _) h).2

end Functions

end ClassBackend.Llvm
