import ClassBackend.Proofs.Lowering.Flow
import ClassBackend.Proofs.Meaning.Selection

/-! Case expressions. An alternative is laid down in three pieces: the tests and the new variable,
the body, and the way to the join and to the next tests. -/
namespace ClassBackend.Lowering

open Meaning

variable {B : Backend} {M : Model B} {S : Setting}

/-- The two tests of a range: where to go on a miss, and where on a hit. -/
def caseTests (tag : B.Raw) (cls : ClassLayout) : Lowering B (BlockName × BlockName) := do
  let next ← target (B.newBlock "case_next")
  let upper ← target (B.newBlock "case_upper")
  let matched ← target (B.newBlock "case_branch")
  let lo ← target (B.rawWord cls.tag)
  target (B.branchRaw .lt tag lo next upper)
  target (B.switchTo upper)
  let hi ← target (B.rawWord cls.lastTag)
  target (B.branchRaw .gt tag hi next matched)
  pure (next, matched)

/-- The tests, and the variable of the alternative that they guard. -/
def caseEntry (tag : B.Raw) (v : B.Value) (cls : ClassLayout) (name : String) :
    Lowering B (BlockName × B.Local) := do
  let p ← caseTests tag cls
  target (B.switchTo p.2)
  let a ← enterScope name v
  pure (p.1, a)

def caseExit (join next : BlockName) (a : B.Local) (result : B.Value) : Lowering B B.Arm := do
  leaveScope a
  let arm ← target (B.closeArm result join)
  target (B.switchTo next)
  pure arm

theorem caseArm_pieces (tag : B.Raw) (v : B.Value) (join : BlockName) (cls : ClassLayout)
    (b : Branch (Lowering B B.Value)) :
    caseArm B tag v join cls b = caseEntry tag v cls b.name >>= fun p =>
      b.body >>= fun result => caseExit join p.1 p.2 result := by
  simp only [caseArm, caseEntry, caseTests, caseExit, inScope_pieces, enterScope, leaveScope,
    bind_assoc, pure_bind]

def Scene.inside (Z : Scene B) (name : String) (next : BlockName) (a : B.Local) : Scene B :=
  { Z with opened := next :: Z.opened }.bound name a

section

variable {Z : Scene B} {H : List (B.Saved × Val)} {n : Nat}

theorem caseTests_sim (law : M.Lawful S) {tag : B.Raw} {v : B.Value} {x : Val} {k : Nat}
    {cls : ClassLayout} (live : Live Z.names Z.slots H) (known : cls ∈ S.classes.classes)
    (loaded : M.loaded tag) :
    Sim M (M.Sets Z) (M.Stands n Z.names Z.slots H .here [(v, x)] [(tag, (k : Int))])
      (caseTests tag cls) (logAll (rangeTests k [(cls, ())]))
      (fun p => M.Sets { Z with opened := p.2 :: p.1 :: Z.opened })
      fun p _ => M.Stands n Z.names Z.slots H (.block (if cls.covers k then p.2 else p.1))
        [(v, x)] [(tag, (k : Int))] := by
  have ho := law.toOrdered
  obtain ⟨low, high⟩ := law.tags cls known
  have atTag : ∀ {q : B.Raw × Int}, (tag, (k : Int)) ∈ [q, (tag, (k : Int))] := by simp
  unfold caseTests
  refine Sim.first (S := S) ho (newBlock_sim law _) fun next => ?_
  refine Sim.first (S := S) ho (newBlock_sim law _) fun upper => ?_
  refine Sim.first (S := S) ho (newBlock_sim law _) fun matched => ?_
  refine Sim.first (S := S) ho (rawWord_sim law low) fun lo => ?_
  have order : (matched :: upper :: next :: Z.opened).Perm
      (upper :: matched :: next :: Z.opened) := .swap upper matched _
  by_cases below : k < cls.tag
  · have first : holds .lt (k : Int) cls.tag = true := by simp [holds, below]
    have outside : cls.covers k = false := by simp [ClassLayout.covers]; omega
    have tests : logAll (rangeTests k [(cls, ())]) =
        decided (holds .lt (k : Int) cls.tag) >>= fun _ => pure () := by
      simp [rangeTests, logAll, first, below]
    rw [tests]
    refine Sim.bind (S := S) ho
      (branchRaw_sim law ‹_› .lt atTag List.mem_cons_self loaded next upper) fun _ _ => ?_
    rw [first]
    refine Sim.first (S := S) ho (.skip ho (by simp) (switchTo_lays law order)) fun _ => ?_
    refine Sim.first (S := S) ho (rawWord_sim law high) fun hi => ?_
    refine Sim.first (S := S) ho
      (.skip ho (by simp) (.same ho fun run => (law.branchRaw run).1)) fun _ => ?_
    refine .ret ho (fun _ hs => hs) fun _ _ _ hw => ?_
    simpa only [outside, Bool.false_eq_true, if_false, if_true] using hw.drop (by simp) (by simp)
  · have first : holds .lt (k : Int) cls.tag = false := by simp [holds]; omega
    have inside : cls.covers k = !decide (cls.lastTag < k) := by
      simp only [ClassLayout.covers]
      by_cases above : cls.lastTag < k
      · simp only [above, decide_true, Bool.not_true, Bool.and_eq_false_iff,
          decide_eq_false_iff_not]
        omega
      · simp only [above, decide_false, Bool.not_false, Bool.and_eq_true, decide_eq_true_eq]
        omega
    have second : holds .gt (k : Int) cls.lastTag = decide (cls.lastTag < k) := by simp [holds]
    have tests : logAll (rangeTests k [(cls, ())]) =
        decided (holds .lt (k : Int) cls.tag) >>= fun _ =>
          decided (holds .gt (k : Int) cls.lastTag) >>= fun _ => pure () := by
      by_cases above : cls.lastTag < k <;> simp [rangeTests, logAll, first, second, below, above]
    rw [tests]
    refine Sim.bind (S := S) ho
      (branchRaw_sim law ‹_› .lt atTag List.mem_cons_self loaded next upper) fun _ _ => ?_
    rw [first]
    refine Sim.first (S := S) ho (switchTo_sim law ‹_› order) fun _ => ?_
    refine Sim.first (S := S) ho (rawWord_sim law high) fun hi => ?_
    refine Sim.bind (S := S) ho (branchRaw_sim law ‹_› .gt (List.mem_cons_of_mem _ atTag)
      List.mem_cons_self loaded next matched) fun _ _ => ?_
    rw [second]
    refine .ret ho (fun _ hs => hs) fun _ _ _ hw => ?_
    have away : (if cls.covers k = true then matched else next) =
        if decide (cls.lastTag < k) = true then next else matched := by
      by_cases above : cls.lastTag < k <;> simp [inside, above]
    simpa only [away] using hw.drop (by simp) (by simp)

theorem caseEntry_miss (law : M.Lawful S) {tag : B.Raw} {v : B.Value} {x : Val} {k : Nat}
    {cls : ClassLayout} (live : Live Z.names Z.slots H) (known : cls ∈ S.classes.classes)
    (name : String) (loaded : M.loaded tag) (miss : cls.covers k = false) :
    Sim M (M.Sets Z) (M.Stands n Z.names Z.slots H .here [(v, x)] [(tag, (k : Int))])
      (caseEntry tag v cls name) (logAll (rangeTests k [(cls, ())]))
      (fun p s => M.Sets (Z.inside name p.1 p.2) s ∧ .inl p.2 ∉ Z.slots)
      fun p _ => M.Stands n Z.names Z.slots H (.block p.1) [(v, x)] [(tag, (k : Int))] := by
  have ho := law.toOrdered
  unfold caseEntry
  rw [← bind_pure (logAll _)]
  refine Sim.bind (S := S) ho (caseTests_sim law live known loaded) fun p _ => ?_
  rw [miss]
  refine Sim.first (S := S) ho (.skip ho (by simp) (switchTo_lays law (.refl _))) fun _ => ?_
  refine Sim.first (S := S) ho (.skip ho (by simp) (enterScope_lays law ‹_› name v)) fun a => ?_
  exact .ret ho (fun _ hs => hs) fun _ _ _ hw => hw

theorem caseEntry_hit (law : M.Lawful S) {tag : B.Raw} {v : B.Value} {x : Val} {k : Nat}
    {cls : ClassLayout} (live : Live Z.names Z.slots H) (known : cls ∈ S.classes.classes)
    (name : String) (loaded : M.loaded tag) (hit : cls.covers k = true) :
    Sim M (M.Sets Z) (M.Stands (n + 1) Z.names Z.slots H .here [(v, x)] [(tag, (k : Int))])
      (caseEntry tag v cls name)
      (do
        logAll (rangeTests k [(cls, ())])
        declare name x)
      (fun p s => M.Sets (Z.inside name p.1 p.2) s ∧ .inl p.2 ∉ Z.slots)
      fun p _ =>
        M.Stands n ((name, .stack p.2) :: Z.names) (.inl p.2 :: Z.slots) H .here [] [] := by
  have ho := law.toOrdered
  unfold caseEntry
  refine Sim.bind (S := S) ho (caseTests_sim law ‹_› known loaded) fun p _ => ?_
  rw [hit]
  refine Sim.first (S := S) ho (switchTo_sim law ‹_› (.refl _)) fun _ => ?_
  rw [← bind_pure (declare name x)]
  refine Sim.bind (S := S) ho (enterScope_sim law ‹_› name List.mem_cons_self) fun a _ => ?_
  exact .ret ho (fun _ hs => hs) fun _ _ _ hw => hw

theorem caseExit_sim (law : M.Lawful S) (live : Live Z.names Z.slots H) (join next : BlockName)
    (name : String) (a : B.Local) {u : B.Value} {y : Val} :
    Sim M (M.Sets (Z.inside name next a))
      (M.Stands n ((name, .stack a) :: Z.names) (.inl a :: Z.slots) H .here [(u, y)] [])
      (caseExit join next a u) forget (fun arm => M.Sets { Z with arms := Z.arms ++ [arm] })
      fun arm _ => M.Stands (n + 1) Z.names Z.slots H (.arm join arm y) [] [] := by
  have ho := law.toOrdered
  unfold caseExit
  rw [← bind_pure forget]
  refine Sim.bind (S := S) ho
    (leaveScope_sim (Z := { Z with opened := next :: Z.opened }) law ‹_› name a) fun _ _ => ?_
  refine Sim.first (S := S) ho (closeArm_sim law ‹_› List.mem_cons_self join) fun arm => ?_
  refine Sim.first (S := S) ho (.skip ho (by simp) (switchTo_lays law (.refl _))) fun _ => ?_
  exact .ret ho (fun _ hs => hs) fun _ _ _ hw => hw

theorem caseExit_skip (law : M.Lawful S) (live : Live Z.names Z.slots H) (join next : BlockName)
    (name : String) (a : B.Local) (u : B.Value) {vs : List (B.Value × Val)}
    {rs : List (B.Raw × Int)} :
    Sim M (M.Sets (Z.inside name next a)) (M.Stands n Z.names Z.slots H (.block next) vs rs)
      (caseExit join next a u) (pure ()) (fun arm => M.Sets { Z with arms := Z.arms ++ [arm] })
      fun _ _ => M.Stands n Z.names Z.slots H .here vs rs := by
  have ho := law.toOrdered
  unfold caseExit
  refine Sim.first (S := S) ho (.skip ho (by simp)
    (leaveScope_lays (Z := { Z with opened := next :: Z.opened }) law live name a)) fun _ => ?_
  refine Sim.first (S := S) ho (.skip ho (by simp) (closeArm_lays law u join)) fun arm => ?_
  refine Sim.first (S := S) ho (switchTo_sim law live (.refl _)) fun _ => ?_
  exact .ret ho (fun _ hs => hs) fun _ _ _ hw => hw

theorem caseEntry_lays (law : M.Lawful S) {tag : B.Raw} (live : Live Z.names Z.slots H)
    (v : B.Value) {cls : ClassLayout} (known : cls ∈ S.classes.classes) (name : String)
    (loaded : M.loaded tag) :
    Lays M (M.Sets Z) (caseEntry tag v cls name)
      fun p s => M.Sets (Z.inside name p.1 p.2) s ∧ .inl p.2 ∉ Z.slots := by
  by_cases hit : cls.covers 0 = true
  · exact (caseEntry_hit (n := 0) (x := .void) law live known name loaded hit).lays
  · exact
      (caseEntry_miss (n := 0) (x := .void) law live known name loaded (by simpa using hit)).lays

/-- An alternative and its meaning: the same class and name, and a body that the code realizes. -/
def Matches (M : Model B) (d : Nat) (c : ClassLayout × Branch (Lowering B B.Value))
    (e : ClassLayout × Branch (Eval Val)) : Prop :=
  c.1 = e.1 ∧ c.2.name = e.2.name ∧ Realizes M c.2.body d e.2.body

variable {d : Nat} {tag : B.Raw} {v : B.Value} {join : BlockName}

theorem caseArm_lays (law : M.Lawful S) {cls : ClassLayout} (live : Live Z.names Z.slots H)
    (known : cls ∈ S.classes.classes)
    (loaded : M.loaded tag) {b : Branch (Lowering B B.Value)} {ε : Eval Val}
    (hb : Realizes M b.body d ε) :
    Lays M (M.Sets Z) (caseArm B tag v join cls b)
      fun arm => M.Sets { Z with arms := Z.arms ++ [arm] } := by
  rw [caseArm_pieces]
  refine (caseEntry_lays law live v known b.name loaded).bind law.toOrdered fun p => ?_
  intro s arm s' run hs
  have inner := live.bind hs.2 b.name
  have rest : Lays M (M.Sets (Z.inside b.name p.1 p.2))
      (b.body >>= fun u => caseExit join p.1 p.2 u)
      fun arm => M.Sets { Z with arms := Z.arms ++ [arm] } := by
    refine (hb.lays (Z := Z.inside b.name p.1 p.2) inner).bind law.toOrdered fun u => ?_
    exact fun _ _ _ run hs =>
      (caseExit_sim (n := 0) (y := .void) law live join p.1 b.name p.2).lays run hs.1
  exact rest run hs.1

theorem caseArms_lays (law : M.Lawful S) (live : Live Z.names Z.slots H) (loaded : M.loaded tag)
    {cs : List (ClassLayout × Branch (Lowering B B.Value))}
    {es : List (ClassLayout × Branch (Eval Val))} (h : List.Forall₂ (Matches M d) cs es)
    (known : ∀ e ∈ es, e.1 ∈ S.classes.classes) :
    Lays M (M.Sets Z) (caseArms B tag v join cs)
      fun arms => M.Sets { Z with arms := Z.arms ++ arms } := by
  have ho := law.toOrdered
  induction h generalizing Z with
  | nil =>
    intro s arms s' run hs
    obtain ⟨rfl, rfl⟩ := pure_ok.mp run
    exact ⟨⟨ho.refl, PoolLe.refl _⟩, by simpa using hs⟩
  | @cons c e cs es hc rest ih =>
    obtain ⟨k, b⟩ := c
    have same : k = e.1 := hc.1
    have mem : k ∈ S.classes.classes := same ▸ known e List.mem_cons_self
    unfold caseArms
    refine (caseArm_lays law ‹_› mem loaded hc.2.2).bind ho fun arm => ?_
    refine (ih (Z := { Z with arms := Z.arms ++ [arm] }) live
      (fun e he => known e (List.mem_cons_of_mem _ he))).bind ho fun arms => ?_
    intro s all s' run hs
    obtain ⟨rfl, rfl⟩ := pure_ok.mp run
    exact ⟨⟨ho.refl, PoolLe.refl _⟩, by simpa using hs⟩

/-- The alternative that the tests come to, one test after another. -/
def select (S : Setting) (line : UInt64) (k : Nat) (x : Val) :
    List (ClassLayout × Branch (Eval Val)) → Eval Val
  | [] => Meaning.abort S .caseNoMatch line
  | (cls, b) :: es => do
    logAll (rangeTests k [(cls, ())])
    if cls.covers k then Meaning.inScope b.name x b.body else select S line k x es

theorem logAll_append (as bs : List Bool) :
    logAll (as ++ bs) = logAll as >>= fun _ => logAll bs := by
  induction as with
  | nil => simp [logAll]
  | cons a as ih => simp [logAll, ih]

theorem rangeTests_cons {β : Type} (k : Nat) (cls : ClassLayout) (b : β)
    (bs : List (ClassLayout × β)) :
    rangeTests k ((cls, b) :: bs) =
      rangeTests k [(cls, ())] ++ if cls.covers k then [] else rangeTests k bs := by
  by_cases below : k < cls.tag
  · have outside : cls.covers k = false := by simp [ClassLayout.covers]; omega
    simp [rangeTests, below, outside]
  · by_cases above : cls.lastTag < k
    · have outside : cls.covers k = false := by simp [ClassLayout.covers]; omega
      simp [rangeTests, below, above, outside]
    · have inside : cls.covers k = true := by simp [ClassLayout.covers]; omega
      simp [rangeTests, below, above, inside]

/-- All tests first and then the choice, or one test after another: the same events. -/
theorem select_eq (line : UInt64) (k : Nat) (x : Val)
    (es : List (ClassLayout × Branch (Eval Val))) :
    select S line k x es = (do
      logAll (rangeTests k es)
      match es.find? (fun e => e.1.covers k) with
      | some (_, b) => Meaning.inScope b.name x b.body
      | none => Meaning.abort S .caseNoMatch line) := by
  induction es with
  | nil => simp [select, rangeTests, logAll]
  | cons e es ih =>
    obtain ⟨cls, b⟩ := e
    rw [select, rangeTests_cons k cls b es, logAll_append, bind_assoc]
    cases hit : cls.covers k with
    | true => simp [hit, logAll]
    | false => simp [hit, ih]

/-- The tests lead to the alternative that covers the tag, and its value to the join. -/
theorem chain_sim (law : M.Lawful S) (live : Live Z.names Z.slots H) (loaded : M.loaded tag)
    {x : Val} {k : Nat} {file : Const}
    (line : UInt64) {cs : List (ClassLayout × Branch (Lowering B B.Value))}
    {es : List (ClassLayout × Branch (Eval Val))} (h : List.Forall₂ (Matches M d) cs es)
    (known : ∀ e ∈ es, e.1 ∈ S.classes.classes) (room : d + 1 ≤ n) {O : List BlockName}
    (name : (file, .str S.current.fileName) ∈ Z.pooled) (opened : Z.opened.Perm (join :: O))
    (before : List B.Arm) {A : List B.Arm} (arms : Z.arms = A ++ before) :
    Sim M (M.Sets Z) (M.Stands n Z.names Z.slots H .here [(v, x)] [(tag, (k : Int))])
      (do
        let after ← caseArms B tag v join cs
        target (B.abort .caseNoMatch file line)
        target (B.merge (before ++ after) join))
      (select S line k x es)
      (fun u s => M.Sets { Z with opened := O, arms := A } s ∧ M.result u)
      fun u y => M.Stands n Z.names Z.slots H .here [(u, y)] [] := by
  have ho := law.toOrdered
  -- along the alternatives: `before` are the arms of those whose tests have failed
  induction h generalizing Z before with
  | nil =>
    simp only [caseArms, pure_bind]
    refine Sim.last ho (abort_sim law name) fun _ s u s' run hs => ?_
    obtain ⟨grown, hs', result⟩ := merge_lays law opened run hs
    exact ⟨grown, hs'.trim (List.Subset.refl _) (arms ▸ List.sublist_append_left ..), result⟩
  | @cons c e cs es hc rest ih =>
    obtain ⟨cls, b⟩ := c
    obtain ⟨cls', b'⟩ := e
    obtain ⟨same, named, body⟩ := hc
    dsimp only at same named body
    subst same
    have mem : cls ∈ S.classes.classes := known (cls, b') List.mem_cons_self
    have known' : ∀ e ∈ es, e.1 ∈ S.classes.classes := fun e he =>
      known e (List.mem_cons_of_mem _ he)
    simp only [caseArms, caseArm_pieces, bind_assoc, pure_bind]
    unfold select
    cases hit : cls.covers k with
    | true =>
      obtain ⟨m, rfl⟩ : ∃ m, n = m + 1 := ⟨n - 1, by omega⟩
      simp only [if_true, Meaning.inScope, ← named]
      rw [← bind_assoc]
      refine Sim.bind (S := S) ho (caseEntry_hit law live mem b.name loaded hit) fun p _ =>
        .given fun fresh => ?_
      have inner := live.bind fresh b.name
      refine Sim.bind (S := S) ho (body.sim (Z := Z.inside b.name p.1 p.2) inner (by omega))
        fun u y => .given fun _ => ?_
      refine Sim.bind (S := S) ho (caseExit_sim law live join p.1 b.name p.2) fun arm _ => ?_
      refine Sim.yields ?_
      refine Sim.first (S := S) ho (.skip ho (by simp)
        (caseArms_lays (Z := { Z with arms := Z.arms ++ [arm] }) law live loaded rest known'))
        fun after => ?_
      refine Sim.first (S := S) ho (.skip ho (by simp) (abort_lays law _ _ _)) fun _ => ?_
      refine (merge_sim (Z := { Z with arms := Z.arms ++ [arm] ++ after }) law live opened
        ?_ ?_).weaken (fun _ h => h) (fun _ _ _ h => h)
        (fun _ _ hs => ⟨hs.1.trim (List.Subset.refl _) ?_, hs.2⟩) fun _ _ _ _ _ h => h
      · simp [arms]
      · simp
      · simp [arms]
    | false =>
      simp only [Bool.false_eq_true, if_false]
      refine Sim.bind (S := S) ho (caseEntry_miss law live mem b.name loaded hit) fun p _ =>
        .given fun fresh => ?_
      have inner := live.bind fresh b.name
      refine Sim.first (S := S) ho
        (.skip ho (by simp) (body.lays (Z := Z.inside b.name p.1 p.2) inner)) fun u =>
        .given fun _ => ?_
      refine Sim.first (S := S) ho (caseExit_skip law ‹_› join p.1 b.name p.2 u) fun arm => ?_
      have next := ih (Z := { Z with arms := Z.arms ++ [arm] }) live known' name opened
        (before ++ [arm]) (by simp [arms])
      simpa only [List.append_assoc, List.singleton_append] using next

theorem branchClasses_sim {bs : List (Branch (Lowering B B.Value))} {es : List (Branch (Eval Val))}
    (h : List.Forall₂ (fun b e => b.name = e.name ∧ b.ty = e.ty ∧ Realizes M b.body d e.body)
      bs es) {α β : Type} {pre : Session B → Prop} {P : Session B → World → M.Config → Prop}
    {f : List (ClassLayout × Branch (Lowering B B.Value)) → Lowering B α}
    {g : List (ClassLayout × Branch (Eval Val)) → Eval β} {post : α → Session B → Prop}
    {Q : α → β → Session B → World → M.Config → Prop}
    (k : ∀ cs ds, List.Forall₂ (Matches M d) cs ds → (∀ e ∈ ds, e.1 ∈ S.classes.classes) →
      Sim M pre P (f cs) (g ds) post Q) :
    Sim M pre P (branchClasses B S.context bs >>= f) (Meaning.branchClasses S es >>= g) post Q := by
  induction h generalizing f g with
  | nil =>
    simp only [branchClasses, Meaning.branchClasses, pure_bind]
    exact k [] [] .nil (by simp)
  | @cons b e bs es hb rest ih =>
    obtain ⟨named, typed, body⟩ := hb
    simp only [branchClasses, Meaning.branchClasses, bind_assoc, pure_bind, typed]
    refine .find fun cls found => ih fun cs ds same known => ?_
    refine k _ _ (.cons ⟨rfl, named, body⟩ same) fun e he => ?_
    rcases List.mem_cons.mp he with rfl | he
    · exact ClassTable.mem_of_find found
    · exact known e he

theorem placeByTag_matches {c : ClassLayout × Branch (Lowering B B.Value)}
    {e : ClassLayout × Branch (Eval Val)} (h : Matches M d c e)
    {cs : List (ClassLayout × Branch (Lowering B B.Value))}
    {es : List (ClassLayout × Branch (Eval Val))} (rest : List.Forall₂ (Matches M d) cs es) :
    List.Forall₂ (Matches M d) (placeByTag c cs) (placeByTag e es) := by
  induction rest with
  | nil => exact .cons h .nil
  | @cons c' e' cs es h' rest ih =>
    unfold placeByTag
    rw [h.1, h'.1]
    split
    · exact .cons h (.cons h' rest)
    · exact .cons h' ih

theorem testOrder_matches {cs : List (ClassLayout × Branch (Lowering B B.Value))}
    {es : List (ClassLayout × Branch (Eval Val))} (h : List.Forall₂ (Matches M d) cs es) :
    List.Forall₂ (Matches M d) (testOrder cs) (testOrder es) := by
  induction h with
  | nil => exact .nil
  | cons h _ ih => exact placeByTag_matches h ih

theorem Sim.orWrong {α β κ : Type} {pre : Session B → Prop}
    {P : Session B → World → M.Config → Prop} {m : Lowering B α} {k : Except Fault κ}
    {g : κ → Eval β} {post : α → Session B → Prop}
    {Q : α → β → Session B → World → M.Config → Prop} (wrong : M.ends .wrong)
    (lays : Lays M pre m post) (h : ∀ c, k = .ok c → Sim M pre P m (g c) post Q) :
    Sim M pre P m (Meaning.ofExcept k >>= g) post Q := by
  cases k with
  | ok c => exact h c rfl
  | error e => exact ⟨lays, fun _ _ _ _ _ _ _ _ _ => wrong⟩

theorem caseOf_realizes (law : M.Lawful S) (built : S.Built) (line : UInt64) {e : Nat}
    {l : Lowering B B.Value} {ε : Eval Val} (hl : Realizes M l e ε)
    {bs : List (Branch (Lowering B B.Value))} {es : List (Branch (Eval Val))}
    (h : List.Forall₂ (fun b e => b.name = e.name ∧ b.ty = e.ty ∧ Realizes M b.body d e.body)
      bs es) :
    Realizes M (Lowering.caseOf B S.context line l bs) (max e (d + 1))
      (Meaning.caseOf S line ε es) := by
  intro Z H n live room
  have ho := law.toOrdered
  obtain ⟨p, program⟩ := built.program
  unfold Lowering.caseOf Meaning.caseOf
  refine Sim.first (S := S) ho (pooled_sim ho (string_pooled S.current.fileName)) fun file => ?_
  let Y : Scene B := { Z with pooled := (file, .str S.current.fileName) :: Z.pooled }
  refine Sim.bind (S := S) ho (hl.sim (Z := Y) live (by omega)) fun v x => .given fun _ => ?_
  have chain (tag : B.Raw) (join : BlockName) (loaded : M.loaded tag) (x : Val) (k : Nat)
      (g : List (ClassLayout × Branch (Eval Val)) → Eval Val)
      (hg : ∀ ds, (∀ e ∈ ds, e.1 ∈ S.classes.classes) → g ds = select S line k x (testOrder ds)) :
      Sim M (M.Sets { Y with opened := join :: Y.opened })
        (M.Stands n Z.names Z.slots H .here [(v, x)] [(tag, (k : Int))])
        (do
          let classes ← branchClasses B S.context bs
          let arms ← caseArms B tag v join (testOrder classes)
          target (B.abort .caseNoMatch file line)
          target (B.merge arms join))
        (Meaning.branchClasses S es >>= g) (fun v s => M.Sets Z s ∧ M.result v)
        fun u y => M.Stands n Z.names Z.slots H .here [(u, y)] [] := by
    refine branchClasses_sim h fun cs ds same known => ?_
    rw [hg ds known]
    have tested : ∀ e ∈ testOrder ds, e.1 ∈ S.classes.classes := fun e he =>
      known e ((testOrder_perm ds).subset he)
    have sim := chain_sim (Z := { Y with opened := join :: Y.opened }) (v := v) (x := x) (k := k)
      law live loaded line (testOrder_matches same) tested (n := n) (by omega) List.mem_cons_self
      (.refl _) [] (List.append_nil _).symm
    refine sim.weaken (fun _ hs => hs) (fun _ _ _ hw => hw) (fun _ _ hs => ⟨?_, hs.2⟩)
      fun _ _ _ _ _ hw => hw
    exact hs.1.trim (List.subset_cons_self ..) (List.Sublist.refl _)
  have after (y : Val) : Sim M (M.Sets Y) (M.Stands n Z.names Z.slots H .here [(v, y)] [])
      (do
        let tag ← target (B.loadTag v)
        let join ← target (B.newBlock "case_end")
        let classes ← branchClasses B S.context bs
        let arms ← caseArms B tag v join (testOrder classes)
        target (B.abort .caseNoMatch file line)
        target (B.merge arms join))
      (do
        let o ← object y
        let cls ← Meaning.ofExcept (S.classes.atTag o.tag)
        let bs ← Meaning.branchClasses S es
        logAll (rangeTests o.tag (testOrder bs))
        match nearest (ancestors S.classes cls) bs with
        | some (_, b) => Meaning.inScope b.name y b.body
        | none => Meaning.abort S .caseNoMatch line)
      (fun v s => M.Sets Z s ∧ M.result v)
      fun u z => M.Stands n Z.names Z.slots H .here [(u, z)] [] := by
    refine Sim.bind (S := S) ho (loadTag_sim law live (List.mem_singleton_self (v, y)))
      fun tag o => .given fun loaded => ?_
    refine Sim.first (S := S) ho (newBlock_sim law _) fun join => ?_
    refine .orWrong law.wrong (chain tag join loaded y 0 _ fun _ _ => rfl).lays fun cls found => ?_
    obtain ⟨mem, own⟩ := built.tagged found
    refine chain tag join loaded y o.tag _ fun ds known => ?_
    rw [select_eq, ← own, nearest_eq program mem known]
  exact guarded_sim law ‹_› "case_void" "case_dispatch" .caseOnVoid line List.mem_cons_self
    (after .void).lays fun _ => after x

end

end ClassBackend.Lowering
