import Mathlib.Data.List.Perm.Basic
import ClassBackend.Proofs.Emission.Forms
import ClassBackend.Proofs.Meaning.Selection
import ClassBackend.Proofs.Scope.WellScoped

/-! Calls, case expressions, and with them every expression: under a discipline, lowering settles
exactly where the expression is well scoped. -/
namespace ClassBackend

def Context.surroundings (cx : Context) : Surroundings where
  declared := cx.Declares
  answers cls method := ∃ k, cx.classes.find cls = .ok k ∧ method ∈ k.methods.map (·.name)
  current := cx.current.name

namespace Emission

open Lowering Meaning

/-- The class that code is emitted for stands in its table, beside Int, Bool and its parent; the
machine has words for all tags, and the texts that every unit pools are known. -/
structure Grounds {B : Backend} (D : Discipline B) (texts : List String) (cx : Context) : Prop where
  int : cx.Declares Builtin.intName
  bool : cx.Declares Builtin.boolName
  current : cx.classes.find cx.current.name = .ok cx.current
  parent : ∀ q, cx.current.parent = some q → cx.Declares q
  tags : ∀ k ∈ cx.classes.classes, D.word k.tag ∧ D.word k.lastTag
  blank : "" ∈ texts
  file : cx.current.fileName ∈ texts

variable {B : Backend} {D : Discipline B} {texts : List String} {cx : Context}
variable {N : List (String × Binding B.Local)} {ms : List (Option String)} {G : List Literal}
variable {F : Formals B} {K : List (Slot B)} {O : List (Pending B)}
variable {H : List (BlockName × List (Slot B))} {vars : Set String}
variable {C C' : Prop} {L L' : List Literal} {e : Lowering B B.Value}
variable {ι : Type} {is : List ι} {P : ι → Prop} {Q : ι → List Literal}

theorem Covers.append (h : Covers F K N) (K' : List (Slot B)) : Covers F (K' ++ K) N :=
  fun a ha => (h a ha).imp_left (List.mem_append_right _)

section Dispatch

variable {m : ι → Lowering B B.Value}

theorem arguments_emits (law : D.Lawful) (h : ∀ i ∈ is, Lowers D texts (P i) vars (Q i) (m i))
    (hN : Names N vars) (hms : ms ≠ []) (live : Covers F K N) :
    Emits D.tolerates (∀ i ∈ is, P i) (Sets texts N ms G (D.inside F K true O H))
      (arguments B (is.map m)) anything fun saved => Sets texts N ms (G ++ is.flatMap Q)
        (D.inside F ((saved.map .inr).reverse ++ K) true O H) := by
  induction is generalizing G K with
  | nil =>
    rw [List.flatMap_nil, List.append_nil]
    exact Emits.when (C := True) (Emits.ret trivial fun _ hs => hs) (by simp)
  | cons i is ih =>
    simp only [List.flatMap_cons, ← List.append_assoc]
    refine Emits.when (C := P i ∧ ∀ k ∈ is, P k) ?_ (by simp)
    refine (h i (by simp) hN hms live).bind fun v _ => ?_
    refine law.preserve.lift.then fun saved _ => ?_
    have live := live.push (.inr saved)
    refine (ih (fun k hk => h k (List.mem_cons_of_mem _ hk)) live).free fun more _ => ?_
    refine Emits.ret trivial fun s hs => ?_
    rw [List.map_cons, List.reverse_cons, List.append_assoc (List.reverse _)]
    exact hs

theorem exists_methodLabel {k : ClassLayout} {name : String} :
    (∃ l, k.methodLabel name = .ok l) ↔ name ∈ k.methods.map (·.name) := by
  unfold ClassLayout.methodLabel
  cases found : k.methods.find? fun m => m.name == name with
  | none => simpa using List.find?_eq_none.mp found
  | some m =>
    have named : m.name = name := eq_of_beq (List.find?_some found :)
    have inside := List.mem_of_find?_eq_some found
    simp only [Except.ok.injEq, exists_eq', true_iff]
    exact named ▸ List.mem_map_of_mem inside

theorem exists_methodSlot {k : ClassLayout} {name : String} :
    (∃ i, k.methodSlot name = .ok i) ↔ name ∈ k.methods.map (·.name) := by
  unfold ClassLayout.methodSlot
  cases found : k.methods.findIdx? fun m => m.name == name with
  | none => simpa using List.findIdx?_eq_none_iff.mp found
  | some i =>
    obtain ⟨inside, named, _⟩ := List.findIdx?_eq_some_iff_getElem.mp found
    simp only [Except.ok.injEq, exists_eq', true_iff]
    exact List.mem_map.mpr ⟨_, List.getElem_mem inside, eq_of_beq named⟩

theorem guard_emits {α : Type} (law : D.Lawful) {hint hint' : String} (plain : plainEnd hint = true)
    (plain' : plainEnd hint' = true) {v : B.Value} {kind : AbortKind} {file : Const} {line : UInt64}
    {f : Lowering B α} {R : α → Prop} {post : α → Session B → Prop}
    (h : Emits D.tolerates C (Sets texts N ms G (D.inside F K true O H)) f R post) :
    Emits D.tolerates C (Sets texts N ms G (D.inside F K true O H)) (do
      let onVoid ← target (B.newBlock hint)
      let next ← target (B.newBlock hint')
      target (B.branchVoid v onVoid next)
      target (B.switchTo onVoid)
      target (B.abort kind file line)
      target (B.switchTo next)
      f) R post := by
  refine (law.newBlock plain (.inl rfl)).lift.then fun onVoid _ => ?_
  refine (law.newBlock plain' (.inl rfl)).lift.then fun next _ => ?_
  refine (law.branchVoid (.inl (by simp)) (.inl (by simp))).lift.then fun _ _ => ?_
  refine (law.open [⟨next, K, none⟩]).then fun _ _ => ?_
  refine law.abort.lift.then fun _ _ => ?_
  refine (law.open []).then fun _ _ => ?_
  exact h

theorem answers_resolve (grounds : Grounds D texts cx) {ty method : String} :
    cx.surroundings.answers (cx.surroundings.resolve ty) method ↔
      ∃ k, cx.classes.resolve ty cx.current = .ok k ∧ ∃ i, k.methodSlot method = .ok i := by
  simp only [exists_methodSlot, Context.surroundings, Surroundings.resolve, ClassTable.resolve]
  by_cases own : ty = selfType
  · simp only [own, if_true]
    rw [grounds.current]
  · simp only [own, if_false]

theorem Lowers.dispatch (law : D.Lawful) (grounds : Grounds D texts cx) (line : UInt64)
    (ty method : String) (he : Lowers D texts C vars L e)
    (h : ∀ i ∈ is, Lowers D texts (P i) vars (Q i) (m i)) :
    Lowers D texts
      ((∀ i ∈ is, P i) ∧ C ∧ cx.surroundings.answers (cx.surroundings.resolve ty) method) vars
      (is.flatMap Q ++ L) (Lowering.dispatch B cx line ty e none method (is.map m)) := by
  intro N ms G F K O H hN hms live
  simp only [← List.append_assoc]
  refine (Emits.pool fun p hp => hp.text grounds.file).then fun file _ => ?_
  refine (arguments_emits law h hN hms live).bind fun saved _ => ?_
  refine (he hN hms (live.append _)).bind fun recv _ => ?_
  refine guard_emits law (by decide) (by decide) ?_
  refine Emits.when (C := ∃ k, cx.classes.resolve ty cx.current = .ok k ∧
    ∃ i, k.methodSlot method = .ok i ∧ True) ?_ (by simp [answers_resolve grounds])
  refine Emits.find fun k _ => ?_
  refine Emits.find fun i _ => ?_
  exact law.callDynamic.lift

theorem Lowers.staticDispatch (law : D.Lawful) (grounds : Grounds D texts cx) (line : UInt64)
    (ty cls method : String) (he : Lowers D texts C vars L e)
    (h : ∀ i ∈ is, Lowers D texts (P i) vars (Q i) (m i)) :
    Lowers D texts ((∀ i ∈ is, P i) ∧ C ∧ cx.surroundings.answers cls method) vars
      (is.flatMap Q ++ L) (Lowering.dispatch B cx line ty e (some cls) method (is.map m)) := by
  intro N ms G F K O H hN hms live
  simp only [← List.append_assoc]
  refine (Emits.pool fun p hp => hp.text grounds.file).then fun file _ => ?_
  refine (arguments_emits law h hN hms live).bind fun saved _ => ?_
  refine (he hN hms (live.append _)).bind fun recv _ => ?_
  refine guard_emits law (by decide) (by decide) ?_
  refine Emits.when (C := ∃ k, cx.classes.find cls = .ok k ∧
    ∃ l, k.methodLabel method = .ok l ∧ True) ?_
    (by simp [Context.surroundings, exists_methodLabel])
  refine Emits.find fun k _ => ?_
  refine Emits.find fun l _ => ?_
  exact law.callDirect.lift

end Dispatch

section Cases

variable {br : ι → Branch (Lowering B B.Value)}

theorem branchClasses_emits {pre : Session B → Prop} :
    Emits D.tolerates (∀ i ∈ is, cx.Declares (br i).ty) pre (branchClasses B cx (is.map br))
      (fun cs => ∃ ks : List (ClassLayout × ι), cs = ks.map (fun k => (k.1, br k.2)) ∧
        ks.map (·.2) = is ∧ ∀ k ∈ ks, k.1 ∈ cx.classes.classes) fun _ => pre := by
  induction is with
  | nil => exact Emits.when (C := True) (Emits.ret ⟨[], by simp⟩ fun _ hs => hs) (by simp)
  | cons i is ih =>
    refine Emits.when (C := ∃ k, cx.classes.find (br i).ty = .ok k ∧
      ∀ j ∈ is, cx.Declares (br j).ty) ?_ (by simp [Context.Declares])
    refine Emits.find fun k found => ?_
    refine ih.free fun cs hcs => ?_
    obtain ⟨ks, rfl, rfl, inside⟩ := hcs
    refine Emits.ret ⟨(k, i) :: ks, by simp, by simp, ?_⟩ fun _ hs => hs
    rintro p (_ | ⟨_, hp⟩)
    · exact ClassTable.mem_of_find found
    · exact inside p hp

theorem placeByTag_map (f : ι → Branch (Lowering B B.Value)) (k : ClassLayout × ι)
    (ks : List (ClassLayout × ι)) :
    placeByTag (k.1, f k.2) (ks.map fun k => (k.1, f k.2)) =
      (placeByTag k ks).map fun k => (k.1, f k.2) := by
  induction ks with
  | nil => rfl
  | cons j ks ih =>
    simp only [List.map_cons, placeByTag]
    split
    · rfl
    · rw [ih, List.map_cons]

theorem testOrder_map (f : ι → Branch (Lowering B B.Value)) (ks : List (ClassLayout × ι)) :
    testOrder (ks.map fun k => (k.1, f k.2)) = (testOrder ks).map fun k => (k.1, f k.2) := by
  induction ks with
  | nil => rfl
  | cons k ks ih =>
    change placeByTag _ (testOrder _) = (placeByTag k (testOrder ks)).map _
    rw [ih, placeByTag_map]

theorem caseArm_emits (law : D.Lawful) {tag : B.Raw} {v : B.Value} {join : BlockName}
    {cls : ClassLayout} {b : Branch (Lowering B B.Value)} {arms : List B.Arm}
    (lo : D.word cls.tag) (hi : D.word cls.lastTag)
    (hb : Lowers D texts C (insert b.name vars) L b.body) (hN : Names N vars)
    (live : Covers F K N) :
    Emits D.tolerates C (Sets texts N ms G (D.inside F K true (⟨join, K, some arms⟩ :: O) H))
      (caseArm B tag v join cls b) anything fun a =>
        Sets texts N ms (G ++ L) (D.inside F K true (⟨join, K, some (arms ++ [a])⟩ :: O) H) := by
  refine (law.newBlock (by decide) (.inl rfl)).lift.then fun next _ => ?_
  refine (law.newBlock (by decide) (.inl rfl)).lift.then fun upper _ => ?_
  refine (law.newBlock (by decide) (.inl rfl)).lift.then fun matched _ => ?_
  refine (law.rawWord lo).kept.then fun lo _ => ?_
  refine (law.branchRaw (.inl (by simp)) (.inl (by simp))).lift.then fun _ _ => ?_
  refine (law.open [⟨matched, K, none⟩]).then fun _ _ => ?_
  refine (law.rawWord hi).kept.then fun hi _ => ?_
  refine (law.branchRaw (.inl (by simp)) (.inl (by simp))).lift.then fun _ _ => ?_
  refine (law.open []).then fun _ _ => ?_
  refine (inScope_emits law hb hN live).free fun result _ => ?_
  refine (law.closeArm (R := [⟨next, K, none⟩])).lift.then fun a _ => ?_
  refine (law.open []).then fun _ _ => ?_
  exact Emits.ret trivial fun _ hs => hs

theorem caseArms_emits (law : D.Lawful) {tag : B.Raw} {v : B.Value} {join : BlockName}
    {ks : List (ClassLayout × ι)} {arms : List B.Arm}
    (words : ∀ k ∈ ks, D.word k.1.tag ∧ D.word k.1.lastTag)
    (h : ∀ k ∈ ks, Lowers D texts (P k.2) (insert (br k.2).name vars) (Q k.2) (br k.2).body)
    (hN : Names N vars) (live : Covers F K N) :
    Emits D.tolerates (∀ k ∈ ks, P k.2)
      (Sets texts N ms G (D.inside F K true (⟨join, K, some arms⟩ :: O) H))
      (caseArms B tag v join (ks.map fun k => (k.1, br k.2))) anything fun as =>
        Sets texts N ms (G ++ ks.flatMap (Q ·.2))
          (D.inside F K true (⟨join, K, some (arms ++ as)⟩ :: O) H) := by
  induction ks generalizing G arms with
  | nil =>
    rw [List.flatMap_nil, List.append_nil]
    refine Emits.when (C := True) (Emits.ret trivial fun s hs => ?_) (by simp)
    rw [List.append_nil]
    exact hs
  | cons k ks ih =>
    simp only [List.flatMap_cons, ← List.append_assoc]
    refine Emits.when (C := P k.2 ∧ ∀ j ∈ ks, P j.2) ?_ (by simp)
    obtain ⟨lo, hi⟩ := words k (List.mem_cons_self ..)
    refine (caseArm_emits law lo hi (h k (List.mem_cons_self ..)) hN live).bind fun a _ => ?_
    refine (ih (fun j hj => words j (List.mem_cons_of_mem _ hj))
      fun j hj => h j (List.mem_cons_of_mem _ hj)).free fun as _ => ?_
    refine Emits.ret trivial fun s hs => ?_
    rw [List.append_cons]
    exact hs

theorem Lowers.caseOf (law : D.Lawful) (grounds : Grounds D texts cx) (line : UInt64)
    (br : ι → Branch (Lowering B B.Value))
    (he : Lowers D texts C vars L e)
    (h : ∀ i ∈ is, Lowers D texts (P i) (insert (br i).name vars) (Q i) (br i).body) :
    Lowers D texts (C ∧ ∀ i ∈ is, cx.Declares (br i).ty ∧ P i) vars (L ++ is.flatMap Q)
      (Lowering.caseOf B cx line e (is.map br)) := by
  intro N ms G F K O H hN hms live
  rw [← List.append_assoc]
  refine (Emits.pool fun p hp => hp.text grounds.file).then fun file _ => ?_
  refine (he hN hms live).bind fun v hv => ?_
  refine guard_emits law (by decide) (by decide) ?_
  refine (law.loadTag hv).kept.then fun tag _ => ?_
  refine (law.newBlock (by decide) (.inr rfl)).lift.then fun join _ => ?_
  refine Emits.when (C := (∀ i ∈ is, cx.Declares (br i).ty) ∧ ∀ i ∈ is, P i) ?_ (by grind)
  refine branchClasses_emits.bind fun cs hcs => ?_
  obtain ⟨ks, rfl, rfl, inside⟩ := hcs
  rw [testOrder_map]
  have perm := testOrder_perm ks
  have words : ∀ k ∈ testOrder ks, D.word k.1.tag ∧ D.word k.1.lastTag :=
    fun k hk => grounds.tags _ (inside k (perm.mem_iff.mp hk))
  have bodies : ∀ k ∈ testOrder ks,
      Lowers D texts (P k.2) (insert (br k.2).name vars) (Q k.2) (br k.2).body :=
    fun k hk => h _ (List.mem_map_of_mem (perm.mem_iff.mp hk))
  refine Emits.when (C := ∀ k ∈ testOrder ks, P k.2) ?_
    (by simp only [perm.mem_iff, List.forall_mem_map])
  refine (caseArms_emits law words bodies hN live).free fun arms _ => ?_
  refine law.abort.lift.then fun _ _ => ?_
  refine ((law.merge (R := [])).lift).weaken (fun _ hs => hs) Iff.rfl fun _ s hs => ?_
  refine ⟨hs.shows, hs.pooled.congr fun x => ?_, hs.target⟩
  simp only [List.flatMap_map, List.mem_append, List.mem_flatMap, perm.mem_iff]

end Cases

theorem lowerAll_eq (es : List Expr) : lowerAll B cx es = es.map (lower B cx) := by
  induction es with
  | nil => rfl
  | cons e es ih => rw [lowerAll, ih, List.map_cons]

def lowerBranch (B : Backend) (cx : Context) (b : Branch Expr) : Branch (Lowering B B.Value) :=
  ⟨b.name, b.ty, lower B cx b.body⟩

theorem lowerBranches_eq (bs : List (Branch Expr)) :
    lowerBranches B cx bs = bs.map (lowerBranch B cx) := by
  induction bs with
  | nil => rfl
  | cons b bs ih => rw [lowerBranches, ih, List.map_cons, lowerBranch]

mutual

/-- Lowering settles under the condition that the expression is well scoped. -/
theorem lower_lowers (law : D.Lawful) (grounds : Grounds D texts cx) (vars : Set String)
    (e : Expr) :
    Lowers D texts (e.Scoped cx.surroundings vars) vars e.literals (lower B cx e) := by
  match e with
  | .bool _ b => exact .value law.constant
  | .int _ v => exact .intLiteral law v
  | .str _ s => exact .stringLiteral law s
  | .ident _ name => exact .identifier law name
  | .binary _ op lhs rhs =>
    exact .binary law grounds.int op (lower_lowers law grounds vars lhs)
      (lower_lowers law grounds vars rhs)
  | .unary _ op e =>
    exact .unary law grounds.int grounds.bool op (lower_lowers law grounds vars e)
  | .new _ ty => exact .newObject law ty
  | .caseOf _ e branches =>
    have arms := lowerBranches_lower law grounds vars branches
    have whole := Lowers.caseOf law grounds e.line (lowerBranch B cx)
      (lower_lowers law grounds vars e) arms
    rw [lower, lowerBranches_eq, Expr.literals, Expr.branchLiterals_eq]
    refine whole.congr ?_ fun _ => Iff.rfl
    rw [Expr.Scoped, Expr.scopedBranches_iff]
    rfl
  | .letIn _ name ty none body =>
    exact (Lowers.letIn law name (.defaultValue law grounds.blank ty)
      (lower_lowers law grounds (insert name vars) body)).congr (by simp [Expr.Scoped])
      (by simp [Expr.literals])
  | .letIn _ name _ (some init) body =>
    exact .letIn law name (lower_lowers law grounds vars init)
      (lower_lowers law grounds (insert name vars) body)
  | .block _ es =>
    have parts := lowerAll_lower law grounds vars es
    rw [lower, lowerAll_eq, Expr.literals, Expr.allLiterals_eq]
    exact (Lowers.sequence law parts).congr (by rw [Expr.Scoped, Expr.scopedAll_iff])
      fun _ => Iff.rfl
  | .loop _ pred body =>
    exact .loop law grounds.bool (lower_lowers law grounds vars pred)
      (lower_lowers law grounds vars body)
  | .cond _ pred onTrue onFalse =>
    exact .cond law grounds.bool (lower_lowers law grounds vars pred)
      (lower_lowers law grounds vars onTrue) (lower_lowers law grounds vars onFalse)
  | .dispatch _ recv none method args =>
    have parts := lowerAll_lower law grounds vars args
    rw [lower, lowerAll_eq, Expr.literals, Expr.allLiterals_eq]
    exact (Lowers.dispatch law grounds recv.line recv.ty method
      (lower_lowers law grounds vars recv) parts).congr
      (by rw [Expr.Scoped, Expr.scopedAll_iff]) fun _ => Iff.rfl
  | .dispatch _ recv (some cls) method args =>
    have parts := lowerAll_lower law grounds vars args
    rw [lower, lowerAll_eq, Expr.literals, Expr.allLiterals_eq]
    exact (Lowers.staticDispatch law grounds recv.line recv.ty cls method
      (lower_lowers law grounds vars recv) parts).congr
      (by rw [Expr.Scoped, Expr.scopedAll_iff]) fun _ => Iff.rfl
  | .assign _ name e => exact .assign law name (lower_lowers law grounds vars e)

theorem lowerAll_lower (law : D.Lawful) (grounds : Grounds D texts cx) (vars : Set String)
    (es : List Expr) : ∀ e ∈ es,
    Lowers D texts (e.Scoped cx.surroundings vars) vars e.literals (lower B cx e) := by
  match es with
  | [] => simp
  | e :: es =>
    rintro e' (_ | ⟨_, he⟩)
    · exact lower_lowers law grounds vars e
    · exact lowerAll_lower law grounds vars es e' he

theorem lowerBranches_lower (law : D.Lawful) (grounds : Grounds D texts cx) (vars : Set String)
    (bs : List (Branch Expr)) : ∀ b ∈ bs,
    Lowers D texts (b.body.Scoped cx.surroundings (insert b.name vars)) (insert b.name vars)
      b.body.literals (lower B cx b.body) := by
  match bs with
  | [] => simp
  | ⟨name, _, body⟩ :: bs =>
    rintro b (_ | ⟨_, hb⟩)
    · exact lower_lowers law grounds (insert name vars) body
    · exact lowerBranches_lower law grounds vars bs b hb

end

end Emission

end ClassBackend
