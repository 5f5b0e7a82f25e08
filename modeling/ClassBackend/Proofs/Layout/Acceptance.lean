import ClassBackend.Proofs.Layout.SubtypeTest
import Mathlib.Data.List.Forall2

/-! Which hierarchies are laid out. A list of declarations is refused for the first of four defects,
in the order in which they are looked for, and for no other reason: a walk over parent links that
never ends repeats a class, so without a cycle every class is met on the way down from the only
root, and met once. -/
namespace ClassBackend

namespace Tree

variable {α : Type}

theorem preorders_eq_flatMap (ts : List (Tree α)) : preorders ts = ts.flatMap preorder := by
  induction ts with
  | nil => rfl
  | cons t ts ih => rw [preorders, ih, List.flatMap_cons]

end Tree

namespace Hierarchy

open Relation (TransGen ReflTransGen)

variable {decls : List ClassDecl} {root : ClassDecl}

def Resolves (decls : List ClassDecl) : Prop :=
  ∀ c ∈ decls, ∀ p, c.parent = some p → ∃ d ∈ decls, d.name = p

/-- No declared class comes back to itself over one or more parent links. -/
def CycleFree (decls : List ClassDecl) : Prop :=
  ∀ c ∈ decls, ¬ TransGen (Extends decls) c.name c.name

structure Valid (decls : List ClassDecl) : Prop where
  distinct : (decls.map (·.name)).Nodup
  resolves : Resolves decls
  cycleFree : CycleFree decls
  oneRoot : decls.countP (·.parent.isNone) = 1

/-- The defect that is reported: one that is looked for before it is absent, and of several of its
own kind it is the first in declaration order. -/
inductive Defect (decls : List ClassDecl) : Fault → Prop where
  | repeated {before after : List String} {c : String} : decls.map (·.name) = before ++ c :: after →
      before.Nodup → c ∈ before → Defect decls (.declaredTwice c)
  | orphan {before after : List ClassDecl} {c : ClassDecl} {p : String} :
      (decls.map (·.name)).Nodup → decls = before ++ c :: after → c.parent = some p →
      (∀ d ∈ decls, d.name ≠ p) →
      (∀ b ∈ before, ∀ q, b.parent = some q → ∃ d ∈ decls, d.name = q) →
      Defect decls (.unresolvedParent p c.name)
  | cycle {c : ClassDecl} : (decls.map (·.name)).Nodup → Resolves decls → c ∈ decls →
      TransGen (Extends decls) c.name c.name → Defect decls .inheritanceCycle
  | roots : (decls.map (·.name)).Nodup → Resolves decls → CycleFree decls →
      decls.countP (·.parent.isNone) ≠ 1 → Defect decls .rootCount

/-- The recursive visit, which ends: a class, then those that name it as parent, in declaration
order. Nothing cuts it off. -/
inductive Visits (decls : List ClassDecl) : ClassDecl → Tree ClassDecl → Prop where
  | visit {c : ClassDecl} {ts : List (Tree ClassDecl)} :
      List.Forall₂ (Visits decls) (childrenOf decls c.name) ts → Visits decls c (.node c ts)

section Names

theorem firstRepeated_append {seen before : List String} (distinct : before.Nodup)
    (apart : ∀ c ∈ before, c ∉ seen) (rest : List String) :
    firstRepeated seen (before ++ rest) = firstRepeated (before.reverse ++ seen) rest := by
  induction before generalizing seen with
  | nil => rfl
  | cons b bs ih =>
    obtain ⟨fresh, distinct⟩ := List.nodup_cons.mp distinct
    have apart' : ∀ c ∈ bs, c ∉ b :: seen := by
      intro c hc mem
      rcases List.mem_cons.mp mem with rfl | old
      · exact fresh hc
      · exact apart c (List.mem_cons_of_mem _ hc) old
    rw [List.cons_append, firstRepeated, if_neg (apart b List.mem_cons_self), ih distinct apart']
    simp only [List.reverse_cons, List.append_assoc, List.singleton_append]

theorem firstRepeated_some {seen names : List String} {c : String}
    (h : firstRepeated seen names = some c) : ∃ before after, names = before ++ c :: after ∧
      before.Nodup ∧ (∀ b ∈ before, b ∉ seen) ∧ (c ∈ seen ∨ c ∈ before) := by
  induction names generalizing seen with
  | nil => cases h
  | cons d ds ih =>
    rw [firstRepeated] at h
    split at h
    · rename_i old
      cases h
      exact ⟨[], ds, rfl, .nil, fun _ hb => absurd hb List.not_mem_nil, .inl old⟩
    · rename_i fresh
      obtain ⟨before, after, rfl, distinct, apart, again⟩ := ih h
      refine ⟨d :: before, after, rfl, ?_, ?_, ?_⟩
      · exact List.nodup_cons.mpr ⟨fun hd => apart d hd List.mem_cons_self, distinct⟩
      · intro b hb
        rcases List.mem_cons.mp hb with rfl | hb
        · exact fresh
        · exact fun hs => apart b hb (List.mem_cons_of_mem _ hs)
      · rcases again with old | old
        · rcases List.mem_cons.mp old with rfl | old
          · exact .inr List.mem_cons_self
          · exact .inl old
        · exact .inr (List.mem_cons_of_mem _ old)

theorem firstRepeated_iff {names : List String} {c : String} :
    firstRepeated [] names = some c ↔
      ∃ before after, names = before ++ c :: after ∧ before.Nodup ∧ c ∈ before := by
  constructor
  · intro h
    obtain ⟨before, after, split, distinct, -, again⟩ := firstRepeated_some h
    exact ⟨before, after, split, distinct, again.resolve_left List.not_mem_nil⟩
  · rintro ⟨before, after, rfl, distinct, again⟩
    rw [firstRepeated_append distinct fun _ _ => List.not_mem_nil, firstRepeated, if_pos]
    exact List.mem_append_left _ (List.mem_reverse.mpr again)

theorem any_name {p : String} : decls.any (·.name == p) = true ↔ ∃ d ∈ decls, d.name = p := by
  simp only [List.any_eq_true, beq_iff_eq]

theorem firstOrphan_iff {p c : String} : firstOrphan decls = some (p, c) ↔
    ∃ before d after, decls = before ++ d :: after ∧ d.name = c ∧ d.parent = some p ∧
      (∀ e ∈ decls, e.name ≠ p) ∧
      ∀ b ∈ before, ∀ q, b.parent = some q → ∃ e ∈ decls, e.name = q := by
  rw [firstOrphan, List.findSome?_eq_some_iff]
  constructor
  · rintro ⟨before, d, after, split, here, earlier⟩
    cases parent : d.parent with
    | none => simp only [parent, reduceCtorEq] at here
    | some q =>
      by_cases found : decls.any (·.name == q) = true
      · simp only [parent, found, if_true, reduceCtorEq] at here
      · simp only [parent, found, Bool.false_eq_true, if_false, Option.some.injEq,
          Prod.mk.injEq] at here
        obtain ⟨rfl, rfl⟩ := here
        refine ⟨before, d, after, split, rfl, parent, ?_, ?_⟩
        · exact fun e he named => found (any_name.mpr ⟨e, he, named⟩)
        · intro b hb q hq
          have passed := earlier b hb
          simp only [hq, ite_eq_left_iff, reduceCtorEq, imp_false, not_not] at passed
          exact any_name.mp passed
  · rintro ⟨before, d, after, split, rfl, parent, absent, earlier⟩
    refine ⟨before, d, after, split, ?_, ?_⟩
    · have missing : ¬ decls.any (·.name == p) = true := fun found => by
        obtain ⟨e, he, named⟩ := any_name.mp found
        exact absent e he named
      simp only [parent, missing, Bool.false_eq_true, if_false]
    · intro b hb
      cases hq : b.parent with
      | none => rfl
      | some q => simp only [any_name.mpr (earlier b hb q hq), if_true]

end Names

section Cycles

theorem Extends.parentOf (names : (decls.map (·.name)).Nodup) {c p : String}
    (h : Extends decls c p) : Hierarchy.parentOf decls c = some p := by
  obtain ⟨d, hd, rfl, hp⟩ := h
  rw [parentOf_name names hd, hp]

theorem extends_of_parentOf {c p : String} (h : parentOf decls c = some p) :
    Extends decls c p := by
  obtain ⟨d, found, hp⟩ := Option.bind_eq_some_iff.mp h
  exact ⟨d, List.mem_of_find?_eq_some found, eq_of_beq (List.find?_some found :), hp⟩

theorem not_climbs_of_cycle (names : (decls.map (·.name)).Nodup) {c : String}
    (cycle : TransGen (Extends decls) c c) (n : Nat) : climbs decls n c = false := by
  induction n generalizing c with
  | zero => rfl
  | succ n ih =>
    obtain ⟨p, up, back⟩ := Relation.TransGen.head'_iff.mp cycle
    simp only [climbs, up.parentOf names]
    exact ih (.tail' back up)

theorem walk_of_not_climbs (resolves : Resolves decls) {n : Nat} {c : String}
    (walk : climbs decls n c = false) : ∃ ups : List String, ups.length = n ∧
      (c :: ups).Pairwise (TransGen (Extends decls)) ∧ ∀ u ∈ ups, u ∈ decls.map (·.name) := by
  induction n generalizing c with
  | zero => exact ⟨[], rfl, List.pairwise_singleton _ _, fun _ hu => absurd hu List.not_mem_nil⟩
  | succ n ih =>
    simp only [climbs] at walk
    cases parent : parentOf decls c with
    | none => simp only [parent, Bool.true_eq_false] at walk
    | some p =>
      simp only [parent] at walk
      obtain ⟨ups, length, ordered, declared⟩ := ih walk
      have up : Extends decls c p := extends_of_parentOf parent
      refine ⟨p :: ups, by rw [List.length_cons, length], List.pairwise_cons.mpr ⟨?_, ordered⟩, ?_⟩
      · intro u hu
        rcases List.mem_cons.mp hu with rfl | hu
        · exact .single up
        · exact .head up ((List.pairwise_cons.mp ordered).1 u hu)
      · intro u hu
        rcases List.mem_cons.mp hu with rfl | hu
        · obtain ⟨d, hd, -, hp⟩ := up
          obtain ⟨e, he, rfl⟩ := resolves d hd _ hp
          exact List.mem_map_of_mem he
        · exact declared u hu

/-- There are not enough classes for a walk that never ends and repeats none. -/
theorem acyclic_iff (names : (decls.map (·.name)).Nodup) (resolves : Resolves decls) :
    acyclic decls = true ↔ CycleFree decls := by
  rw [acyclic, List.all_eq_true]
  constructor
  · intro climb c hc cycle
    have := climb c hc
    rw [not_climbs_of_cycle names cycle] at this
    cases this
  · intro free c hc
    by_contra stuck
    obtain ⟨ups, length, ordered, declared⟩ :=
      walk_of_not_climbs resolves (Bool.eq_false_iff.mpr stuck)
    have inside : ∀ u ∈ c.name :: ups, u ∈ decls.map (·.name) := by
      intro u hu
      rcases List.mem_cons.mp hu with rfl | hu
      · exact List.mem_map_of_mem hc
      · exact declared u hu
    have distinct : (c.name :: ups).Nodup := by
      refine ordered.imp_of_mem fun {u v} hu _ up same => ?_
      obtain ⟨d, hd, rfl⟩ := List.mem_map.mp (inside u hu)
      exact free d hd (same ▸ up)
    have fits := (List.subperm_of_subset distinct inside).length_le
    rw [List.length_cons, length, List.length_map] at fits
    omega

end Cycles

section Descent

theorem below_refl (c : ClassDecl) : Below decls 0 c c := rfl

theorem below_parent {n : Nat} {c e : ClassDecl} (h : Below decls (n + 1) c e) :
    ∃ d, Below decls n c d ∧ e ∈ childrenOf decls d.name := by
  induction n generalizing c with
  | zero =>
    obtain ⟨d, hd, rfl⟩ := h
    exact ⟨c, rfl, hd⟩
  | succ n ih =>
    obtain ⟨a, ha, he⟩ := h
    obtain ⟨d, hd, he⟩ := ih he
    exact ⟨d, ⟨a, ha, hd⟩, he⟩

theorem below_trans {m n : Nat} {c d e : ClassDecl} (h : Below decls m c d)
    (h' : Below decls n d e) : Below decls (m + n) c e := by
  induction n generalizing e with
  | zero => exact h' ▸ h
  | succ n ih =>
    obtain ⟨a, ha, he⟩ := below_parent h'
    exact below_child (ih ha) he

theorem below_declared {n : Nat} {c d : ClassDecl} (hc : c ∈ decls) (h : Below decls n c d) :
    d ∈ decls := by
  cases n with
  | zero => exact h ▸ hc
  | succ n =>
    obtain ⟨_, _, hd⟩ := below_parent h
    exact (mem_childrenOf.mp hd).1

theorem below_of_mem {m : Nat} {c d : ClassDecl} (h : d ∈ (descend decls m c).preorder) :
    ∃ n, Below decls n c d := by
  induction m generalizing c with
  | zero =>
    rcases List.mem_cons.mp h with rfl | h
    · exact ⟨0, rfl⟩
    · cases h
  | succ m ih =>
    rcases List.mem_cons.mp h with rfl | h
    · exact ⟨0, rfl⟩
    · obtain ⟨t, ht, hd⟩ := (Tree.mem_preorders _ _).mp h
      obtain ⟨e, he, rfl⟩ := List.mem_map.mp ht
      obtain ⟨n, below⟩ := ih hd
      exact ⟨n + 1, e, he, below⟩

theorem Accepted.climbs_iff (h : Accepted decls root) {n : Nat} {c : ClassDecl}
    (below : Below decls n root c) (k : Nat) : climbs decls k c.name = true ↔ n < k := by
  induction n generalizing c k with
  | zero =>
    cases below
    cases k with
    | zero => simp [climbs]
    | succ k => simp [climbs, parentOf_name h.names h.root_mem.1, h.root_mem.2]
  | succ n ih =>
    obtain ⟨d, hd, hc⟩ := below_parent below
    obtain ⟨declared, parent⟩ := mem_childrenOf.mp hc
    cases k with
    | zero => simp [climbs]
    | succ k =>
      simp only [climbs, parentOf_name h.names declared, parent, ih hd]
      omega

theorem Accepted.depth_unique (h : Accepted decls root) {m n : Nat} {c : ClassDecl}
    (hm : Below decls m root c) (hn : Below decls n root c) : m = n := by
  have up : m < n + 1 := (h.climbs_iff hm _).mp ((h.climbs_iff hn _).mpr n.lt_succ_self)
  have down : n < m + 1 := (h.climbs_iff hn _).mp ((h.climbs_iff hm _).mpr m.lt_succ_self)
  omega

theorem Accepted.depth_lt (h : Accepted decls root) {n : Nat} {c : ClassDecl}
    (below : Below decls n root c) : n < decls.length :=
  (h.climbs_iff below _).mp (h.climb c (below_declared h.root_mem.1 below))

theorem ancestor_unique (names : (decls.map (·.name)).Nodup) {n : Nat} {c d e : ClassDecl}
    (hc : c ∈ decls) (hd : d ∈ decls) (h : Below decls n c e) (h' : Below decls n d e) : c = d := by
  induction n generalizing e with
  | zero => exact h.symm.trans h'
  | succ n ih =>
    obtain ⟨a, ha, up⟩ := below_parent h
    obtain ⟨b, hb, up'⟩ := below_parent h'
    have same : some a.name = some b.name :=
      (mem_childrenOf.mp up).2.symm.trans (mem_childrenOf.mp up').2
    cases eq_of_name names (below_declared hc ha) (below_declared hd hb) (Option.some.inj same)
    exact ih ha hb

theorem Accepted.nodup_descend (h : Accepted decls root) (m : Nat) {n : Nat} {c : ClassDecl}
    (below : Below decls n root c) : (descend decls m c).preorder.Nodup := by
  induction m generalizing n c with
  | zero => exact List.nodup_singleton c
  | succ m ih =>
    have deeper {e d : ClassDecl} (he : e ∈ childrenOf decls c.name)
        (hd : d ∈ (descend decls m e).preorder) :
        ∃ j, Below decls j e d ∧ Below decls (n + 1 + j) root d := by
      obtain ⟨j, hj⟩ := below_of_mem hd
      exact ⟨j, hj, below_trans (below_child below he) hj⟩
    simp only [descend, Tree.preorder, Tree.preorders_eq_flatMap, List.flatMap_map]
    refine List.nodup_cons.mpr ⟨fun again => ?_, List.nodup_flatMap.mpr ⟨fun e he => ?_, ?_⟩⟩
    · obtain ⟨e, he, inside⟩ := List.mem_flatMap.mp again
      obtain ⟨j, -, lower⟩ := deeper he inside
      have := h.depth_unique below lower
      omega
    · exact ih (below_child below he)
    · have distinct : (childrenOf decls c.name).Nodup := (List.Nodup.of_map _ h.names).filter _
      refine distinct.imp_of_mem fun {e f} he hf apart => ?_
      intro d hd hd'
      obtain ⟨j, hj, deep⟩ := deeper he hd
      obtain ⟨k, hk, deep'⟩ := deeper hf hd'
      have level : j = k := by
        have := h.depth_unique deep deep'
        omega
      subst level
      exact apart (ancestor_unique h.names (mem_childrenOf.mp he).1 (mem_childrenOf.mp hf).1 hj hk)

theorem Accepted.descend_perm (h : Accepted decls root) :
    (descend decls decls.length root).preorder.Perm decls := by
  refine (List.perm_ext_iff_of_nodup (h.nodup_descend _ (below_refl root))
    (List.Nodup.of_map _ h.names)).mpr ?_
  exact fun c => ⟨fun hc => descend_subset h.root_mem.1 hc, h.mem_tree⟩

/-- The generations run out before the limit does. -/
theorem Accepted.visits (h : Accepted decls root) {m n : Nat} {c : ClassDecl}
    (below : Below decls n root c) (enough : n + m = decls.length) :
    Visits decls c (descend decls m c) := by
  induction m generalizing n c with
  | zero =>
    have := h.depth_lt below
    omega
  | succ m ih =>
    refine .visit (List.forall₂_map_right_iff.mpr (List.forall₂_same.mpr fun e he => ?_))
    exact ih (below_child below he) (by omega)

end Descent

section Checks

theorem roots_length : (roots decls).length = decls.countP (·.parent.isNone) :=
  List.countP_eq_length_filter.symm

theorem Valid.accepted (h : Valid decls) : ∃ root, Accepted decls root := by
  have climb := (acyclic_iff h.distinct h.resolves).mpr h.cycleFree
  obtain ⟨root, only⟩ := List.length_eq_one_iff.mp (roots_length.trans h.oneRoot)
  exact ⟨root, h.distinct, h.resolves, List.all_eq_true.mp climb, only⟩

theorem Accepted.valid (h : Accepted decls root) : Valid decls where
  distinct := h.names
  resolves := h.declared
  cycleFree := (acyclic_iff h.names h.declared).mp (List.all_eq_true.mpr h.climb)
  oneRoot := by rw [← roots_length, h.root, List.length_singleton]

/-- The four checks, each made when those before it have passed. -/
theorem tree_error_iff {f : Fault} : tree decls = .error f ↔ Defect decls f := by
  constructor
  · intro h
    unfold tree at h
    split at h
    · rename_i c repeated
      cases h
      obtain ⟨before, after, split, distinct, again⟩ := firstRepeated_iff.mp repeated
      exact .repeated split distinct again
    · rename_i unique
      have distinct := (firstRepeated_none unique).1
      split at h
      · rename_i p c orphan
        cases h
        obtain ⟨before, d, after, split, rfl, parent, absent, earlier⟩ := firstOrphan_iff.mp orphan
        exact .orphan distinct split parent absent earlier
      · rename_i parents
        have resolves : Resolves decls := firstOrphan_none parents
        split at h
        · rename_i climb
          split at h
          · cases h
          · rename_i several
            cases h
            refine .roots distinct resolves ((acyclic_iff distinct resolves).mp climb) ?_
            rw [← roots_length]
            intro one
            obtain ⟨root, only⟩ := List.length_eq_one_iff.mp one
            exact several root only
        · rename_i stuck
          cases h
          have cyclic := mt (acyclic_iff distinct resolves).mpr stuck
          simp only [CycleFree, not_forall, not_not] at cyclic
          obtain ⟨c, hc, cycle⟩ := cyclic
          exact .cycle distinct resolves hc cycle
  · intro h
    have unique (distinct : (decls.map (·.name)).Nodup) :
        firstRepeated [] (decls.map (·.name)) = none :=
      firstRepeated_of_nodup distinct fun _ _ => List.not_mem_nil
    cases h with
    | repeated split distinct again =>
      have found := firstRepeated_iff.mpr ⟨_, _, split, distinct, again⟩
      simp only [tree, found]
    | orphan distinct split parent absent earlier =>
      have found := firstOrphan_iff.mpr ⟨_, _, _, split, rfl, parent, absent, earlier⟩
      simp only [tree, unique distinct, found]
    | cycle distinct resolves declared cycle =>
      have stuck : ¬ acyclic decls = true := fun climb =>
        (acyclic_iff distinct resolves).mp climb _ declared cycle
      simp only [tree, unique distinct, firstOrphan_of_declared resolves, stuck,
        Bool.false_eq_true, if_false]
    | roots distinct resolves free several =>
      have climb := (acyclic_iff distinct resolves).mpr free
      simp only [tree, unique distinct, firstOrphan_of_declared resolves, climb, if_true]
      split
      · rename_i root only
        exact absurd (by rw [← roots_length, only, List.length_singleton]) several
      · rfl

end Checks

end Hierarchy

namespace ClassTable

open Hierarchy

variable {p : Program}

theorem build_of_tree {root : ClassDecl} (h : Accepted p.classes root) :
    build p =
      .ok { tree := Layout.tree [] [] 0 (descend p.classes p.classes.length root) } := by
  have size : (descend p.classes p.classes.length root).size = p.classes.length := by
    rw [← Tree.length_preorder, h.descend_perm.length_eq]
  simp only [build, tree_of_accepted h, size, if_true]

theorem build_error_iff {f : Fault} : build p = .error f ↔ Defect p.classes f := by
  rw [← tree_error_iff]
  cases made : Hierarchy.tree p.classes with
  | error g => simp only [build, made, Except.error.injEq]
  | ok t =>
    obtain ⟨root, ok, -⟩ := accepted_of_tree made
    simp only [build_of_tree ok, reduceCtorEq]

/-- What is decided about a list of declarations, and how it is laid out. -/
structure Judges (p : Program) : Prop where
  accepts : (∃ t, build p = .ok t) ↔ Valid p.classes
  refuses : ∀ f, build p = .error f ↔ Defect p.classes f
  reachable : build p ≠ .error .unreachableClass
  /-- The layout is that of the whole visit, which begins at the class without a parent and comes to
  each class once. -/
  visits : ∀ t, build p = .ok t → ∃ root ∈ p.classes, root.parent = none ∧ ∃ visit,
    Visits p.classes root visit ∧ visit.preorder.Perm p.classes ∧
      t.tree = Layout.tree [] [] 0 visit ∧ t.classes.map (·.decl) = visit.preorder

/-- A table is built for the valid hierarchies and for no others, and each other one is refused for
its first defect. -/
theorem build_judges (p : Program) : Judges p where
  accepts := by
    constructor
    · rintro ⟨t, built⟩
      obtain ⟨root, ok, -, -⟩ := build_ok built
      exact ok.valid
    · intro valid
      obtain ⟨root, ok⟩ := valid.accepted
      exact ⟨_, build_of_tree ok⟩
  refuses f := build_error_iff
  reachable h := by cases build_error_iff.mp h
  visits t built := by
    obtain ⟨root, ok, same, -⟩ := build_ok built
    refine ⟨root, ok.root_mem.1, ok.root_mem.2, _, ok.visits (below_refl root) (Nat.zero_add _),
      ok.descend_perm, same, ?_⟩
    rw [t.classes_eq, same, Layout.preorder_decl]

section Refused

def bare (name : String) (parent : Option String) : ClassDecl := ⟨name, parent, [], ""⟩

/-- A name declared twice is reported before an undeclared parent, a cycle and a second root. -/
example : build ⟨[bare "A" (some "Z"), bare "B" (some "B"), bare "R" none, bare "S" none,
    bare "B" none]⟩ = .error (.declaredTwice "B") := rfl

/-- A cycle is reported before the number of roots, also where there is none. -/
example : build ⟨[bare "A" (some "B"), bare "B" (some "A")]⟩ = .error .inheritanceCycle := rfl

end Refused

end ClassTable

end ClassBackend
