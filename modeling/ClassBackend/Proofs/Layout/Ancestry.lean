import ClassBackend.Layout.Hierarchy
import Mathlib.Data.List.Basic
import Mathlib.Data.List.Nodup
import Mathlib.Data.List.Perm.Subperm
import Mathlib.Logic.Relation

/-! Subtrees of a rose tree. A value stands in a tree exactly when it is at the root of one of the
subtrees, so facts about the nodes of a hierarchy are stated of its subtrees. -/
namespace ClassBackend.Tree

variable {α : Type}

/-- What holds of a node whenever it holds of its children holds of every tree. -/
@[elab_as_elim, induction_eliminator]
theorem induct {P : Tree α → Prop}
    (node : ∀ value children, (∀ t ∈ children, P t) → P (.node value children)) : ∀ t, P t
  | .node a ts => node a ts fun t _ => induct node t

/-- The first tree is the second one or lies below its root. -/
inductive Sub : Tree α → Tree α → Prop where
  | refl (t : Tree α) : Sub t t
  | child {s c : Tree α} {a : α} {ts : List (Tree α)} : c ∈ ts → Sub s c → Sub s (.node a ts)

theorem Sub.trans {r s t : Tree α} (h : Sub r s) (h' : Sub s t) : Sub r t := by
  induction h' with
  | refl => exact h
  | child hc _ ih => exact .child hc ih

theorem Sub.eq_or_child {s t : Tree α} (h : Sub s t) :
    s = t ∨ ∃ a ts, Sub (.node a ts) t ∧ s ∈ ts := by
  induction h with
  | refl => exact .inl rfl
  | child hc _ ih =>
    rcases ih with rfl | ⟨a, ts, hs, inside⟩
    · exact .inr ⟨_, _, .refl _, hc⟩
    · exact .inr ⟨a, ts, .child hc hs, inside⟩

theorem mem_preorders (ts : List (Tree α)) (a : α) :
    a ∈ preorders ts ↔ ∃ t ∈ ts, a ∈ preorder t := by
  induction ts with
  | nil => simp [preorders]
  | cons t ts ih => simp [preorders, ih]

theorem length_preorders {ts : List (Tree α)} (h : ∀ t ∈ ts, (preorder t).length = size t) :
    (preorders ts).length = sizes ts := by
  induction ts with
  | nil => rfl
  | cons t ts ih =>
    simp only [preorders, sizes, List.length_append, h t List.mem_cons_self,
      ih fun s hs => h s (List.mem_cons_of_mem t hs)]

theorem length_preorder (t : Tree α) : (preorder t).length = size t := by
  induction t with
  | node a ts ih => simp only [preorder, size, List.length_cons, length_preorders ih]

theorem value_mem_preorder (t : Tree α) : t.value ∈ preorder t := by
  cases t with
  | node a ts => exact List.mem_cons_self

theorem Sub.preorder_subset {s t : Tree α} (h : Sub s t) : preorder s ⊆ preorder t := by
  induction h with
  | refl => exact fun _ ha => ha
  | child hc _ ih =>
    intro a ha
    exact List.mem_cons_of_mem _ ((mem_preorders _ a).mpr ⟨_, hc, ih ha⟩)

theorem mem_preorder_iff (t : Tree α) (a : α) :
    a ∈ preorder t ↔ ∃ s, Sub s t ∧ s.value = a := by
  constructor
  · induction t with
    | node b ts ih =>
      intro h
      rcases List.mem_cons.mp h with rfl | h
      · exact ⟨.node a ts, .refl _, rfl⟩
      · obtain ⟨c, hc, ha⟩ := (mem_preorders ts a).mp h
        obtain ⟨s, hs, hv⟩ := ih c hc ha
        exact ⟨s, .child hc hs, hv⟩
  · rintro ⟨s, hs, rfl⟩
    exact hs.preorder_subset (value_mem_preorder s)

theorem size_pos (t : Tree α) : 0 < size t := by
  cases t with
  | node a ts => exact Nat.succ_pos _

end ClassBackend.Tree

/-! Parent links and the tree that the hierarchy builds from them. An accepted list of declarations
is laid out without loss: the tree holds every class, and below a class stand exactly those that
reach it over parent links. -/
namespace ClassBackend.Hierarchy

variable {decls : List ClassDecl} {root : ClassDecl}

def Extends (decls : List ClassDecl) (cls parent : String) : Prop :=
  ∃ c ∈ decls, c.name = cls ∧ c.parent = some parent

/-- The second class is the first or is reached from it by following parent links. -/
def Descends (decls : List ClassDecl) : String → String → Prop :=
  Relation.ReflTransGen (Extends decls)

structure Accepted (decls : List ClassDecl) (root : ClassDecl) : Prop where
  names : (decls.map (·.name)).Nodup
  declared : ∀ c ∈ decls, ∀ p, c.parent = some p → ∃ d ∈ decls, d.name = p
  climb : ∀ c ∈ decls, climbs decls decls.length c.name = true
  root : roots decls = [root]

theorem firstRepeated_none {seen names : List String} (h : firstRepeated seen names = none) :
    names.Nodup ∧ ∀ c ∈ names, c ∉ seen := by
  induction names generalizing seen with
  | nil => simp
  | cons c cs ih =>
    simp only [firstRepeated] at h
    split at h
    · contradiction
    · rename_i fresh
      obtain ⟨distinct, apart⟩ := ih h
      refine ⟨List.nodup_cons.mpr ⟨fun hc => apart c hc List.mem_cons_self, distinct⟩, ?_⟩
      intro d hd
      rcases List.mem_cons.mp hd with rfl | hd
      · exact fresh
      · exact fun hs => apart d hd (List.mem_cons_of_mem c hs)

theorem firstOrphan_none (h : firstOrphan decls = none) (c : ClassDecl) (hc : c ∈ decls)
    (p : String) (hp : c.parent = some p) : ∃ d ∈ decls, d.name = p := by
  have step := List.findSome?_eq_none_iff.mp h c hc
  simp only [hp] at step
  split at step
  · rename_i found
    obtain ⟨d, hd, he⟩ := List.any_eq_true.mp found
    exact ⟨d, hd, eq_of_beq he⟩
  · contradiction

/-- A tree is built only for an accepted hierarchy, and it is the one below the root. -/
theorem accepted_of_tree {t : Tree ClassDecl} (h : tree decls = .ok t) :
    ∃ root, Accepted decls root ∧ t = descend decls decls.length root := by
  unfold tree at h
  split at h
  · contradiction
  · rename_i unique
    split at h
    · contradiction
    · rename_i parents
      split at h
      · rename_i noCycle
        split at h
        · rename_i root only
          refine ⟨root, ⟨(firstRepeated_none unique).1, firstOrphan_none parents, ?_, only⟩, ?_⟩
          · exact List.all_eq_true.mp noCycle
          · exact (Except.ok.inj h).symm
        · contradiction
      · contradiction

theorem firstRepeated_of_nodup {seen names : List String} (distinct : names.Nodup)
    (apart : ∀ c ∈ names, c ∉ seen) : firstRepeated seen names = none := by
  induction names generalizing seen with
  | nil => rfl
  | cons c cs ih =>
    obtain ⟨fresh, distinct⟩ := List.nodup_cons.mp distinct
    rw [firstRepeated, if_neg (apart c List.mem_cons_self)]
    refine ih distinct fun d hd mem => ?_
    rcases List.mem_cons.mp mem with rfl | old
    · exact fresh hd
    · exact apart d (List.mem_cons_of_mem _ hd) old

theorem firstOrphan_of_declared
    (declared : ∀ c ∈ decls, ∀ p, c.parent = some p → ∃ d ∈ decls, d.name = p) :
    firstOrphan decls = none := by
  rw [firstOrphan, List.findSome?_eq_none_iff]
  intro c hc
  cases parent : c.parent with
  | none => rfl
  | some p =>
    obtain ⟨d, hd, named⟩ := declared c hc p parent
    have found : decls.any (·.name == p) = true :=
      List.any_eq_true.mpr ⟨d, hd, beq_iff_eq.mpr named⟩
    simp only [found, if_true]

theorem tree_of_accepted (ok : Accepted decls root) :
    tree decls = .ok (descend decls decls.length root) := by
  have unique : firstRepeated [] (decls.map (·.name)) = none :=
    firstRepeated_of_nodup ok.names fun _ _ => List.not_mem_nil
  have climb : acyclic decls = true := List.all_eq_true.mpr ok.climb
  simp only [tree, unique, firstOrphan_of_declared ok.declared, climb, ok.root, if_true]

theorem eq_of_name (names : (decls.map (·.name)).Nodup) {c d : ClassDecl} (hc : c ∈ decls)
    (hd : d ∈ decls) (h : c.name = d.name) : c = d :=
  List.inj_on_of_nodup_map names hc hd h

theorem parentOf_name (names : (decls.map (·.name)).Nodup) {c : ClassDecl} (hc : c ∈ decls) :
    parentOf decls c.name = c.parent := by
  unfold parentOf
  cases found : decls.find? fun d => d.name == c.name with
  | none => exact absurd (List.find?_eq_none.mp found c hc) (by simp)
  | some d =>
    have same : d = c := eq_of_name names (List.mem_of_find?_eq_some found) hc
      (eq_of_beq (List.find?_some found :))
    simp [same]

theorem mem_childrenOf {name : String} {c : ClassDecl} :
    c ∈ childrenOf decls name ↔ c ∈ decls ∧ c.parent = some name := by
  simp [childrenOf]

theorem Accepted.root_mem (h : Accepted decls root) : root ∈ decls ∧ root.parent = none := by
  have : root ∈ roots decls := by simp [h.root]
  simpa [roots] using this

theorem Accepted.eq_root (h : Accepted decls root) {c : ClassDecl} (hc : c ∈ decls)
    (top : c.parent = none) : c = root := by
  have : c ∈ roots decls := by simp [roots, hc, top]
  simpa [h.root] using this

/-- The second class is found that many generations below the first. -/
def Below (decls : List ClassDecl) : Nat → ClassDecl → ClassDecl → Prop
  | 0, c, d => d = c
  | n + 1, c, d => ∃ e ∈ childrenOf decls c.name, Below decls n e d

theorem below_child {n : Nat} {c d e : ClassDecl} (h : Below decls n c d)
    (he : e ∈ childrenOf decls d.name) : Below decls (n + 1) c e := by
  induction n generalizing c with
  | zero =>
    cases h
    exact ⟨e, he, rfl⟩
  | succ n ih =>
    obtain ⟨a, ha, hd⟩ := h
    exact ⟨a, ha, ih hd⟩

theorem below_mem {n m : Nat} {c d : ClassDecl} (h : Below decls n c d) (enough : n ≤ m) :
    d ∈ (descend decls m c).preorder := by
  induction n generalizing m c with
  | zero =>
    cases h
    cases m <;> exact List.mem_cons_self
  | succ n ih =>
    obtain ⟨e, he, hd⟩ := h
    obtain ⟨m, rfl⟩ : ∃ k, m = k + 1 := ⟨m - 1, by omega⟩
    exact List.mem_cons_of_mem _ ((Tree.mem_preorders _ _).mpr
      ⟨_, List.mem_map_of_mem he, ih hd (by omega)⟩)

theorem Accepted.below_root (h : Accepted decls root) {k : Nat} {c : ClassDecl} (hc : c ∈ decls)
    (walk : climbs decls k c.name = true) : ∃ n < k, Below decls n root c := by
  induction k generalizing c with
  | zero => simp [climbs] at walk
  | succ k ih =>
    simp only [climbs, parentOf_name h.names hc] at walk
    cases hp : c.parent with
    | none => exact ⟨0, by omega, h.eq_root hc hp⟩
    | some p =>
      obtain ⟨d, hd, rfl⟩ := h.declared c hc p hp
      simp only [hp] at walk
      obtain ⟨n, hn, below⟩ := ih hd walk
      exact ⟨n + 1, by omega, below_child below (mem_childrenOf.mpr ⟨hc, hp⟩)⟩

theorem Accepted.mem_tree (h : Accepted decls root) {c : ClassDecl} (hc : c ∈ decls) :
    c ∈ (descend decls decls.length root).preorder := by
  obtain ⟨n, hn, below⟩ := h.below_root hc (h.climb c hc)
  exact below_mem below (Nat.le_of_lt hn)

theorem descend_subset {m : Nat} {c : ClassDecl} (hc : c ∈ decls) :
    (descend decls m c).preorder ⊆ decls := by
  induction m generalizing c with
  | zero => simpa [descend, Tree.preorder, Tree.preorders] using hc
  | succ m ih =>
    intro d hd
    rcases List.mem_cons.mp hd with rfl | hd
    · exact hc
    · obtain ⟨t, ht, hd⟩ := (Tree.mem_preorders _ _).mp hd
      obtain ⟨e, he, rfl⟩ := List.mem_map.mp ht
      exact ih (mem_childrenOf.mp he).1 hd

/-- A tree of the right size lists every declared class once. -/
theorem Accepted.preorder_perm (h : Accepted decls root)
    (size : (descend decls decls.length root).size = decls.length) :
    (descend decls decls.length root).preorder.Perm decls := by
  have sub : decls.Subperm (descend decls decls.length root).preorder :=
    List.subperm_of_subset (List.Nodup.of_map _ h.names) fun _ hc => h.mem_tree hc
  exact (sub.perm_of_length_le (Nat.le_of_eq (by rw [Tree.length_preorder, size]))).symm

theorem descend_value (m : Nat) (c : ClassDecl) : (descend decls m c).value = c := by
  cases m <;> rfl

theorem parent_of_sub {m : Nat} {r c : ClassDecl} {ts : List (Tree ClassDecl)}
    (h : Tree.Sub (.node c ts) (descend decls m r)) (t : Tree ClassDecl) (ht : t ∈ ts) :
    t.value.parent = some c.name := by
  induction m generalizing r with
  | zero =>
    cases h with
    | refl => cases ht
    | child hs _ => cases hs
  | succ m ih =>
    cases h with
    | refl =>
      obtain ⟨e, he, rfl⟩ := List.mem_map.mp ht
      rw [descend_value]
      exact (mem_childrenOf.mp he).2
    | child hs hsub =>
      obtain ⟨e, _, rfl⟩ := List.mem_map.mp hs
      exact ih hsub

theorem descends_of_mem {m : Nat} {r d : ClassDecl} (hr : r ∈ decls) {s : Tree ClassDecl}
    (h : Tree.Sub s (descend decls m r)) (hd : d ∈ s.preorder) :
    Descends decls d.name s.value.name := by
  induction s with
  | node c ts ih =>
    rcases List.mem_cons.mp hd with rfl | hd
    · exact .refl
    · obtain ⟨t, ht, hd⟩ := (Tree.mem_preorders _ _).mp hd
      have sub : Tree.Sub t (descend decls m r) := (Tree.Sub.child ht (.refl t)).trans h
      have declared := descend_subset hr (sub.preorder_subset (Tree.value_mem_preorder t))
      exact .tail (ih t ht sub hd) ⟨t.value, declared, rfl, parent_of_sub h t ht⟩

end ClassBackend.Hierarchy
