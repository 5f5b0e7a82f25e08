import ClassBackend.Layout.ClassTable
import ClassBackend.Proofs.Layout.Ancestry

/-! The numbering of a laid out hierarchy. A subtree that is numbered from a tag takes as many tags
as it has classes, in preorder and without a gap; every subtree of a numbered tree is such a
subtree again. -/
namespace ClassBackend.Layout

variable {fields : List Field} {methods : List Method} {tag : Nat}

theorem tree_value_tag (t : Tree ClassDecl) : (tree fields methods tag t).value.tag = tag := by
  cases t
  rfl

theorem tree_value_decl (t : Tree ClassDecl) :
    (tree fields methods tag t).value.decl = t.value := by
  cases t
  rfl

theorem tree_value_lastTag (t : Tree ClassDecl) :
    (tree fields methods tag t).value.lastTag + 1 = tag + t.size := by
  cases t
  simp only [tree, Tree.value, Tree.size]
  omega

/-- Each of a row of trees is numbered from behind the ones before it. -/
theorem mem_trees {ts : List (Tree ClassDecl)} {s : Tree ClassLayout}
    (h : s ∈ trees fields methods tag ts) : ∃ t ∈ ts, ∃ start,
      s = tree fields methods start t ∧ tag ≤ start ∧ start + t.size ≤ tag + Tree.sizes ts := by
  induction ts generalizing tag with
  | nil => cases h
  | cons t ts ih =>
    rcases List.mem_cons.mp h with rfl | h
    · exact ⟨t, List.mem_cons_self, tag, rfl, Nat.le_refl _, by simp only [Tree.sizes]; omega⟩
    · obtain ⟨u, hu, start, hs, low, high⟩ := ih h
      refine ⟨u, List.mem_cons_of_mem t hu, start, hs, by omega, ?_⟩
      simp only [Tree.sizes]
      omega

theorem preorder_decl (t : Tree ClassDecl) :
    (tree fields methods tag t).preorder.map (·.decl) = t.preorder := by
  induction t generalizing fields methods tag with
  | node c ts ih =>
    have rest : ∀ us, (∀ u ∈ us, u ∈ ts) → ∀ fields methods tag,
        (Tree.preorders (trees fields methods tag us)).map (·.decl) = Tree.preorders us := by
      intro us inside
      induction us with
      | nil => intros; rfl
      | cons u us ihu =>
        intro fields methods tag
        simp only [trees, Tree.preorders, List.map_append, ih u (inside u List.mem_cons_self),
          ihu fun v hv => inside v (List.mem_cons_of_mem u hv)]
    simp only [tree, Tree.preorder, List.map_cons, rest ts fun _ h => h]

theorem preorder_tags (t : Tree ClassDecl) :
    (tree fields methods tag t).preorder.map (·.tag) = List.range' tag t.size := by
  induction t generalizing fields methods tag with
  | node c ts ih =>
    have rest : ∀ us, (∀ u ∈ us, u ∈ ts) → ∀ fields methods tag,
        (Tree.preorders (trees fields methods tag us)).map (·.tag) =
          List.range' tag (Tree.sizes us) := by
      intro us inside
      induction us with
      | nil => intros; rfl
      | cons u us ihu =>
        intro fields methods tag
        simp only [trees, Tree.preorders, List.map_append, ih u (inside u List.mem_cons_self),
          ihu fun v hv => inside v (List.mem_cons_of_mem u hv), Tree.sizes]
        rw [List.range'_append_1]
    simp only [tree, Tree.preorder, List.map_cons, rest ts fun _ h => h, Tree.size,
      List.range'_succ]

/-- What a class takes over from the one at the tag of its parent. -/
def handed (rows : List ClassLayout) : Option Nat → Option (List Field × List Method)
  | none => some ([], [])
  | some tag => rows[tag]?.map fun k => (k.fields, k.methods)

/-- The row of a class whose descendants are not on the table yet. -/
def started (c : ClassDecl) (tag : Nat) (fields : List Field) (methods : List Method) :
    ClassLayout :=
  ⟨c, tag, tag, fields, ownFields c, extendMethods methods c⟩

mutual

/-- Numbers a class and its descendants on a table that grows: a class takes the next place, and its
range is closed when its descendants are on the table. -/
def walk (parent : Option Nat) (rows : List ClassLayout) :
    Tree ClassDecl → Option (List ClassLayout)
  | .node c ts => do
    let (fields, methods) ← handed rows parent
    let tag := rows.length
    let rows ← walks (some tag) (rows ++ [started c tag fields methods]) ts
    let k ← rows[tag]?
    return rows.set tag { k with lastTag := rows.length - 1 }

def walks (parent : Option Nat) (rows : List ClassLayout) :
    List (Tree ClassDecl) → Option (List ClassLayout)
  | [] => some rows
  | t :: ts => do walks parent (← walk parent rows t) ts

end

section Walk

variable {parent : Option Nat} {rows : List ClassLayout}

theorem preorder_length (t : Tree ClassDecl) :
    (tree fields methods tag t).preorder.length = t.size := by
  rw [← List.length_map (·.decl), preorder_decl, Tree.length_preorder]

theorem handed_append (h : handed rows parent = some (fields, methods)) (more : List ClassLayout) :
    handed (rows ++ more) parent = some (fields, methods) := by
  cases parent with
  | none => exact h
  | some tag =>
    obtain ⟨k, there, own⟩ := Option.map_eq_some_iff.mp h
    have inside : tag < rows.length := (List.getElem?_eq_some_iff.mp there).1
    rw [handed, List.getElem?_append_left inside, there, Option.map_some, own]

/-- A walk leaves the table with the rows of the subtree behind those before it. -/
theorem walk_eq (t : Tree ClassDecl) (h : handed rows parent = some (fields, methods)) :
    walk parent rows t = some (rows ++ (tree fields methods rows.length t).preorder) := by
  induction t generalizing parent rows fields methods with
  | node c ts ih =>
    have rest : ∀ us, (∀ u ∈ us, u ∈ ts) → ∀ {parent rows fields methods},
        handed rows parent = some (fields, methods) →
        walks parent rows us =
          some (rows ++ Tree.preorders (trees fields methods rows.length us)) := by
      intro us inside
      induction us with
      | nil =>
        intros
        simp [walks, trees, Tree.preorders]
      | cons u us ihu =>
        intro parent rows fields methods h
        have first := ih u (inside u (.head _)) h
        have length : (rows ++ (tree fields methods rows.length u).preorder).length =
            rows.length + u.size := by
          rw [List.length_append, preorder_length]
        rw [walks, first]
        show walks parent _ us = _
        rw [ihu (fun v hv => inside v (.tail _ hv)) (handed_append h _), length, trees,
          Tree.preorders, List.append_assoc]
    have handed : handed (rows ++ [started c rows.length fields methods]) (some rows.length) =
        some (fields ++ ownFields c, extendMethods methods c) := by
      simp [Layout.handed, started, ClassLayout.fields]
    have below := rest ts (fun _ hu => hu) handed
    rw [List.length_append, List.length_singleton] at below
    have count := @preorder_length fields methods rows.length (.node c ts)
    simp only [tree, Tree.preorder, Tree.size, List.length_cons] at count
    rw [walk, h]
    simp only [Option.bind_eq_bind, Option.bind_some, below, tree, Tree.preorder]
    simpa [started] using Nat.succ.inj count

end Walk

/-- A subtree of a laid out tree is the layout of a subtree, numbered inside the whole. -/
theorem sub_tree {t : Tree ClassDecl} {s : Tree ClassLayout}
    (h : Tree.Sub s (tree fields methods tag t)) :
    ∃ inherited table start u, Tree.Sub u t ∧ s = tree inherited table start u ∧
      tag ≤ start ∧ start + u.size ≤ tag + t.size := by
  induction t generalizing fields methods tag with
  | node c ts ih =>
    cases h with
    | refl => exact ⟨fields, methods, tag, .node c ts, .refl _, rfl, Nat.le_refl _, Nat.le_refl _⟩
    | child hc hs =>
      obtain ⟨u, hu, start, rfl, low, high⟩ := mem_trees hc
      obtain ⟨inherited, table, first, v, hv, rfl, low', high'⟩ := ih u hu hs
      refine ⟨inherited, table, first, v, .child hu hv, rfl, by omega, ?_⟩
      simp only [Tree.size]
      omega

/-- The root of a subtree covers the tag of a class in the numbered tree exactly when the class
stands in the subtree. -/
theorem covers_iff_mem {t : Tree ClassDecl} {s : Tree ClassLayout}
    (h : Tree.Sub s (tree fields methods tag t)) {d : ClassLayout}
    (hd : d ∈ (tree fields methods tag t).preorder) :
    s.value.covers d.tag = true ↔ d ∈ s.preorder := by
  have distinct : ((tree fields methods tag t).preorder.map (·.tag)).Nodup := by
    rw [preorder_tags]
    exact List.nodup_range'
  obtain ⟨inherited, table, start, u, _, rfl, _, _⟩ := sub_tree h
  have last := @tree_value_lastTag inherited table start u
  have range : (tree inherited table start u).value.covers d.tag = true ↔
      d.tag ∈ (tree inherited table start u).preorder.map (·.tag) := by
    rw [preorder_tags, List.mem_range'_1]
    simp only [ClassLayout.covers, tree_value_tag, Bool.and_eq_true, decide_eq_true_eq]
    omega
  rw [range]
  constructor
  · intro ht
    obtain ⟨e, he, same⟩ := List.mem_map.mp ht
    exact List.inj_on_of_nodup_map distinct (h.preorder_subset he) hd same ▸ he
  · exact fun hs => List.mem_map_of_mem hs

theorem child_range {t : Tree ClassDecl} {k : ClassLayout} {ss : List (Tree ClassLayout)}
    (h : Tree.Sub (.node k ss) (tree fields methods tag t)) {s : Tree ClassLayout} (hs : s ∈ ss) :
    k.tag < s.value.tag ∧ s.value.lastTag ≤ k.lastTag := by
  obtain ⟨inherited, table, start, u, _, hu, _, _⟩ := sub_tree h
  cases u with
  | node c us =>
    cases hu
    obtain ⟨v, _, first, rfl, low, high⟩ := mem_trees hs
    have last := @tree_value_lastTag (inherited ++ ownFields c) (extendMethods table c) first v
    have := Tree.size_pos v
    rw [tree_value_tag]
    constructor
    · exact low
    · show _ ≤ start + Tree.sizes us
      omega

end ClassBackend.Layout

/-! The subtype test of a built class table. Tags are the positions of the classes, and the range
of a class holds the tags of its descendants and no others, so that one class inherits from
another exactly when its tag passes two comparisons. -/
namespace ClassBackend.ClassTable

open Hierarchy

variable {p : Program} {t : ClassTable}

/-- What a class table that could be built was built from. -/
theorem build_ok (h : build p = .ok t) : ∃ root, Accepted p.classes root ∧
    t.tree = Layout.tree [] [] 0 (descend p.classes p.classes.length root) ∧
    (descend p.classes p.classes.length root).size = p.classes.length := by
  unfold build at h
  split at h
  · contradiction
  · rename_i tree ht
    obtain ⟨root, accepted, rfl⟩ := accepted_of_tree ht
    split at h
    · rename_i size
      cases h
      exact ⟨root, accepted, rfl, size⟩
    · contradiction

/-- The rows of a table are those that a walk from the root leaves on an empty one. -/
theorem build_walk (h : build p = .ok t) : ∃ root, Accepted p.classes root ∧
    Layout.walk none [] (descend p.classes p.classes.length root) = some t.classes := by
  obtain ⟨root, accepted, laid, _⟩ := build_ok h
  refine ⟨root, accepted, ?_⟩
  rw [Layout.walk_eq _ rfl, t.classes_eq, laid]
  rfl

theorem decl_perm (h : build p = .ok t) : (t.classes.map (·.decl)).Perm p.classes := by
  obtain ⟨root, accepted, ht, size⟩ := build_ok h
  rw [t.classes_eq, ht, Layout.preorder_decl]
  exact accepted.preorder_perm size

theorem tags_eq (h : build p = .ok t) : t.classes.map (·.tag) = List.range p.classes.length := by
  obtain ⟨root, _, ht, size⟩ := build_ok h
  rw [t.classes_eq, ht, Layout.preorder_tags, size, List.range_eq_range']

theorem names_nodup (h : build p = .ok t) : (t.classes.map (·.name)).Nodup := by
  obtain ⟨root, accepted, _, _⟩ := build_ok h
  have names : t.classes.map (·.name) = (t.classes.map (·.decl)).map (·.name) := by
    rw [List.map_map]
    rfl
  rw [names]
  exact ((decl_perm h).map _).nodup_iff.mpr accepted.names

theorem decl_mem (h : build p = .ok t) {k : ClassLayout} (hk : k ∈ t.classes) :
    k.decl ∈ p.classes :=
  (decl_perm h).subset (List.mem_map_of_mem hk)

theorem exists_decl (h : build p = .ok t) {c : ClassDecl} (hc : c ∈ p.classes) :
    ∃ k ∈ t.classes, k.decl = c :=
  List.mem_map.mp ((decl_perm h).symm.subset hc)

theorem eq_of_name (h : build p = .ok t) {c d : ClassLayout} (hc : c ∈ t.classes)
    (hd : d ∈ t.classes) (same : c.name = d.name) : c = d :=
  List.inj_on_of_nodup_map (names_nodup h) hc hd same

theorem find_name (h : build p = .ok t) {k : ClassLayout} (hk : k ∈ t.classes) :
    t.find k.name = .ok k := by
  unfold find
  cases found : t.classes.find? fun d => d.name == k.name with
  | none => exact absurd (List.find?_eq_none.mp found k hk) (by simp)
  | some d =>
    have same := eq_of_name h (List.mem_of_find?_eq_some found) hk
      (eq_of_beq (List.find?_some found :))
    rw [same]

theorem mem_of_find {name : String} {k : ClassLayout} (h : t.find name = .ok k) :
    k ∈ t.classes := by
  unfold ClassTable.find at h
  split at h
  · rename_i found
    cases h
    exact List.mem_of_find?_eq_some found
  · contradiction

theorem tag_of_getElem? (h : build p = .ok t) {n : Nat} {k : ClassLayout}
    (at_ : t.classes[n]? = some k) : k.tag = n := by
  obtain ⟨inside, rfl⟩ := List.getElem?_eq_some_iff.mp at_
  have short : n < p.classes.length := by
    rw [← (decl_perm h).length_eq, List.length_map]
    exact inside
  have := congrArg (fun l : List Nat => l[n]?) (tags_eq h)
  simpa [inside, short] using this

theorem getElem?_tag (h : build p = .ok t) {k : ClassLayout} (hk : k ∈ t.classes) :
    t.classes[k.tag]? = some k := by
  obtain ⟨i, at_⟩ := List.mem_iff_getElem?.mp hk
  rwa [tag_of_getElem? h at_]

theorem eq_of_tag (h : build p = .ok t) {c d : ClassLayout} (hc : c ∈ t.classes)
    (hd : d ∈ t.classes) (same : c.tag = d.tag) : c = d := by
  have := getElem?_tag h hc
  rw [same, getElem?_tag h hd] at this
  exact (Option.some.inj this).symm

theorem range_nonempty (h : build p = .ok t) {k : ClassLayout} (hk : k ∈ t.classes) :
    k.tag ≤ k.lastTag := by
  obtain ⟨root, _, ht, _⟩ := build_ok h
  rw [t.classes_eq, ht] at hk
  obtain ⟨s, hs, rfl⟩ := (Tree.mem_preorder_iff _ _).mp hk
  obtain ⟨inherited, table, start, u, _, rfl, _, _⟩ := Layout.sub_tree hs
  have last := @Layout.tree_value_lastTag inherited table start u
  have := Tree.size_pos u
  rw [Layout.tree_value_tag]
  omega

theorem last_mem (h : build p = .ok t) {k : ClassLayout} (hk : k ∈ t.classes) :
    ∃ d ∈ t.classes, d.tag = k.lastTag := by
  obtain ⟨root, _, ht, _⟩ := build_ok h
  rw [t.classes_eq, ht] at hk ⊢
  obtain ⟨s, hs, rfl⟩ := (Tree.mem_preorder_iff _ _).mp hk
  obtain ⟨inherited, table, start, u, _, rfl, _, _⟩ := Layout.sub_tree hs
  have last := @Layout.tree_value_lastTag inherited table start u
  have := Tree.size_pos u
  have inside : (Layout.tree inherited table start u).value.lastTag ∈
      (Layout.tree inherited table start u).preorder.map (·.tag) := by
    rw [Layout.preorder_tags, List.mem_range'_1]
    omega
  obtain ⟨d, hd, same⟩ := List.mem_map.mp inside
  exact ⟨d, hs.preorder_subset hd, same⟩

theorem child_parent (h : build p = .ok t) {k : ClassLayout} {ss : List (Tree ClassLayout)}
    (sub : Tree.Sub (.node k ss) t.tree) {s : Tree ClassLayout} (hs : s ∈ ss) :
    s.value.parent = some k.name := by
  obtain ⟨root, _, ht, _⟩ := build_ok h
  rw [ht] at sub
  obtain ⟨inherited, table, start, u, hu, same, _, _⟩ := Layout.sub_tree sub
  cases u with
  | node c us =>
    cases same
    obtain ⟨v, hv, first, rfl, _, _⟩ := Layout.mem_trees hs
    rw [ClassLayout.parent, Layout.tree_value_decl]
    exact parent_of_sub hu v hv

theorem parent_child (h : build p = .ok t) {k q : ClassLayout} (hk : k ∈ t.classes)
    (hq : q ∈ t.classes) (parent : k.parent = some q.name) :
    ∃ ss, Tree.Sub (.node q ss) t.tree ∧ ∃ s ∈ ss, s.value = k := by
  obtain ⟨root, accepted, ht, _⟩ := build_ok h
  rw [t.classes_eq, ht] at hk
  rw [ht]
  obtain ⟨s, hs, rfl⟩ := (Tree.mem_preorder_iff _ _).mp hk
  obtain ⟨inherited, table, start, u, hu, rfl, _, _⟩ := Layout.sub_tree hs
  rcases hs.eq_or_child with whole | ⟨c, ss, hc, inside⟩
  · have top := congrArg (fun s => s.value.decl.parent) whole
    simp only [Layout.tree_value_decl, descend_value, accepted.root_mem.2] at top
    simp only [ClassLayout.parent, Layout.tree_value_decl, top] at parent
    contradiction
  · have hcm : c ∈ t.classes := by
      rw [t.classes_eq, ht]
      exact (Tree.mem_preorder_iff _ _).mpr ⟨_, hc, rfl⟩
    have named : (Layout.tree inherited table start u).value.parent = some c.name :=
      child_parent h (ht ▸ hc) inside
    have same : c = q := eq_of_name h hcm hq (Option.some.inj (named.symm.trans parent))
    subst same
    exact ⟨ss, hc, _, inside, rfl⟩

theorem parent_range (h : build p = .ok t) {k q : ClassLayout} (hk : k ∈ t.classes)
    (hq : q ∈ t.classes) (parent : k.parent = some q.name) :
    q.tag < k.tag ∧ k.lastTag ≤ q.lastTag := by
  obtain ⟨root, _, ht, _⟩ := build_ok h
  obtain ⟨ss, below, s, inside, rfl⟩ := parent_child h hk hq parent
  rw [ht] at below
  exact Layout.child_range below inside

theorem heir_range (h : build p = .ok t) {c d : ClassLayout} (hc : c ∈ t.classes)
    (hd : d ∈ t.classes) (up : Descends p.classes d.name c.name) :
    c.tag ≤ d.tag ∧ d.lastTag ≤ c.lastTag := by
  obtain ⟨root, accepted, _, _⟩ := build_ok h
  have walk : ∀ e, Descends p.classes e c.name → ∀ k ∈ t.classes, k.name = e →
      c.tag ≤ k.tag ∧ k.lastTag ≤ c.lastTag := by
    intro e he
    induction he using Relation.ReflTransGen.head_induction_on with
    | refl =>
      intro k hk same
      cases eq_of_name h hk hc same
      exact ⟨Nat.le_refl _, Nat.le_refl _⟩
    | head step _ ih =>
      rintro k hk rfl
      obtain ⟨e, he, same, parent⟩ := step
      obtain ⟨a, ha, hp⟩ := accepted.declared e he _ parent
      obtain ⟨q, hq, rfl⟩ := exists_decl h ha
      have own : k.parent = some q.name := by
        have : e = k.decl := Hierarchy.eq_of_name accepted.names he (decl_mem h hk) same
        rw [ClassLayout.parent, ← this, parent, ← hp]
        rfl
      have range := parent_range h hk hq own
      have above := ih q hq hp
      omega
  exact walk d.name up d hd rfl

/-- One class covers the tag of another exactly when the other inherits from it. -/
theorem covers_iff (h : build p = .ok t) {c d : ClassLayout} (hc : c ∈ t.classes)
    (hd : d ∈ t.classes) : c.covers d.tag = true ↔ Descends p.classes d.name c.name := by
  constructor
  · intro covered
    obtain ⟨root, accepted, ht, _⟩ := build_ok h
    rw [t.classes_eq, ht] at hc hd
    obtain ⟨s, hs, rfl⟩ := (Tree.mem_preorder_iff _ _).mp hc
    have inside := (Layout.covers_iff_mem hs hd).mp covered
    obtain ⟨inherited, table, start, u, hu, rfl, _, _⟩ := Layout.sub_tree hs
    have declared : d.decl ∈ u.preorder := by
      rw [← @Layout.preorder_decl inherited table start u]
      exact List.mem_map_of_mem inside
    have := descends_of_mem accepted.root_mem.1 hu declared
    simpa only [ClassLayout.name, Layout.tree_value_decl] using this
  · intro up
    have inside := heir_range h hc hd up
    have last := range_nonempty h hd
    simp only [ClassLayout.covers, Bool.and_eq_true, decide_eq_true_eq]
    omega

theorem nested_or_disjoint (h : build p = .ok t) {c d : ClassLayout} (hc : c ∈ t.classes)
    (hd : d ∈ t.classes) : (c.tag ≤ d.tag ∧ d.lastTag ≤ c.lastTag) ∨
      (d.tag ≤ c.tag ∧ c.lastTag ≤ d.lastTag) ∨ c.lastTag < d.tag ∨ d.lastTag < c.tag := by
  by_cases down : c.covers d.tag = true
  · exact .inl (heir_range h hc hd ((covers_iff h hc hd).mp down))
  · by_cases up : d.covers c.tag = true
    · exact .inr (.inl (heir_range h hd hc ((covers_iff h hd hc).mp up)))
    · simp only [ClassLayout.covers, Bool.and_eq_true, decide_eq_true_eq] at down up
      omega

theorem sibling_not_covered (h : build p = .ok t) {c d : ClassLayout} (hc : c ∈ t.classes)
    (hd : d ∈ t.classes) (apart : c.name ≠ d.name) {q : String} (parentC : c.parent = some q)
    (parentD : d.parent = some q) : c.covers d.tag ≠ true := by
  obtain ⟨root, accepted, _, _⟩ := build_ok h
  intro covered
  rcases ((covers_iff h hc hd).mp covered).cases_head with same | ⟨e, ⟨a, ha, named, parent⟩, up⟩
  · exact apart same.symm
  · have own : a = d.decl := Hierarchy.eq_of_name accepted.names ha (decl_mem h hd) named
    have shared : e = q := by
      rw [own] at parent
      exact Option.some.inj (parent.symm.trans parentD)
    obtain ⟨b, hb, hq⟩ := accepted.declared c.decl (decl_mem h hc) q parentC
    obtain ⟨k, hk, rfl⟩ := exists_decl h hb
    have below : k.tag < c.tag := (parent_range h hc hk (parentC.trans (by rw [← hq]; rfl))).1
    have above : c.tag ≤ k.tag := (heir_range h hc hk (by rw [shared, ← hq] at up; exact up)).1
    omega

theorem siblings_disjoint (h : build p = .ok t) {c d : ClassLayout} (hc : c ∈ t.classes)
    (hd : d ∈ t.classes) (apart : c.name ≠ d.name) {q : String} (parentC : c.parent = some q)
    (parentD : d.parent = some q) : c.lastTag < d.tag ∨ d.lastTag < c.tag := by
  have down := sibling_not_covered h hc hd apart parentC parentD
  have up := sibling_not_covered h hd hc apart.symm parentD parentC
  simp only [ClassLayout.covers, ne_eq, Bool.and_eq_true, decide_eq_true_eq] at down up
  omega

/-- Tags number the classes, and the range of a class holds the tags of its heirs. -/
structure Numbered (p : Program) (t : ClassTable) : Prop where
  tags : t.classes.map (·.tag) = List.range p.classes.length
  /-- Each declared class is found by its name, and found again at its tag. -/
  found : ∀ c ∈ p.classes, ∃ k, t.find c.name = .ok k ∧ k.decl = c ∧ t.atTag k.tag = .ok k
  parent_lt : ∀ k ∈ t.classes, ∀ q ∈ t.classes, k.parent = some q.name → q.tag < k.tag
  covers : ∀ c ∈ t.classes, ∀ d ∈ t.classes,
    c.covers d.tag = true ↔ Descends p.classes d.name c.name
  nested : ∀ c ∈ t.classes, ∀ d ∈ t.classes, (c.tag ≤ d.tag ∧ d.lastTag ≤ c.lastTag) ∨
    (d.tag ≤ c.tag ∧ c.lastTag ≤ d.lastTag) ∨ c.lastTag < d.tag ∨ d.lastTag < c.tag
  siblings : ∀ c ∈ t.classes, ∀ d ∈ t.classes, c.name ≠ d.name → ∀ q,
    c.parent = some q → d.parent = some q → c.lastTag < d.tag ∨ d.lastTag < c.tag

theorem build_numbered (p : Program) (t : ClassTable) (h : build p = .ok t) : Numbered p t where
  tags := tags_eq h
  found := by
    intro c hc
    obtain ⟨k, hk, rfl⟩ := exists_decl h hc
    refine ⟨k, find_name h hk, rfl, ?_⟩
    simp only [atTag, getElem?_tag h hk]
  parent_lt _ hk _ hq parent := (parent_range h hk hq parent).1
  covers _ hc _ hd := covers_iff h hc hd
  nested _ hc _ hd := nested_or_disjoint h hc hd
  siblings _ hc _ hd apart _ parentC parentD := siblings_disjoint h hc hd apart parentC parentD

/-- Two chains below one class, each class declared before the one it inherits from. -/
def forked : Program := ⟨[
  ⟨"Leaf", some "Left", [], "forked.cl"⟩,
  ⟨"Left", some "Top", [], "forked.cl"⟩,
  ⟨"Right", some "Top", [], "forked.cl"⟩,
  ⟨"Top", none, [], "forked.cl"⟩]⟩

theorem forked_numbered : ∃ t, build forked = .ok t ∧
    t.classes.map (fun k => (k.name, k.tag, k.lastTag)) =
      [("Top", 0, 3), ("Left", 1, 2), ("Leaf", 2, 2), ("Right", 3, 3)] ∧ Numbered forked t :=
  ⟨_, by rfl, by rfl, build_numbered forked _ (by rfl)⟩

end ClassBackend.ClassTable
