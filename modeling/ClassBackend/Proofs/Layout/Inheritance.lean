import ClassBackend.Proofs.Layout.SubtypeTest

/-! What an heir takes over. The fields of a class are those of its parent and then its own, and
its method table begins with the names of its parent's table, so that a slot found in a class is
the slot of that method in all its heirs. -/
namespace ClassBackend

namespace Layout

theorem placeMethod_names (m : Method) (ms : List Method) :
    ms.map (·.name) <+: (placeMethod m ms).map (·.name) := by
  induction ms with
  | nil => exact List.nil_prefix
  | cons n ns ih =>
    unfold placeMethod
    by_cases same : n.name = m.name
    · simp [same]
    · simpa [same] using ih

theorem extendMethods_names (ms : List Method) (c : ClassDecl) :
    ms.map (·.name) <+: (extendMethods ms c).map (·.name) := by
  unfold extendMethods
  induction ownMethods c generalizing ms with
  | nil => exact List.prefix_refl _
  | cons m own ih => exact (placeMethod_names m ms).trans (ih _)

theorem child_inherits {fields : List Field} {methods : List Method} {tag : Nat}
    {t : Tree ClassDecl} {k : ClassLayout} {ss : List (Tree ClassLayout)}
    (h : Tree.Sub (.node k ss) (tree fields methods tag t)) {s : Tree ClassLayout} (hs : s ∈ ss) :
    s.value.inherited = k.fields ∧ s.value.methods = extendMethods k.methods s.value.decl := by
  obtain ⟨inherited, table, start, u, _, hu, _, _⟩ := sub_tree h
  cases u with
  | node c us =>
    cases hu
    obtain ⟨v, _, first, rfl, _, _⟩ := mem_trees hs
    cases v
    exact ⟨rfl, rfl⟩

end Layout

namespace ClassTable

open Hierarchy

variable {p : Program} {t : ClassTable}

theorem parent_inherits (h : build p = .ok t) {k q : ClassLayout} (hk : k ∈ t.classes)
    (hq : q ∈ t.classes) (parent : k.parent = some q.name) :
    k.inherited = q.fields ∧ k.methods = Layout.extendMethods q.methods k.decl := by
  obtain ⟨root, _, ht, _⟩ := build_ok h
  obtain ⟨ss, below, s, inside, rfl⟩ := parent_child h hk hq parent
  rw [ht] at below
  exact Layout.child_inherits below inside

theorem exists_parent (h : build p = .ok t) {k : ClassLayout} (hk : k ∈ t.classes) {q : String}
    (parent : k.parent = some q) : ∃ a ∈ t.classes, a.name = q := by
  obtain ⟨root, accepted, _, _⟩ := build_ok h
  obtain ⟨a, ha, hp⟩ := accepted.declared k.decl (decl_mem h hk) q parent
  obtain ⟨d, hd, rfl⟩ := exists_decl h ha
  exact ⟨d, hd, hp⟩

/-- A property that each class passes on to those right below it holds of all heirs. -/
theorem heir_induct (h : build p = .ok t) {c : ClassLayout} {P : ClassLayout → Prop}
    (own : P c)
    (pass : ∀ k ∈ t.classes, ∀ q ∈ t.classes, k.parent = some q.name → P q → P k)
    (hc : c ∈ t.classes) {d : ClassLayout} (hd : d ∈ t.classes)
    (up : Descends p.classes d.name c.name) : P d := by
  obtain ⟨root, accepted, _, _⟩ := build_ok h
  have walk : ∀ e, Descends p.classes e c.name → ∀ k ∈ t.classes, k.name = e → P k := by
    intro e he
    induction he using Relation.ReflTransGen.head_induction_on with
    | refl =>
      intro k hk same
      exact eq_of_name h hk hc same ▸ own
    | head step _ ih =>
      rintro k hk rfl
      obtain ⟨e, he, same, parent⟩ := step
      have own : e = k.decl := Hierarchy.eq_of_name accepted.names he (decl_mem h hk) same
      have named : k.parent = some _ := own ▸ parent
      obtain ⟨q, hq, rfl⟩ := exists_parent h hk named
      exact pass k hk q hq named (ih q hq rfl)
  exact walk d.name up d hd rfl

theorem heir_methods (h : build p = .ok t) {c d : ClassLayout} (hc : c ∈ t.classes)
    (hd : d ∈ t.classes) (up : Descends p.classes d.name c.name) :
    c.methods.map (·.name) <+: d.methods.map (·.name) := by
  refine heir_induct h (P := fun k => c.methods.map (·.name) <+: k.methods.map (·.name))
    (List.prefix_refl _) ?_ hc hd up
  intro k hk q hq parent above
  rw [(parent_inherits h hk hq parent).2]
  exact above.trans (Layout.extendMethods_names _ _)

theorem heir_entry (h : build p = .ok t) {c d : ClassLayout} (hc : c ∈ t.classes)
    (hd : d ∈ t.classes) (up : Descends p.classes d.name c.name) {name : String} {slot : Nat}
    (found : c.methodSlot name = .ok slot) :
    ∃ m, d.methods[slot]? = some m ∧ d.methods.find? (fun n => n.name == name) = some m := by
  unfold ClassLayout.methodSlot at found
  split at found
  · rename_i i at_
    cases found
    obtain ⟨inside, named, earlier⟩ := List.findIdx?_eq_some_iff_getElem.mp at_
    have names := heir_methods h hc hd up
    have longer : c.methods.length ≤ d.methods.length := by simpa using names.length_le
    have same : ∀ j (_ : j < c.methods.length) (_ : j < d.methods.length),
        d.methods[j].name = c.methods[j].name := by
      intro j hj _
      have := names.getElem (i := j) (by simpa using hj)
      simpa using this.symm
    have there : slot < d.methods.length := by omega
    refine ⟨d.methods[slot], List.getElem?_eq_getElem there, ?_⟩
    refine List.find?_eq_some_iff_getElem.mpr ⟨?_, slot, there, rfl, ?_⟩
    · rw [same slot inside there]
      exact named
    · intro j hj
      rw [same j (by omega) (by omega)]
      simpa using earlier j hj
  · contradiction

theorem heir_slot (h : build p = .ok t) {c d : ClassLayout} (hc : c ∈ t.classes)
    (hd : d ∈ t.classes) (up : Descends p.classes d.name c.name) {name : String} {slot : Nat}
    (found : c.methodSlot name = .ok slot) :
    ∃ m, d.methods[slot]? = some m ∧ d.methodLabel name = .ok m.label := by
  obtain ⟨m, stands, first⟩ := heir_entry h hc hd up found
  refine ⟨m, stands, ?_⟩
  rw [ClassLayout.methodLabel, first]

end ClassTable

end ClassBackend
