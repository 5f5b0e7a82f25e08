import ClassBackend.Proofs.Emission.Unit
import ClassBackend.Proofs.Layout.Overriding
import ClassBackend.Proofs.Scope.WellScoped

/-! When a program is well scoped, read off its declarations. What a class has is what it or one of
its ancestors declares, and a class table lays out nothing else. -/
namespace ClassBackend

open Hierarchy

namespace Program

variable (q : Program)

def Declares (name : String) : Prop := ∃ c ∈ q.classes, c.name = name

/-- What a class or an ancestor of it declares of some kind. -/
def Inherits (own : ClassDecl → List String) (cls : String) : Set String :=
  {x | ∃ c ∈ q.classes, Descends q.classes cls c.name ∧ x ∈ own c}

def surroundings (cls : String) : Surroundings where
  declared := q.Declares
  answers name method := q.Declares name ∧ method ∈ q.Inherits (·.methods.map (·.name)) name
  current := cls

/-- All that is compiled refers to what is there. In a class its own attributes and those of its
ancestors are in scope. -/
def WellScoped : Prop :=
  ∀ c ∈ q.classes, c.Scoped (q.surroundings c.name) (q.Inherits (·.attributes.map (·.name)) c.name)

end Program

namespace Layout

theorem mem_extendMethods_names (ms : List Method) (c : ClassDecl) (name : String) :
    name ∈ (extendMethods ms c).map (·.name) ↔
      name ∈ c.methods.map (·.name) ∨ name ∈ ms.map (·.name) := by
  have own : c.methods.map (·.name) = (ownMethods c).map (·.name) := by
    simp [ownMethods, Function.comp_def]
  rw [own]
  unfold extendMethods
  generalize ownMethods c = own
  induction own generalizing ms with
  | nil => simp
  | cons m own ih =>
    have rest := ih (placeMethod m ms)
    rw [mem_placeMethod_names] at rest
    rw [List.foldl_cons, List.map_cons, List.mem_cons]
    grind

end Layout

namespace ClassTable

variable {q : Program} {t : ClassTable} {k : ClassLayout}

/-- What the root has of its own and each class adds to what its parent has is what a class or an
ancestor of it declares. -/
theorem inherits_eq (h : build q = .ok t) {own : ClassDecl → List String}
    (has : ClassLayout → Set String)
    (root : ∀ k ∈ t.classes, k.parent = none → ∀ x, x ∈ has k ↔ x ∈ own k.decl)
    (pass : ∀ k ∈ t.classes, ∀ a ∈ t.classes, k.parent = some a.name →
      ∀ x, x ∈ has k ↔ x ∈ own k.decl ∨ x ∈ has a)
    (hk : k ∈ t.classes) : has k = q.Inherits own k.name := by
  obtain ⟨_, accepted, _, _⟩ := build_ok h
  have self : ∀ k ∈ t.classes, ∀ c ∈ q.classes, c.name = k.name → c = k.decl :=
    fun k hk c hc same => Hierarchy.eq_of_name accepted.names hc (decl_mem h hk) same
  refine class_induct h (P := fun k => has k = q.Inherits own k.name) ?_ ?_ hk
  · intro k hk top
    ext x
    rw [root k hk top]
    constructor
    · exact fun mine => ⟨k.decl, decl_mem h hk, .refl, mine⟩
    · rintro ⟨c, hc, up, mine⟩
      rcases up.cases_head with same | ⟨_, ⟨d, hd, named, parent⟩, _⟩
      · exact self k hk c hc same.symm ▸ mine
      · cases self k hk d hd named
        cases top.symm.trans parent
  · intro k hk a ha parent ih
    have step : Extends q.classes k.name a.name := ⟨k.decl, decl_mem h hk, rfl, parent⟩
    ext x
    rw [pass k hk a ha parent, ih]
    constructor
    · rintro (mine | ⟨c, hc, up, theirs⟩)
      · exact ⟨k.decl, decl_mem h hk, .refl, mine⟩
      · exact ⟨c, hc, .head step up, theirs⟩
    · rintro ⟨c, hc, up, there⟩
      rcases up.cases_head with same | ⟨_, ⟨d, hd, named, above⟩, rest⟩
      · exact .inl (self k hk c hc same.symm ▸ there)
      · cases self k hk d hd named
        cases Option.some.inj (parent.symm.trans above)
        exact .inr ⟨c, hc, rest, there⟩

theorem fields_inherited (h : build q = .ok t) (hk : k ∈ t.classes) :
    {x | x ∈ k.fields.map (·.name)} = q.Inherits (·.attributes.map (·.name)) k.name := by
  have own : ∀ k ∈ t.classes, k.ownFields.map (·.name) = k.decl.attributes.map (·.name) := by
    intro k hk
    rw [ownFields_eq h hk]
    simp [Layout.ownFields, Function.comp_def]
  refine inherits_eq h (fun k => {x | x ∈ k.fields.map (·.name)}) ?_ ?_ hk
  · intro k hk root x
    rw [Set.mem_ofPred_eq, ClassLayout.fields, (root_inherits h hk root).1, List.nil_append,
      own k hk]
  · intro k hk a ha parent x
    have inherits := (parent_inherits h hk ha parent).1
    rw [Set.mem_ofPred_eq, Set.mem_ofPred_eq, ClassLayout.fields, inherits,
      List.map_append, List.mem_append, own k hk, or_comm]

theorem methods_inherited (h : build q = .ok t) (hk : k ∈ t.classes) :
    {x | x ∈ k.methods.map (·.name)} = q.Inherits (·.methods.map (·.name)) k.name := by
  refine inherits_eq h (fun k => {x | x ∈ k.methods.map (·.name)}) ?_ ?_ hk
  · intro k hk root x
    rw [Set.mem_ofPred_eq, (root_inherits h hk root).2, Layout.mem_extendMethods_names]
    simp
  · intro k hk a ha parent x
    rw [Set.mem_ofPred_eq, Set.mem_ofPred_eq, (parent_inherits h hk ha parent).2,
      Layout.mem_extendMethods_names]

theorem surroundings_eq (h : build q = .ok t) :
    Context.surroundings ⟨t, k⟩ = q.surroundings k.name := by
  have declared : Context.Declares ⟨t, k⟩ = q.Declares :=
    funext fun name => propext (Emission.found_iff h)
  have answers : ∀ name method, (∃ c, t.find name = .ok c ∧ method ∈ c.methods.map (·.name)) ↔
      q.Declares name ∧ method ∈ q.Inherits (·.methods.map (·.name)) name := by
    intro name method
    constructor
    · rintro ⟨c, found, has⟩
      have hc := mem_of_find found
      cases name_of_find found
      rw [← methods_inherited h hc]
      exact ⟨⟨c.decl, decl_mem h hc, rfl⟩, has⟩
    · rintro ⟨⟨d, hd, rfl⟩, has⟩
      obtain ⟨c, hc, rfl⟩ := exists_decl h hd
      rw [← ClassLayout.name, ← methods_inherited h hc] at has
      exact ⟨c, find_name h hc, has⟩
  unfold Context.surroundings Program.surroundings
  rw [declared]
  congr
  exact funext fun name => funext fun method => propext (answers name method)

/-- The classes of a table are well scoped as laid out exactly if the program is. -/
theorem layoutScoped_iff (h : build q = .ok t) :
    (∀ k ∈ t.classes, Emission.LayoutScoped t k) ↔ q.WellScoped := by
  have same : ∀ k ∈ t.classes, Emission.LayoutScoped t k ↔ k.decl.Scoped
      (q.surroundings k.decl.name) (q.Inherits (·.attributes.map (·.name)) k.decl.name) := by
    intro k hk
    rw [Emission.LayoutScoped, surroundings_eq h, fields_inherited h hk]
    rfl
  constructor
  · intro all c hc
    obtain ⟨k, hk, rfl⟩ := exists_decl h hc
    exact (same k hk).mp (all k hk)
  · exact fun all k hk => (same k hk).mpr (all k.decl (decl_mem h hk))

end ClassTable

end ClassBackend
