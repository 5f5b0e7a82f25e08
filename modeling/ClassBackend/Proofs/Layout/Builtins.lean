import ClassBackend.Proofs.Layout.Inheritance

/-! The built-in classes in a program that leaves them alone. -/
namespace ClassBackend

/-- The program declares no built-in class, gives no attribute a native type, and does not inherit
from a class with native fields. -/
structure Program.Ordinary (p : Program) : Prop where
  undeclared : ∀ c ∈ p.classes, Builtin.isBuiltin c.name = false
  boxed : ∀ c ∈ p.classes, ∀ a ∈ c.attributes, NativeKind.ofType? a.ty = none
  parents : ∀ c ∈ p.classes, c.parent ∉
    [some Builtin.intName, some Builtin.boolName, some Builtin.stringName]

theorem Program.withBuiltins_append {p : Program}
    (undeclared : ∀ c ∈ p.classes, Builtin.isBuiltin c.name = false) :
    p.withBuiltins.classes = Builtin.classes ++ p.classes := by
  have absent : ∀ b ∈ Builtin.classes, (p.find? b.name).isNone = true := by
    intro b hb
    have builtin : Builtin.isBuiltin b.name = true := by
      revert b
      decide
    rw [Option.isNone_iff_eq_none, Program.find?, List.find?_eq_none]
    intro c hc same
    have := undeclared c hc
    rw [eq_of_beq same, builtin] at this
    contradiction
  unfold Program.withBuiltins
  rw [List.filter_eq_self.mpr absent]

theorem Program.Ordinary.withBuiltins {p : Program} (h : p.Ordinary) :
    p.withBuiltins.classes = Builtin.classes ++ p.classes :=
  Program.withBuiltins_append h.undeclared

namespace ClassTable

open Hierarchy

variable {p : Program} {t : ClassTable} {k : ClassLayout}

theorem ownFields_eq (h : build p = .ok t) (hk : k ∈ t.classes) :
    k.ownFields = Layout.ownFields k.decl := by
  obtain ⟨root, _, ht, _⟩ := build_ok h
  rw [t.classes_eq, ht] at hk
  obtain ⟨s, hs, rfl⟩ := (Tree.mem_preorder_iff _ _).mp hk
  obtain ⟨inherited, table, start, u, _, rfl, _, _⟩ := Layout.sub_tree hs
  cases u
  rfl

theorem root_inherits (h : build p = .ok t) (hk : k ∈ t.classes) (root : k.parent = none) :
    k.inherited = [] ∧ k.methods = Layout.extendMethods [] k.decl := by
  obtain ⟨r, accepted, ht, _⟩ := build_ok h
  have decl : k.decl = r := accepted.eq_root (decl_mem h hk) root
  have value : t.tree.value ∈ t.classes := by
    rw [t.classes_eq]
    exact Tree.value_mem_preorder _
  have same : k = t.tree.value := by
    refine eq_of_name h hk value ?_
    rw [ClassLayout.name, ClassLayout.name, decl, ht, Layout.tree_value_decl, descend_value]
  rw [same, ht]
  cases descend p.classes p.classes.length r
  exact ⟨rfl, rfl⟩

theorem name_of_find {name : String} (h : t.find name = .ok k) : k.name = name := by
  unfold find at h
  split at h
  · rename_i found
    cases h
    exact eq_of_beq (List.find?_some found :)
  · contradiction

theorem builtin_fields (ordinary : p.Ordinary) (h : build p.withBuiltins = .ok t) {b : ClassDecl}
    (builtin : b ∈ Builtin.classes) (below : b.parent = some Builtin.objectName)
    (found : t.find b.name = .ok k) : k.inherited = [] ∧ k.ownFields = Layout.ownFields b := by
  have declared : ∀ d ∈ Builtin.classes, d ∈ p.withBuiltins.classes := by
    intro d hd
    rw [ordinary.withBuiltins]
    exact List.mem_append_left _ hd
  have hk := mem_of_find found
  obtain ⟨k', hk', rfl⟩ := exists_decl h (declared b builtin)
  have same : k = k' := eq_of_name h hk hk' (name_of_find found)
  subst same
  obtain ⟨q, hq, object⟩ := exists_decl h (declared Builtin.object (by simp [Builtin.classes]))
  have name : q.name = Builtin.objectName := by
    rw [ClassLayout.name, object]
    rfl
  obtain ⟨inherited, _⟩ := parent_inherits h hk hq (by rw [name]; exact below)
  refine ⟨?_, ownFields_eq h hk⟩
  have root : q.inherited = [] := (root_inherits h hq (by rw [ClassLayout.parent, object]; rfl)).1
  rw [inherited, ClassLayout.fields, root, ownFields_eq h hq, object]
  rfl

theorem int_layout (ordinary : p.Ordinary) (h : build p.withBuiltins = .ok t)
    (found : t.find Builtin.intName = .ok k) : k.ownStart = 0 ∧ k.fields.length = 1 := by
  obtain ⟨inherited, own⟩ :=
    builtin_fields (b := Builtin.int) ordinary h (by simp [Builtin.classes]) rfl found
  rw [ClassLayout.ownStart, ClassLayout.fields, inherited, own]
  exact ⟨rfl, rfl⟩

theorem bool_layout (ordinary : p.Ordinary) (h : build p.withBuiltins = .ok t)
    (found : t.find Builtin.boolName = .ok k) : k.ownStart = 0 := by
  obtain ⟨inherited, _⟩ :=
    builtin_fields (b := Builtin.bool) ordinary h (by simp [Builtin.classes]) rfl found
  rw [ClassLayout.ownStart, inherited]
  rfl

end ClassTable

end ClassBackend
