import Mathlib.Data.List.Induction
import ClassBackend.Proofs.Layout.Builtins

/-! Which declaration fills a slot. Along the way down from a class to an heir an entry of the
method table changes only where a class declares that name again, so that in the heir's table it
stands for the nearest declaration. -/
namespace ClassBackend

/-- The declaration of that name. Of several the last one counts. -/
def ClassDecl.method? (c : ClassDecl) (name : String) : Option MethodDecl :=
  c.methods.reverse.find? fun m => m.name == name

namespace Hierarchy

/-- `Declared decls name cls o m`: on the way up from `cls`, itself included, `o` is the first class
that declares the method, and `m` is its declaration. -/
inductive Declared (decls : List ClassDecl) (name : String) :
    String → ClassDecl → MethodDecl → Prop
  | here {c m} : c ∈ decls → c.method? name = some m → Declared decls name c.name c m
  | up {c p o m} : c ∈ decls → c.method? name = none → c.parent = some p →
    Declared decls name p o m → Declared decls name c.name o m

variable {decls : List ClassDecl} {name cls : String} {o : ClassDecl} {m : MethodDecl}

theorem Declared.declares (h : Declared decls name cls o m) :
    o ∈ decls ∧ o.method? name = some m := by
  induction h with
  | here mem found => exact ⟨mem, found⟩
  | up _ _ _ _ ih => exact ih

theorem Declared.above (h : Declared decls name cls o m) : Descends decls cls o.name := by
  induction h with
  | here => exact .refl
  | up mem _ parent _ ih => exact .head ⟨_, mem, rfl, parent⟩ ih

theorem Declared.nearest (names : (decls.map (·.name)).Nodup) (h : Declared decls name cls o m)
    {a : ClassDecl} (ha : a ∈ decls) (declares : a.method? name ≠ none)
    (up : Descends decls cls a.name) : Descends decls o.name a.name := by
  induction h with
  | here => exact up
  | @up c p o m mem silent parent _ ih =>
    rcases up.cases_head with same | ⟨q, ⟨d, hd, named, above⟩, rest⟩
    · cases eq_of_name names mem ha same
      exact absurd silent declares
    · cases eq_of_name names hd mem named
      cases Option.some.inj (parent.symm.trans above)
      exact ih rest

end Hierarchy

namespace Layout

theorem placeMethod_find (m : Method) (ms : List Method) (name : String) :
    (placeMethod m ms).find? (fun n => n.name == name) =
      if m.name = name then some m else ms.find? fun n => n.name == name := by
  induction ms with
  | nil => by_cases same : m.name = name <;> simp [placeMethod, same]
  | cons n ns ih =>
    unfold placeMethod
    by_cases taken : n.name = m.name
    · by_cases same : m.name = name <;> simp [taken, same]
    · rw [if_neg taken, List.find?_cons, List.find?_cons, ih]
      by_cases same : m.name = name
      · have other : (n.name == name) = false := by
          rw [← same]
          simpa using taken
        simp [same, other]
      · simp [same]

theorem mem_placeMethod_names (m : Method) (ms : List Method) (name : String) :
    name ∈ (placeMethod m ms).map (·.name) ↔ name = m.name ∨ name ∈ ms.map (·.name) := by
  induction ms with
  | nil => simp [placeMethod]
  | cons n ns ih =>
    unfold placeMethod
    by_cases taken : n.name = m.name
    · simp [taken]
    · rw [if_neg taken, List.map_cons, List.mem_cons, ih, List.map_cons, List.mem_cons]
      exact or_left_comm

theorem placeMethod_nodup (m : Method) {ms : List Method} (h : (ms.map (·.name)).Nodup) :
    ((placeMethod m ms).map (·.name)).Nodup := by
  induction ms with
  | nil => simp [placeMethod]
  | cons n ns ih =>
    obtain ⟨fresh, rest⟩ := List.nodup_cons.mp h
    unfold placeMethod
    by_cases taken : n.name = m.name
    · rw [if_pos taken, List.map_cons, ← taken]
      exact h
    · rw [if_neg taken]
      refine List.nodup_cons.mpr ⟨?_, ih rest⟩
      rw [mem_placeMethod_names]
      exact fun there => there.elim taken fresh

theorem extendMethods_nodup {ms : List Method} (h : (ms.map (·.name)).Nodup) (c : ClassDecl) :
    ((extendMethods ms c).map (·.name)).Nodup := by
  unfold extendMethods
  induction ownMethods c generalizing ms with
  | nil => exact h
  | cons m own ih => exact ih (placeMethod_nodup m h)

/-- A class's own declaration goes before what it inherits. -/
theorem extendMethods_find (ms : List Method) (c : ClassDecl) (name : String) :
    (extendMethods ms c).find? (fun n => n.name == name) =
      match c.method? name with
      | some m => some ⟨name, c.name, m.formals.length⟩
      | none => ms.find? fun n => n.name == name := by
  unfold extendMethods ownMethods ClassDecl.method?
  -- the last declaration is placed last, so the induction takes it off first
  induction c.methods using List.reverseRecOn with
  | nil => rfl
  | append_singleton own m ih =>
    simp only [List.map_append, List.map_cons, List.map_nil, List.foldl_append, List.foldl_cons,
      List.foldl_nil, List.reverse_append, List.reverse_singleton, List.singleton_append]
    rw [placeMethod_find, ih, List.find?_cons]
    by_cases same : m.name = name
    · simp [same]
    · rw [if_neg same, beq_eq_false_iff_ne.mpr same]

end Layout

namespace ClassTable

open Hierarchy

variable {p : Program} {t : ClassTable}

/-- A property that the root has and that each class passes on to those right below it. -/
theorem class_induct (h : build p = .ok t) {P : ClassLayout → Prop}
    (root : ∀ k ∈ t.classes, k.parent = none → P k)
    (pass : ∀ k ∈ t.classes, ∀ q ∈ t.classes, k.parent = some q.name → P q → P k)
    {k : ClassLayout} (hk : k ∈ t.classes) : P k := by
  induction tag : k.tag using Nat.strongRecOn generalizing k with
  | ind n ih =>
    cases parent : k.parent with
    | none => exact root k hk parent
    | some name =>
      obtain ⟨q, hq, rfl⟩ := exists_parent h hk parent
      have above := (parent_range h hk hq parent).1
      exact pass k hk q hq parent (ih q.tag (by omega) hq rfl)

theorem methods_nodup (h : build p = .ok t) {k : ClassLayout} (hk : k ∈ t.classes) :
    (k.methods.map (·.name)).Nodup := by
  refine class_induct h (P := fun k => (k.methods.map (·.name)).Nodup) ?_ ?_ hk
  · intro k hk root
    rw [(root_inherits h hk root).2]
    have empty : (([] : List Method).map (·.name)).Nodup := List.nodup_nil
    exact Layout.extendMethods_nodup empty _
  · intro k hk q hq parent ih
    rw [(parent_inherits h hk hq parent).2]
    exact Layout.extendMethods_nodup ih _

/-- An entry of a method table names the nearest class that declares the method. -/
theorem entry_declared (h : build p = .ok t) {k : ClassLayout} (hk : k ∈ t.classes)
    {name : String} {e : Method} (found : k.methods.find? (fun n => n.name == name) = some e) :
    ∃ o m, Declared p.classes name k.name o m ∧ e = ⟨name, o.name, m.formals.length⟩ := by
  refine class_induct h (P := fun k => ∀ e, k.methods.find? (fun n => n.name == name) = some e →
    ∃ o m, Declared p.classes name k.name o m ∧ e = ⟨name, o.name, m.formals.length⟩)
    ?_ ?_ hk e found
  · intro k hk root e found
    rw [(root_inherits h hk root).2, Layout.extendMethods_find] at found
    cases own : k.decl.method? name with
    | none => simp [own] at found
    | some m =>
      simp only [own, Option.some.injEq] at found
      exact ⟨k.decl, m, .here (decl_mem h hk) own, found.symm⟩
  · intro k hk q hq parent ih e found
    rw [(parent_inherits h hk hq parent).2, Layout.extendMethods_find] at found
    cases own : k.decl.method? name with
    | none =>
      simp only [own] at found
      obtain ⟨o, m, above, rfl⟩ := ih e found
      exact ⟨o, m, .up (decl_mem h hk) own parent above, rfl⟩
    | some m =>
      simp only [own, Option.some.injEq] at found
      exact ⟨k.decl, m, .here (decl_mem h hk) own, found.symm⟩

theorem slot_declared (h : build p = .ok t) {c d : ClassLayout} (hc : c ∈ t.classes)
    (hd : d ∈ t.classes) (up : Descends p.classes d.name c.name) {name : String} {slot : Nat}
    (found : c.methodSlot name = .ok slot) :
    ∃ o m, Declared p.classes name d.name o m ∧
      d.methods[slot]? = some ⟨name, o.name, m.formals.length⟩ := by
  obtain ⟨e, stands, first⟩ := heir_entry h hc hd up found
  obtain ⟨o, m, declared, rfl⟩ := entry_declared h hd first
  exact ⟨o, m, declared, stands⟩

/-- No class from `d` up to `c`, `c` left out, declares the method. -/
def Silent (p : Program) (t : ClassTable) (c d : ClassLayout) (name : String) : Prop :=
  ∀ k ∈ t.classes, Descends p.classes d.name k.name → Descends p.classes k.name c.name →
    k.name ≠ c.name → k.decl.method? name = none

theorem resolve_mem {current c : ClassLayout} (known : current ∈ t.classes) {ty : String}
    (h : t.resolve ty current = .ok c) : c ∈ t.classes := by
  unfold resolve at h
  split at h
  · cases h
    exact known
  · exact mem_of_find h

theorem exists_slot {k : ClassLayout} {name : String} (h : name ∈ k.methods.map (·.name)) :
    ∃ slot, k.methodSlot name = .ok slot := by
  obtain ⟨m, hm, rfl⟩ := List.mem_map.mp h
  unfold ClassLayout.methodSlot
  cases found : k.methods.findIdx? fun n => n.name == m.name with
  | none => exact absurd (List.findIdx?_eq_none_iff.mp found m hm) (by simp)
  | some i => exact ⟨i, rfl⟩

theorem label_of_slot (h : build p = .ok t) {c : ClassLayout} (hc : c ∈ t.classes)
    {name label : String} (known : c.methodLabel name = .ok label) :
    ∃ slot m, c.methodSlot name = .ok slot ∧ c.methods[slot]? = some m ∧ m.label = label := by
  unfold ClassLayout.methodLabel at known
  split at known
  · rename_i m found
    cases known
    have named : m.name = name := eq_of_beq (List.find?_some found :)
    obtain ⟨slot, at_⟩ := exists_slot (List.mem_map_of_mem (List.mem_of_find?_eq_some found))
    rw [named] at at_
    obtain ⟨m', stands, first⟩ := heir_entry h hc hc .refl at_
    cases found.symm.trans first
    exact ⟨slot, m, at_, stands, rfl⟩
  · contradiction

end ClassTable

end ClassBackend
