import ClassBackend.Proofs.Layout.Builtins
import ClassBackend.Proofs.Layout.Overriding

/-! Where a field stands. A class is laid out after its parent, so a slot holds the same field in
all heirs, and the slot of a name is that of its last declaration in the nearest class that has
one. -/
namespace ClassBackend

/-- The last of these names that is this one stands there. -/
def LastNamed (names : List String) (name : String) (i : Nat) : Prop :=
  names[i]? = some name ∧ ∀ j, i < j → names[j]? ≠ some name

section Positions

variable {names more : List String} {name : String} {i j : Nat}

theorem LastNamed.unique (h : LastNamed names name i) (h' : LastNamed names name j) : i = j := by
  rcases Nat.lt_trichotomy i j with below | same | above
  · exact absurd h'.1 (h.2 j below)
  · exact same
  · exact absurd h.1 (h'.2 i above)

theorem lastNamed_append : LastNamed (names ++ more) name i ↔
    (∃ j, LastNamed more name j ∧ i = names.length + j) ∨
      (name ∉ more ∧ LastNamed names name i) := by
  have behind (j : Nat) : (names ++ more)[names.length + j]? = more[j]? := by
    rw [List.getElem?_append_right (Nat.le_add_right ..), Nat.add_sub_cancel_left]
  constructor
  · rintro ⟨at_, last⟩
    by_cases inside : i < names.length
    · right
      rw [List.getElem?_append_left inside] at at_
      refine ⟨fun mem => ?_, at_, fun j above found => ?_⟩
      · obtain ⟨j, found⟩ := List.getElem?_of_mem mem
        exact last (names.length + j) (by omega) (behind j ▸ found)
      · have below := (List.getElem?_eq_some_iff.mp found).1
        exact last j above (by rw [List.getElem?_append_left below]; exact found)
    · left
      obtain ⟨j, rfl⟩ : ∃ j, i = names.length + j := ⟨i - names.length, by omega⟩
      rw [behind] at at_
      exact ⟨j, ⟨at_, fun k above => behind k ▸ last (names.length + k) (by omega)⟩, rfl⟩
  · rintro (⟨j, ⟨at_, last⟩, rfl⟩ | ⟨absent, at_, last⟩)
    · refine ⟨(behind j).trans at_, fun k above => ?_⟩
      obtain ⟨k, rfl⟩ : ∃ l, k = names.length + l := ⟨k - names.length, by omega⟩
      rw [behind]
      exact last k (by omega)
    · have inside := (List.getElem?_eq_some_iff.mp at_).1
      refine ⟨by rw [List.getElem?_append_left inside]; exact at_, fun k above found => ?_⟩
      by_cases below : k < names.length
      · rw [List.getElem?_append_left below] at found
        exact last k above found
      · rw [List.getElem?_append_right (by omega)] at found
        exact absent (List.mem_of_getElem? found)

end Positions

namespace Hierarchy

/-- `Attributed decls name cls o i`: on the way up from `cls`, itself included, `o` is the first
class with an attribute of that name, and its last one is number `i`. -/
inductive Attributed (decls : List ClassDecl) (name : String) : String → ClassDecl → Nat → Prop
  | here {c i} : c ∈ decls → LastNamed (c.attributes.map (·.name)) name i →
    Attributed decls name c.name c i
  | up {c p o i} : c ∈ decls → name ∉ c.attributes.map (·.name) → c.parent = some p →
    Attributed decls name p o i → Attributed decls name c.name o i

variable {decls : List ClassDecl} {name cls : String} {o : ClassDecl} {i : Nat}

theorem Attributed.declares (h : Attributed decls name cls o i) :
    o ∈ decls ∧ LastNamed (o.attributes.map (·.name)) name i := by
  induction h with
  | here mem last => exact ⟨mem, last⟩
  | up _ _ _ _ ih => exact ih

theorem Attributed.above (h : Attributed decls name cls o i) : Descends decls cls o.name := by
  induction h with
  | here => exact .refl
  | up mem _ parent _ ih => exact .head ⟨_, mem, rfl, parent⟩ ih

end Hierarchy

namespace ClassLayout

variable {k : ClassLayout} {name : String} {slot : Nat}

/-- The slot of a name is the place of the last field of that name. -/
theorem fieldSlot_iff : k.fieldSlot name = .ok slot ↔
    LastNamed (k.fields.map (·.name)) name slot := by
  have named (j : Nat) : (k.fields.map (·.name))[j]? = some name ↔
      ∃ f, k.fields[j]? = some f ∧ f.name = name := by
    rw [List.getElem?_map, Option.map_eq_some_iff]
  unfold fieldSlot
  cases found : k.fields.reverse.findIdx? fun f => f.name == name with
  | none =>
    simp only [List.findIdx?_eq_none_iff, List.mem_reverse, beq_eq_false_iff_ne] at found
    simp only [reduceCtorEq, false_iff]
    intro last
    obtain ⟨f, hf, same⟩ := (named slot).mp last.1
    exact found f (List.mem_of_getElem? hf) same
  | some i =>
    obtain ⟨inside, same, earlier⟩ := List.findIdx?_eq_some_iff_getElem.mp found
    simp only [List.length_reverse] at inside
    have last : LastNamed (k.fields.map (·.name)) name (k.fields.length - 1 - i) := by
      refine ⟨?_, fun j above there => ?_⟩
      · rw [List.getElem_reverse] at same
        exact (named _).mpr ⟨_, List.getElem?_eq_getElem (by omega), eq_of_beq same⟩
      · obtain ⟨f, hf, named⟩ := (named j).mp there
        obtain ⟨within, rfl⟩ := List.getElem?_eq_some_iff.mp hf
        have mirrored : k.fields.length - 1 - (k.fields.length - 1 - j) = j := by omega
        have before := earlier (k.fields.length - 1 - j) (by omega)
        simp only [List.getElem_reverse, mirrored] at before
        exact before (beq_iff_eq.mpr named)
    simp only [Except.ok.injEq]
    exact ⟨fun same => same ▸ last, fun h => last.unique h⟩

end ClassLayout

namespace ClassTable

open Hierarchy

variable {p : Program} {t : ClassTable} {k : ClassLayout} {name : String} {slot : Nat}

theorem ownFields_names (h : build p = .ok t) (hk : k ∈ t.classes) :
    k.ownFields.map (·.name) = k.decl.attributes.map (·.name) := by
  rw [ownFields_eq h hk]
  simp [Layout.ownFields]

/-- The slot of a name is that of its nearest declaration. -/
theorem fieldSlot_declared (h : build p = .ok t) (hk : k ∈ t.classes) :
    k.fieldSlot name = .ok slot ↔ ∃ a ∈ t.classes, ∃ i,
      Attributed p.classes name k.name a.decl i ∧ slot = a.ownStart + i := by
  obtain ⟨_, accepted, _, _⟩ := build_ok h
  refine class_induct h (P := fun k => k.fieldSlot name = .ok slot ↔ ∃ a ∈ t.classes, ∃ i,
      Attributed p.classes name k.name a.decl i ∧ slot = a.ownStart + i) ?_ ?_ hk
  · intro k hk root
    have start := (root_inherits h hk root).1
    rw [ClassLayout.fieldSlot_iff, ClassLayout.fields, start, List.nil_append,
      ownFields_names h hk]
    constructor
    · exact fun last => ⟨k, hk, slot, .here (decl_mem h hk) last, by
        rw [ClassLayout.ownStart, start]; simp⟩
    · rintro ⟨a, ha, i, near, rfl⟩
      generalize from_ : k.name = cls at near
      cases near with
      | here _ last =>
        cases eq_of_name h hk ha from_
        rw [ClassLayout.ownStart, start]
        simpa using last
      | up mem _ parent _ =>
        have same := Hierarchy.eq_of_name accepted.names (decl_mem h hk) mem from_
        cases same
        cases root.symm.trans parent
  · intro k hk q hq parent ih
    have inherited := (parent_inherits h hk hq parent).1
    have length : (q.fields.map (·.name)).length = k.ownStart := by
      rw [List.length_map, ClassLayout.ownStart, inherited]
    rw [ClassLayout.fieldSlot_iff, ClassLayout.fields, List.map_append, lastNamed_append,
      inherited, ownFields_names h hk, ← ClassLayout.fieldSlot_iff, ih, length]
    constructor
    · rintro (⟨i, last, rfl⟩ | ⟨silent, a, ha, i, near, rfl⟩)
      · exact ⟨k, hk, i, .here (decl_mem h hk) last, rfl⟩
      · exact ⟨a, ha, i, .up (decl_mem h hk) silent parent near, rfl⟩
    · rintro ⟨a, ha, i, near, rfl⟩
      generalize from_ : k.name = cls at near
      cases near with
      | here _ last =>
        cases eq_of_name h hk ha from_
        exact .inl ⟨i, last, rfl⟩
      | up mem silent above near =>
        cases Hierarchy.eq_of_name accepted.names (decl_mem h hk) mem from_
        cases Option.some.inj (parent.symm.trans above)
        exact .inr ⟨silent, a, ha, i, near, rfl⟩

theorem heir_fields (h : build p = .ok t) {c d : ClassLayout} (hc : c ∈ t.classes)
    (hd : d ∈ t.classes) (up : Descends p.classes d.name c.name) : c.fields <+: d.fields := by
  refine heir_induct h (P := fun k => c.fields <+: k.fields) (List.prefix_refl _) ?_ hc hd up
  intro k hk q hq parent above
  have whole : k.fields = q.fields ++ k.ownFields := by
    rw [ClassLayout.fields, (parent_inherits h hk hq parent).1]
  rw [whole]
  exact above.trans (List.prefix_append ..)

theorem heir_attribute (h : build p = .ok t) {a d : ClassLayout} (ha : a ∈ t.classes)
    (hd : d ∈ t.classes) (up : Descends p.classes d.name a.name) {i : Nat} {x : Attribute}
    (there : a.decl.attributes[i]? = some x) :
    d.fields[a.ownStart + i]? = some ⟨x.name, x.ty, a.name⟩ := by
  have own : a.ownFields[i]? = some ⟨x.name, x.ty, a.name⟩ := by
    rw [ownFields_eq h ha, Layout.ownFields, List.getElem?_map, there]
    rfl
  have field : a.fields[a.ownStart + i]? = some ⟨x.name, x.ty, a.name⟩ := by
    rw [ClassLayout.fields, ClassLayout.ownStart, List.getElem?_append_right (Nat.le_add_right ..),
      Nat.add_sub_cancel_left]
    exact own
  obtain ⟨rest, whole⟩ := heir_fields h ha hd up
  rw [← whole, List.getElem?_append_left (List.getElem?_eq_some_iff.mp field).1]
  exact field

end ClassTable

end ClassBackend

/-! Which fields are boxed. In a program that leaves the built-in classes alone, all but those of
`Int`, `Bool` and `String`, and these classes have no code. -/
namespace ClassBackend

namespace ClassTable

variable {p : Program} {t : ClassTable} {k : ClassLayout}

def unboxed : List String := [Builtin.intName, Builtin.boolName, Builtin.stringName]

theorem own_boxed (ordinary : p.Ordinary) (h : build p.withBuiltins = .ok t) (hk : k ∈ t.classes)
    (plain : k.name ∉ unboxed) : ∀ f ∈ k.ownFields, NativeKind.ofType? f.ty = none := by
  intro f hf
  rw [ownFields_eq h hk] at hf
  obtain ⟨a, ha, rfl⟩ := List.mem_map.mp hf
  have declared := decl_mem h hk
  rw [ordinary.withBuiltins] at declared
  rcases List.mem_append.mp declared with builtin | user
  · have none : ∀ b ∈ Builtin.classes, b.name ∉ unboxed → b.attributes = [] := by decide
    rw [none _ builtin plain] at ha
    cases ha
  · exact ordinary.boxed _ user a ha

theorem parent_plain (ordinary : p.Ordinary) (h : build p.withBuiltins = .ok t)
    (hk : k ∈ t.classes) {q : String} (parent : k.parent = some q) : q ∉ unboxed := by
  have declared := decl_mem h hk
  rw [ordinary.withBuiltins] at declared
  have other : k.decl.parent ∉ unboxed.map some := by
    rcases List.mem_append.mp declared with builtin | user
    · have none : ∀ b ∈ Builtin.classes, b.parent ∉ unboxed.map some := by decide
      exact none _ builtin
    · exact ordinary.parents _ user
  intro mem
  rw [show k.decl.parent = some q from parent] at other
  exact other (List.mem_map_of_mem mem)

theorem fields_boxed (ordinary : p.Ordinary) (h : build p.withBuiltins = .ok t)
    (hk : k ∈ t.classes) (plain : k.name ∉ unboxed) :
    ∀ f ∈ k.fields, NativeKind.ofType? f.ty = none := by
  refine class_induct h (P := fun k => k.name ∉ unboxed →
    ∀ f ∈ k.fields, NativeKind.ofType? f.ty = none) ?_ ?_ hk plain
  · intro k hk root plain
    rw [ClassLayout.fields, (root_inherits h hk root).1]
    exact own_boxed ordinary h hk plain
  · intro k hk q hq parent above plain
    rw [ClassLayout.fields, (parent_inherits h hk hq parent).1]
    exact List.forall_mem_append.mpr
      ⟨above (parent_plain ordinary h hk parent), own_boxed ordinary h hk plain⟩

/-- A class with an unboxed field has neither code of its own nor initial values. -/
theorem silent_or_boxed (ordinary : p.Ordinary) (h : build p.withBuiltins = .ok t)
    (hk : k ∈ t.classes) :
    (k.isBuiltin = true ∧ ∀ a ∈ k.decl.attributes, a.init = none) ∨
      ∀ f ∈ k.fields, NativeKind.ofType? f.ty = none := by
  by_cases plain : k.name ∈ unboxed
  · left
    have declared := decl_mem h hk
    have builtin : k.isBuiltin = true := by
      have : ∀ name ∈ unboxed, Builtin.isBuiltin name = true := by decide
      exact this _ plain
    refine ⟨builtin, ?_⟩
    rw [ordinary.withBuiltins] at declared
    rcases List.mem_append.mp declared with own | user
    · have silent : ∀ b ∈ Builtin.classes, ∀ a ∈ b.attributes, a.init.isNone = true := by decide
      exact fun a ha => Option.isNone_iff_eq_none.mp (silent _ own a ha)
    · have := ordinary.undeclared _ user
      rw [ClassLayout.isBuiltin, ClassLayout.name, this] at builtin
      cases builtin
  · exact .inr (fields_boxed ordinary h hk plain)

end ClassTable

end ClassBackend
