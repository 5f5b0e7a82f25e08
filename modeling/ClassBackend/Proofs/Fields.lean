import ClassBackend.Proofs.Layout.Fields
import ClassBackend.Proofs.Llvm.Emission
import ClassBackend.Proofs.Mips.Emission
import ClassBackend.Proofs.Scope.ResolvedUnit

/-! The field that a name stands for. The code of a class finds the slot of its layout, whatever
classes were emitted before, and that slot is the same field in every object that the code may run
on. -/
namespace ClassBackend

open Hierarchy Lowering

/-- A field of this type stands in the slot of the objects of a class, and code gets to it. -/
structure Mips.HasSlot (d : ClassLayout) (slot : Nat) (ty : String) : Prop where
  /-- Past the header and before the end of the object. -/
  inside : 12 + 4 * slot + 4 ≤ 4 * (3 + d.fields.length)
  /-- The prototype has that many words, and says so. -/
  prototype : ∀ pool lines, Data.prototype pool d = .ok lines → ∃ (words : List Datum) (size : Int),
    lines = .word (.num Data.eyeCatcher) :: .label (Linkage.prototype d.name) ::
      words.map Line.word ∧
    words.length = 3 + d.fields.length ∧ words[1]? = some (.num size) ∧
    BitVec.ofInt 32 size = BitVec.ofNat 32 words.length ∧
    words[3 + slot]? = some (Data.fieldDefault pool ty)
  offset : ∀ off, fieldOffset slot = .ok off → BitVec.ofInt 32 off = BitVec.ofNat 32 (12 + 4 * slot)
  small : ∀ off, slot < 2147483648 → fieldOffset slot = .ok off → off = 12 + 4 * slot
  load : ∀ obj s v s', Asm.loadField obj slot s = .ok (v, s') →
    ∃ off, fieldOffset slot = .ok off ∧ s' = s.add [.lw .a0 off obj]
  store : ∀ obj v s s', Asm.storeField obj slot v s = .ok ((), s') →
    ∃ off, fieldOffset slot = .ok off ∧ s' = s.add [.sw v off obj]

structure Llvm.HasSlot (d : ClassLayout) (slot : Nat) (ty : String) : Prop where
  inside : slotSize * (3 + slot) + slotSize ≤ objectSize d
  size : objectSize d = slotSize * (structTypes d).length
  element : (structTypes d)[3 + slot]? = some (fieldType ty)
  load : ∀ obj (k : ClassLayout) s v s', Gen.loadField obj k slot s = .ok (v, s') → ∃ a b,
    Adds s [.assign a (.element k.name obj (3 + slot)), .assign b (.load .ptr (.temp a))] false s'
  store : ∀ obj (k : ClassLayout) v s s', Gen.storeField obj k slot v s = .ok ((), s') → ∃ a,
    Adds s [.assign a (.element k.name obj (3 + slot)), .store .ptr v (.temp a)] false s'

namespace Mips

theorem hasSlot {d : ClassLayout} {slot : Nat} {f : Field} (there : d.fields[slot]? = some f) :
    HasSlot d slot f.ty where
  inside := by
    have := (List.getElem?_eq_some_iff.mp there).1
    omega
  prototype := by
    intro pool lines made
    simp only [Data.prototype, Word.add, except_bind_ok, except_pure_ok, checked_ok] at made
    obtain ⟨size, ⟨_, rfl⟩, rfl⟩ := made
    refine ⟨.num d.tag :: .num (3 + Word.low d.fields.length) ::
      .sym (Linkage.dispatchTable d.name) :: d.fields.map (fun f => Data.fieldDefault pool f.ty),
      _, by simp [Data.header], by simp; omega, rfl, ?_, ?_⟩
    · have length : 3 + d.fields.length = (d.fields.map fun f => Data.fieldDefault pool f.ty).length
          + 1 + 1 + 1 := by simp; omega
      rw [BitVec.ofInt_add, ofInt_low, List.length_cons, List.length_cons, List.length_cons,
        ← length, BitVec.ofNat_add]
      rfl
    · rw [Nat.add_comm]
      simp [there]
  offset off known := by
    rw [ofInt_fieldOffset known, Machine.headerWords, Nat.mul_add]
  small off small known := by
    simp only [fieldOffset, Word.add, Word.mul, except_bind_ok, checked_ok] at known
    obtain ⟨_, ⟨_, rfl⟩, _, rfl⟩ := known
    rw [low_eq small]
    rfl
  load obj s v s' run := (loadField_ok run).2
  store obj v s s' run := storeField_ok run

end Mips

namespace Llvm

theorem fieldAddress_adds {obj v : Operand} {k : ClassLayout} {slot : Nat} {s s' : State}
    (run : Gen.fieldAddress obj k slot s = .ok (v, s')) :
    ∃ a, v = .temp a ∧ Adds s [.assign a (.element k.name obj (3 + slot))] false s' := by
  unfold Gen.fieldAddress at run
  cases known : fieldIndex slot with
  | ok index =>
    rw [known] at run
    cases fieldIndex_ok known
    obtain ⟨value, _, adds⟩ := assign_adds run
    exact ⟨_, value, adds⟩
  | error e =>
    rw [known] at run
    cases run

theorem hasSlot {d : ClassLayout} {slot : Nat} {f : Field} (there : d.fields[slot]? = some f) :
    HasSlot d slot f.ty where
  inside := by
    have := (List.getElem?_eq_some_iff.mp there).1
    simp only [objectSize, slotSize, headerFields]
    omega
  size := by
    have length : (structTypes d).length = 3 + d.fields.length := by
      simp [structTypes]
      omega
    rw [length]
    rfl
  element := by
    rw [Nat.add_comm]
    simp [structTypes, there]
  load obj k s v s' run := by
    simp only [Gen.loadField, bind_ok] at run
    obtain ⟨p, s₁, address, loaded⟩ := run
    obtain ⟨a, rfl, first⟩ := fieldAddress_adds address
    obtain ⟨_, _, second⟩ := assign_adds loaded
    exact ⟨a, _, first.trans second⟩
  store obj k v s s' run := by
    simp only [Gen.storeField, bind_ok] at run
    obtain ⟨p, s₁, address, stored⟩ := run
    obtain ⟨a, rfl, first⟩ := fieldAddress_adds address
    exact ⟨a, first.trans (emit_adds (by simp [Plain]) stored).1⟩

end Llvm

namespace ClassTable

/-- The slot of each name, in the layout and in the objects of all heirs. -/
structure FieldSlots (p : Program) (t : ClassTable) : Prop where
  heirs : ∀ k ∈ t.classes, ∀ d ∈ t.classes, Descends p.classes d.name k.name → k.fields <+: d.fields
  /-- The last declaration in the nearest class that has one. -/
  nearest : ∀ k ∈ t.classes, ∀ name slot, k.fieldSlot name = .ok slot ↔
    ∃ a ∈ t.classes, ∃ i, Attributed p.classes name k.name a.decl i ∧ slot = a.ownStart + i
  field : ∀ k ∈ t.classes, ∀ name slot, k.fieldSlot name = .ok slot →
    ∃ f, k.fields[slot]? = some f ∧ f.name = name ∧
      (∃ o i, Attributed p.classes name k.name o i ∧ f.owner = o.name ∧
        ∃ x, o.attributes[i]? = some x ∧ x.ty = f.ty) ∧
      ∀ d ∈ t.classes, Descends p.classes d.name k.name →
        d.fields[slot]? = some f ∧ Mips.HasSlot d slot f.ty ∧ Llvm.HasSlot d slot f.ty

/-- What the names of a class lead to while its code is emitted. -/
structure NamesFound (B : Backend) (t : ClassTable) : Prop where
  /-- Where the code of a class begins, the symbol table yields its slots, and no name but those of
  its fields. -/
  entry : ∀ (k : ClassLayout) s,
    Resolved.Comes t t.tree ({ target := B.start } : Session B) k s → ∀ name, name ≠ selfName →
    (binding name s).toOption.map Prod.fst = (k.fieldSlot name).toOption.map .field
  comes : ∀ s, Lowering.emitUnit B t = .ok s → ∀ k ∈ t.classes,
    ∃ s', Resolved.Comes t t.tree ({ target := B.start } : Session B) k s'
  /-- In its code, a name that no variable has leads to the slot of the layout. -/
  inside : ∀ (k : ClassLayout) vars marks (s : Session B),
    Resolved.Scopes.In ⟨Resolved.bound vars ++ Emission.fieldScope 0 k.fields, marks⟩ s → ∀ name,
    vars.lookup name = none → name ≠ selfName →
    (binding name s).toOption.map Prod.fst = (k.fieldSlot name).toOption.map .field
  /-- The unit is the one in which each class uses the slots of its own layout. -/
  unit : (Lowering.emitUnit B t).toOption.map (fun s => (s.pool, s.target)) =
    (Resolved.emitUnit B t).toOption
  /-- Emission of a class with its heirs leaves the names that were in scope before. -/
  closed : ∀ tr, Tree.Sub tr t.tree → ∀ marks (s s' : Session B),
    Resolved.Scopes.In ⟨Emission.fieldScope 0 tr.value.inherited, marks⟩ s →
    emitTree B t tr s = .ok ((), s') → ∀ name,
    (binding name s').toOption.map Prod.fst = (binding name s).toOption.map Prod.fst

variable {p : Program} {t : ClassTable}

theorem build_fieldSlots (h : build p = .ok t) : FieldSlots p t where
  heirs _ hk _ hd up := heir_fields h hk hd up
  nearest _ hk _ _ := fieldSlot_declared h hk
  field k hk name slot found := by
    obtain ⟨a, ha, i, near, rfl⟩ := (fieldSlot_declared h hk).mp found
    obtain ⟨x, there, named⟩ : ∃ x, a.decl.attributes[i]? = some x ∧ x.name = name := by
      have last := near.declares.2.1
      rwa [List.getElem?_map, Option.map_eq_some_iff] at last
    have stands : ∀ d ∈ t.classes, Descends p.classes d.name k.name →
        d.fields[a.ownStart + i]? = some ⟨x.name, x.ty, a.name⟩ :=
      fun d hd up => heir_attribute h ha hd (up.trans near.above) there
    refine ⟨_, stands k hk .refl, named, ⟨a.decl, i, near, rfl, x, there, rfl⟩, ?_⟩
    intro d hd up
    exact ⟨stands d hd up, Mips.hasSlot (stands d hd up), Llvm.hasSlot (stands d hd up)⟩

theorem build_namesFound (B : Backend) (h : build p = .ok t) : NamesFound B t where
  entry k s comes name other := by
    obtain ⟨marks, shows⟩ := comes.shows (Emission.nested_build h) (Resolved.start_shows h)
    rw [Resolved.binding_value shows, if_neg other, Resolved.showsFields k name]
  comes s emitted k hk := by
    simp only [Lowering.emitUnit, except_bind_ok] at emitted
    obtain ⟨⟨_, s'⟩, run, _⟩ := emitted
    rw [t.classes_eq] at hk
    exact Resolved.exists_comes t.tree run hk
  inside k vars marks s there name free other := by
    rw [Resolved.binding_value there, if_neg other, Resolved.lookup_bound, free,
      Resolved.showsFields k name]
  unit := Resolved.emitUnit_resolved h
  closed tr sub marks s s' there run name := by
    have nested : Emission.Nested tr := fun k ss inner => Emission.nested_build h k ss
      (inner.trans sub)
    have after := (Resolved.emitTree_agrees tr nested marks).shows there run
    rw [Resolved.binding_value there, Resolved.binding_value after]

/-- Names lead to the nearest field of their class, in every object that the code may meet. -/
theorem build_reachesFields (p : Program) (t : ClassTable) (h : build p = .ok t) :
    FieldSlots p t ∧ ∀ B, NamesFound B t :=
  ⟨build_fieldSlots h, fun B => build_namesFound B h⟩

/-- An attribute declared again further down, and twice in one class; a sibling emitted before. -/
def redeclaring : Program := ⟨[
  ⟨"Top", none, [.attribute "x" "Top" none, .attribute "y" "Top" none], "fields.cl"⟩,
  ⟨"Left", some "Top", [.attribute "z" "Top" (some (.ident ⟨"Top", 1⟩ "x"))], "fields.cl"⟩,
  ⟨"Right", some "Top", [.attribute "x" "Right" none, .attribute "x" "Left" none,
    .method "get" [] "Left" (some (.ident ⟨"Left", 2⟩ "x"))], "fields.cl"⟩]⟩

theorem redeclaring_reachesFields : ∃ t, build redeclaring = .ok t ∧
    t.classes.map (fun k => (k.name, (k.fieldSlot "x").toOption, (k.fieldSlot "y").toOption,
      (k.fieldSlot "z").toOption)) =
      [("Top", some 0, some 1, none), ("Left", some 0, some 1, some 2),
        ("Right", some 3, some 1, none)] ∧
    FieldSlots redeclaring t ∧ ∀ B, NamesFound B t :=
  ⟨_, by rfl, by rfl, build_reachesFields redeclaring _ (by rfl)⟩

end ClassTable

end ClassBackend
