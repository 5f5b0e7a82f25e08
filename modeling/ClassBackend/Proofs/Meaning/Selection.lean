import ClassBackend.Proofs.Layout.Inheritance
import ClassBackend.Proofs.Meaning.Evaluation

/-! Case selection. The alternative on the nearest ancestor is the first one, in the order of the
tests, whose range holds the tag: ancestors have smaller tags than their heirs, and the tests go
from the greatest tag down and keep alternatives on one class in their order. -/
namespace ClassBackend

namespace Lowering

variable {β : Type}

theorem placeByTag_perm (b : ClassLayout × β) (bs : List (ClassLayout × β)) :
    (placeByTag b bs).Perm (b :: bs) := by
  induction bs with
  | nil => exact .refl _
  | cons c cs ih =>
    unfold placeByTag
    split
    · exact .refl _
    · exact (ih.cons c).trans (.swap b c cs)

theorem testOrder_perm (bs : List (ClassLayout × β)) : (testOrder bs).Perm bs := by
  induction bs with
  | nil => exact .refl _
  | cons b bs ih => exact (placeByTag_perm b _).trans (ih.cons b)

theorem placeByTag_sorted (b : ClassLayout × β) {bs : List (ClassLayout × β)}
    (h : bs.Pairwise fun x y => y.1.tag ≤ x.1.tag) :
    (placeByTag b bs).Pairwise fun x y => y.1.tag ≤ x.1.tag := by
  induction bs with
  | nil => exact List.pairwise_singleton _ _
  | cons c cs ih =>
    obtain ⟨below, rest⟩ := List.pairwise_cons.mp h
    unfold placeByTag
    split
    · rename_i small
      refine List.pairwise_cons.mpr ⟨fun x hx => ?_, h⟩
      rcases List.mem_cons.mp hx with rfl | hx
      · exact small
      · exact Nat.le_trans (below x hx) small
    · rename_i great
      refine List.pairwise_cons.mpr ⟨fun x hx => ?_, ih rest⟩
      rcases List.mem_cons.mp ((placeByTag_perm b cs).subset hx) with rfl | hx
      · omega
      · exact below x hx

theorem testOrder_sorted (bs : List (ClassLayout × β)) :
    (testOrder bs).Pairwise fun x y => y.1.tag ≤ x.1.tag := by
  induction bs with
  | nil => exact .nil
  | cons b bs ih => exact placeByTag_sorted b ih

theorem placeByTag_filter (b : ClassLayout × β) (bs : List (ClassLayout × β)) (g : Nat) :
    (placeByTag b bs).filter (·.1.tag == g) = (b :: bs).filter (·.1.tag == g) := by
  induction bs with
  | nil => rfl
  | cons c cs ih =>
    unfold placeByTag
    split
    · rfl
    · rename_i great
      rw [List.filter_cons, ih]
      by_cases hc : c.1.tag = g
      · have hb : b.1.tag ≠ g := by omega
        simp [hc, hb]
      · by_cases hb : b.1.tag = g <;> simp [hc, hb]

theorem testOrder_filter (bs : List (ClassLayout × β)) (g : Nat) :
    (testOrder bs).filter (·.1.tag == g) = bs.filter (·.1.tag == g) := by
  induction bs with
  | nil => rfl
  | cons b bs ih =>
    have := placeByTag_filter b (testOrder bs) g
    rw [testOrder, List.foldr_cons, ← testOrder, this, List.filter_cons, List.filter_cons, ih]

end Lowering

namespace Meaning

open Hierarchy ClassTable Lowering

variable {p : Program} {t : ClassTable} {β : Type}

theorem lineage_mem (h : build p = .ok t) {n : Nat} {k a : ClassLayout} (hk : k ∈ t.classes)
    (ha : a ∈ lineage t n k) : a ∈ t.classes ∧ Descends p.classes k.name a.name := by
  induction n generalizing k with
  | zero =>
    cases List.mem_singleton.mp ha
    exact ⟨hk, .refl⟩
  | succ n ih =>
    rcases List.mem_cons.mp ha with rfl | ha
    · exact ⟨hk, .refl⟩
    · cases parent : k.parent with
      | none => simp [parent] at ha
      | some q =>
        obtain ⟨q, hq, rfl⟩ := exists_parent h hk parent
        simp only [parent, Option.map_some, find_name h hq] at ha
        obtain ⟨mem, up⟩ := ih hq ha
        exact ⟨mem, .head ⟨k.decl, decl_mem h hk, rfl, parent⟩ up⟩

theorem lineage_sorted (h : build p = .ok t) {n : Nat} {k : ClassLayout} (hk : k ∈ t.classes) :
    (lineage t n k).Pairwise fun x y => y.tag < x.tag := by
  induction n generalizing k with
  | zero => exact List.pairwise_singleton _ _
  | succ n ih =>
    unfold lineage
    cases parent : k.parent with
    | none => simp
    | some q =>
      obtain ⟨q, hq, rfl⟩ := exists_parent h hk parent
      simp only [Option.map_some, find_name h hq]
      refine List.pairwise_cons.mpr ⟨fun a ha => ?_, ih hq⟩
      obtain ⟨mem, up⟩ := lineage_mem h hq ha
      have := (parent_range h hk hq parent).1
      have := (heir_range h mem hq up).1
      omega

/-- A walk as long as the tag allows meets every ancestor. -/
theorem mem_lineage (h : build p = .ok t) {a : ClassLayout} (ha : a ∈ t.classes) {n : Nat}
    {k : ClassLayout} (hk : k ∈ t.classes) (enough : k.tag ≤ n)
    (up : Descends p.classes k.name a.name) : a ∈ lineage t n k := by
  obtain ⟨root, accepted, _, _⟩ := build_ok h
  induction n generalizing k with
  | zero =>
    rcases up.cases_head with same | ⟨e, ⟨c, hc, named, parent⟩, above⟩
    · cases eq_of_name h hk ha same
      exact List.mem_singleton_self _
    · have own : c = k.decl := Hierarchy.eq_of_name accepted.names hc (decl_mem h hk) named
      have named' : k.parent = some e := by rw [ClassLayout.parent, ← own, parent]
      obtain ⟨q, hq, rfl⟩ := exists_parent h hk named'
      have := (parent_range h hk hq named').1
      omega
  | succ n ih =>
    rcases up.cases_head with same | ⟨e, ⟨c, hc, named, parent⟩, above⟩
    · cases eq_of_name h hk ha same
      exact List.mem_cons_self ..
    · have own : c = k.decl := Hierarchy.eq_of_name accepted.names hc (decl_mem h hk) named
      have named' : k.parent = some e := by rw [ClassLayout.parent, ← own, parent]
      obtain ⟨q, hq, rfl⟩ := exists_parent h hk named'
      have := (parent_range h hk hq named').1
      refine List.mem_cons_of_mem _ ?_
      simp only [named', Option.map_some, find_name h hq]
      exact ih hq (by omega) above

theorem mem_ancestors (h : build p = .ok t) {k a : ClassLayout} (hk : k ∈ t.classes) :
    a ∈ ancestors t k ↔ a ∈ t.classes ∧ Descends p.classes k.name a.name := by
  refine ⟨lineage_mem h hk, fun ⟨ha, up⟩ => mem_lineage h ha hk ?_ up⟩
  exact Nat.le_of_lt (List.getElem?_eq_some_iff.mp (getElem?_tag h hk)).1

/-- An alternative that a tag may take: its class covers the tag, no class of another that does
has a greater tag, and it is the first on its class. -/
def Best (bs : List (ClassLayout × β)) (tag : Nat) (b : ClassLayout × β) : Prop :=
  b.1.covers tag = true ∧ (∀ c ∈ bs, c.1.covers tag = true → c.1.tag ≤ b.1.tag) ∧
    bs.find? (fun c => c.1.name == b.1.name) = some b

theorem Best.unique (h : build p = .ok t) {bs : List (ClassLayout × β)}
    (known : ∀ b ∈ bs, b.1 ∈ t.classes) {tag : Nat} {b c : ClassLayout × β} (hb : Best bs tag b)
    (hc : Best bs tag c) : b = c := by
  have mb := List.mem_of_find?_eq_some hb.2.2
  have mc := List.mem_of_find?_eq_some hc.2.2
  have tags : b.1.tag = c.1.tag := Nat.le_antisymm (hc.2.1 b mb hb.1) (hb.2.1 c mc hc.1)
  have same := eq_of_tag h (known b mb) (known c mc) tags
  have found := hb.2.2
  rw [same, hc.2.2] at found
  exact (Option.some.inj found).symm

theorem best_tested (h : build p = .ok t) {bs : List (ClassLayout × β)}
    (known : ∀ b ∈ bs, b.1 ∈ t.classes) {tag : Nat} {b : ClassLayout × β}
    (found : (testOrder bs).find? (fun b => b.1.covers tag) = some b) : Best bs tag b := by
  obtain ⟨covered, before, after, split, misses⟩ := List.find?_eq_some_iff_append.mp found
  have inside : ∀ c ∈ bs, c ∈ before ∨ c ∈ b :: after := by
    intro c hc
    rw [← List.mem_append, ← split]
    exact (testOrder_perm bs).symm.subset hc
  have sorted := testOrder_sorted bs
  rw [split] at sorted
  have sortedFrom := (List.pairwise_append.mp sorted).2.1
  have mb : b ∈ bs := (testOrder_perm bs).subset (by simp [split])
  refine ⟨covered, fun c hc hit => ?_, ?_⟩
  · rcases inside c hc with early | late
    · simpa [hit] using misses c early
    · rcases List.mem_cons.mp late with rfl | late
      · exact Nat.le_refl _
      · exact (List.pairwise_cons.mp sortedFrom).1 c late
  · have byTag : bs.filter (fun c => c.1.name == b.1.name) = bs.filter (·.1.tag == b.1.tag) := by
      refine List.filter_congr fun c hc => ?_
      rw [Bool.eq_iff_iff]
      simp only [beq_iff_eq]
      exact ⟨fun same => congrArg _ (eq_of_name h (known c hc) (known b mb) same),
        fun same => congrArg _ (eq_of_tag h (known c hc) (known b mb) same)⟩
    rw [← List.head?_filter, byTag, ← testOrder_filter, split, List.filter_append]
    have none : before.filter (·.1.tag == b.1.tag) = [] := by
      refine List.filter_eq_nil_iff.mpr fun c hc same => ?_
      have mc : c ∈ bs := (testOrder_perm bs).subset (by simp [split, hc])
      have := eq_of_tag h (known c mc) (known b mb) (eq_of_beq same)
      simpa [this, covered] using misses c hc
    simp [none]

theorem best_nearest (h : build p = .ok t) {bs : List (ClassLayout × β)} {k : ClassLayout}
    (hk : k ∈ t.classes) (known : ∀ b ∈ bs, b.1 ∈ t.classes) {b : ClassLayout × β}
    (found : nearest (ancestors t k) bs = some b) : Best bs k.tag b := by
  obtain ⟨before, a, after, split, here, misses⟩ := List.findSome?_eq_some_iff.mp found
  have mb : b ∈ bs := List.mem_of_find?_eq_some here
  have mem : ∀ c, c ∈ ancestors t k ↔ c ∈ before ∨ c = a ∨ c ∈ after := by
    intro c
    rw [split]
    simp
  obtain ⟨ha, up⟩ := (mem_ancestors h hk).mp ((mem a).mpr (.inr (.inl rfl)))
  have own : b.1 = a :=
    eq_of_name h (known b mb) ha (eq_of_beq (List.find?_some here :))
  have sorted : (ancestors t k).Pairwise fun x y => y.tag < x.tag := lineage_sorted h hk
  rw [split] at sorted
  have sortedFrom := (List.pairwise_append.mp sorted).2.1
  refine ⟨(covers_iff h (known b mb) hk).mpr (own ▸ up), fun c hc hit => ?_, own ▸ here⟩
  have above := (covers_iff h (known c hc) hk).mp hit
  rcases (mem c.1).mp ((mem_ancestors h hk).mpr ⟨known c hc, above⟩) with early | same | late
  · have := List.find?_eq_none.mp (misses c.1 early) c hc
    simp at this
  · exact Nat.le_of_eq (by rw [same, own])
  · rw [own]
    exact Nat.le_of_lt ((List.pairwise_cons.mp sortedFrom).1 c.1 late)

/-- The nearest alternative is the first in the order of the tests that covers the tag. -/
theorem nearest_eq (h : build p = .ok t) {bs : List (ClassLayout × β)} {k : ClassLayout}
    (hk : k ∈ t.classes) (known : ∀ b ∈ bs, b.1 ∈ t.classes) :
    nearest (ancestors t k) bs = (testOrder bs).find? (fun b => b.1.covers k.tag) := by
  cases tested : (testOrder bs).find? (fun b => b.1.covers k.tag) with
  | none =>
    cases found : nearest (ancestors t k) bs with
    | none => rfl
    | some b =>
      have best := best_nearest h hk known found
      have mb := (testOrder_perm bs).symm.subset (List.mem_of_find?_eq_some best.2.2)
      exact absurd best.1 (List.find?_eq_none.mp tested b mb)
  | some b =>
    have best := best_tested h known tested
    cases found : nearest (ancestors t k) bs with
    | none =>
      have mb := List.mem_of_find?_eq_some best.2.2
      have up := (covers_iff h (known b mb) hk).mp best.1
      have := List.findSome?_eq_none_iff.mp found b.1
        ((mem_ancestors h hk).mpr ⟨known b mb, up⟩)
      simp [best.2.2] at this
    | some c => rw [(best_nearest h hk known found).unique h known best]

theorem Setting.Built.tagged {S : Setting} (built : S.Built) {tag : Nat} {k : ClassLayout}
    (found : S.classes.atTag tag = .ok k) : k ∈ S.classes.classes ∧ k.tag = tag := by
  obtain ⟨p, h⟩ := built.program
  unfold ClassTable.atTag at found
  split at found
  · rename_i k' there
    cases found
    have mem := List.mem_of_getElem? there
    refine ⟨mem, ?_⟩
    obtain ⟨inside, here⟩ := List.getElem?_eq_some_iff.mp there
    obtain ⟨inside', again⟩ := List.getElem?_eq_some_iff.mp (getElem?_tag h mem)
    have nodup : S.classes.classes.Nodup := List.Nodup.of_map _ (names_nodup h)
    exact (List.Nodup.getElem_inj_iff nodup).mp (again.trans here.symm)
  · contradiction

end Meaning

end ClassBackend
