import Mathlib.Algebra.GroupWithZero.Nat
import Mathlib.Data.List.Nodup
import ClassBackend.Proofs.Lowering.Forms
import ClassBackend.Layout.ClassTable

/-! What literals find in the pool and what they leave there. -/
namespace ClassBackend

open Lowering

namespace Pool

variable {p q : Pool} {v : Int64} {s : String}

/-- The length of every text is pooled as well. -/
def Measured (p : Pool) : Prop := ∀ s ∈ p.strings, byteLength s ∈ p.ints

structure Distinct (p : Pool) : Prop where
  ints : p.ints.Nodup
  strings : p.strings.Nodup

/-- The pool takes something up, and that is the constant. -/
structure Interns (g : Pool → Const × Pool) : Prop where
  grows : ∀ p, PoolLe p (g p).2
  measured : ∀ p, p.Measured → (g p).2.Measured
  distinct : ∀ p, p.Distinct → (g p).2.Distinct
  denotes : ∀ p, ∃ l, Denotes (g p).2 (g p).1 l

theorem mem_ints {c : Const} (h : Denotes p c (.int v)) : v ∈ p.ints := by
  cases c with
  | int i => exact List.mem_of_getElem? h
  | str | bool => cases h

theorem mem_strings {c : Const} (h : Denotes p c (.str s)) : s ∈ p.strings := by
  cases c with
  | str i => exact List.mem_of_getElem? h
  | int | bool => cases h

theorem Measured.int (h : p.Measured) (v : Int64) : (p.int v).2.Measured := by
  intro s hs
  rw [int_strings] at hs
  exact (int_pooled v p).1.1.subset (h s hs)

theorem Measured.string (h : p.Measured) (s : String) : (p.string s).2.Measured := by
  have first := h.int (byteLength s)
  rcases p.string_cases s with ⟨_, _, same⟩ | ⟨_, _, ints, strings⟩
  · rw [same]
    exact first
  · intro r hr
    rw [ints]
    rw [strings] at hr
    rcases List.mem_append.mp hr with old | new
    · exact first r ((p.int_strings _).symm ▸ old)
    · cases List.mem_singleton.mp new
      exact mem_ints (p := (p.int (byteLength s)).2) (int_pooled _ p).2

theorem Distinct.int (h : p.Distinct) (v : Int64) : (p.int v).2.Distinct := by
  rcases p.int_cases v with ⟨_, _, same⟩ | ⟨absent, _, ints, strings⟩
  · rw [same]
    exact h
  · refine ⟨?_, strings ▸ h.strings⟩
    simpa [ints] using h.ints.concat absent

theorem Distinct.string (h : p.Distinct) (s : String) : (p.string s).2.Distinct := by
  have first := h.int (byteLength s)
  rcases p.string_cases s with ⟨_, _, same⟩ | ⟨absent, _, ints, strings⟩
  · rw [same]
    exact first
  · refine ⟨ints ▸ first.ints, ?_⟩
    simpa [strings] using h.strings.concat absent

theorem interns_int (v : Int64) : Interns fun p => p.int v where
  grows p := (int_pooled v p).1
  measured _ h := h.int v
  distinct _ h := h.int v
  denotes p := ⟨_, (int_pooled v p).2⟩

theorem interns_string (s : String) : Interns fun p => p.string s where
  grows p := (string_pooled s p).1
  measured _ h := h.string s
  distinct _ h := h.string s
  denotes p := ⟨_, (string_pooled s p).2⟩

theorem int_idle (h : v ∈ p.ints) : (p.int v).2 = p := by
  rcases p.int_cases v with ⟨_, _, same⟩ | ⟨absent, _⟩
  · rw [same]
  · exact absurd h absent

theorem string_idle (measured : p.Measured) (h : s ∈ p.strings) : (p.string s).2 = p := by
  rcases p.string_cases s with ⟨_, _, same⟩ | ⟨absent, _⟩
  · rw [same, int_idle (measured s h)]
  · exact absurd h absent

theorem int_denotes (h : v ∈ p.ints) : Denotes p (p.int v).1 (.int v) := by
  have found := (int_pooled v p).2
  rwa [int_idle h] at found

theorem string_denotes (measured : p.Measured) (h : s ∈ p.strings) :
    Denotes p (p.string s).1 (.str s) := by
  have found := (string_pooled s p).2
  rwa [string_idle measured h] at found

theorem denotes_int (h : v ∈ p.ints) : ∃ l, Denotes p (p.int v).1 l := ⟨_, int_denotes h⟩

theorem denotes_string (measured : p.Measured) (h : s ∈ p.strings) :
    ∃ l, Denotes p (p.string s).1 l := ⟨_, string_denotes measured h⟩

theorem denotes_idxOf (h : v ∈ p.ints) : Denotes p (.int (p.ints.idxOf v)) (.int v) :=
  List.getElem?_eq_some_iff.mpr ⟨List.idxOf_lt_length_iff.mpr h, List.getElem_idxOf _⟩

theorem byteLength_toInt (h : s.utf8ByteSize < 2 ^ 63) :
    (byteLength s).toInt = s.utf8ByteSize := Int64.toInt_ofNat_of_lt h

theorem intEntries_get (p : Pool) (i : Nat) :
    p.intEntries[i]? = p.ints[i]?.map fun v => (.int i, v) := by
  simp only [Tables.intEntries, List.getElem?_map, List.getElem?_zipIdx, Option.map_map,
    Nat.zero_add]
  rfl

theorem stringEntries_get (p : Pool) (i : Nat) :
    p.stringEntries[i]? =
      p.strings[i]?.map fun s => (.str i, s, .int (p.ints.idxOf (byteLength s))) := by
  simp only [stringEntries, List.getElem?_map, List.getElem?_zipIdx, Option.map_map, Nat.zero_add]
  rfl

theorem textEntry_ok {i : Nat} {e : Const × String × Const} : p.textEntry s i = .ok e ↔
    byteLength s ∈ p.ints ∧ (.str i, s, .int (p.ints.idxOf (byteLength s))) = e := by
  rw [Tables.textEntry, p.inStep.ints, List.idxOf_eq_getD_idxOf?, ← List.isSome_idxOf?]
  cases p.ints.idxOf? (byteLength s) <;> simp

/-- The texts can be listed if and only if the pool knows the lengths of all of them. -/
theorem stringEntries_ok {es : List (Const × String × Const)} :
    p.toTables.stringEntries = .ok es ↔ p.Measured ∧ es = p.stringEntries := by
  simp only [Tables.stringEntries, except_mapM_ok, textEntry_ok, List.forall₂_and_left]
  refine and_congr ?_ ?_
  · conv_rhs => rw [Measured, ← List.zipIdx_map_fst 0 p.strings, List.forall_mem_map]
  · rw [← List.forall₂_map_left_iff, List.forall₂_eq_eq_eq, eq_comm]
    rfl

theorem intEntries_consts (p : Pool) :
    p.intEntries.map (·.1) = (List.range p.ints.length).map Const.int := by
  rw [List.range_eq_range', ← List.zipIdx_map_snd, Tables.intEntries, List.map_map, List.map_map]
  rfl

theorem stringEntries_consts (p : Pool) :
    p.stringEntries.map (·.1) = (List.range p.strings.length).map Const.str := by
  rw [List.range_eq_range', ← List.zipIdx_map_snd, stringEntries, List.map_map, List.map_map]
  rfl

/-- The constants of a pool and the two Bools that always exist. -/
def consts (p : Pool) : List Const :=
  (List.range p.ints.length).map .int ++ (List.range p.strings.length).map .str ++
    [.bool false, .bool true]

theorem mem_consts {c : Const} {l : Meaning.Literal} (h : Denotes p c l) : c ∈ p.consts := by
  cases c with
  | bool b => cases b <;> simp [consts]
  | int i =>
    cases l with
    | int => simp [consts, (List.getElem?_eq_some_iff.mp h).1]
    | str | bool => cases h
  | str i =>
    cases l with
    | str => simp [consts, (List.getElem?_eq_some_iff.mp h).1]
    | int | bool => cases h

theorem consts_nodup (p : Pool) : p.consts.Nodup := by
  have ints : ((List.range p.ints.length).map Const.int).Nodup :=
    List.nodup_range.map fun _ _ => Const.int.inj
  have texts : ((List.range p.strings.length).map Const.str).Nodup :=
    List.nodup_range.map fun _ _ => Const.str.inj
  refine (ints.append texts (by simp [List.Disjoint])).append (by decide) ?_
  intro c hc hb
  cases c with
  | bool => simp at hc
  | int | str => simp at hb

section Names

def named (ks : List ClassLayout) (p : Pool) : Pool :=
  ks.foldl (fun p k => (p.string k.name).2) p

theorem named_grows (ks : List ClassLayout) (p : Pool) : PoolLe p (named ks p) := by
  induction ks generalizing p with
  | nil => exact .refl p
  | cons k ks ih => exact (string_pooled k.name p).1.trans (ih _)

theorem Measured.named (h : p.Measured) (ks : List ClassLayout) : (named ks p).Measured := by
  induction ks generalizing p with
  | nil => exact h
  | cons k ks ih => exact ih (h.string k.name)

theorem Distinct.named (h : p.Distinct) (ks : List ClassLayout) : (named ks p).Distinct := by
  induction ks generalizing p with
  | nil => exact h
  | cons k ks ih => exact ih (h.string k.name)

theorem mem_named {ks : List ClassLayout} {k : ClassLayout} (hk : k ∈ ks) (p : Pool) :
    k.name ∈ (named ks p).strings := by
  induction ks generalizing p with
  | nil => cases hk
  | cons j ks ih =>
    rcases List.mem_cons.mp hk with rfl | hk
    · exact (named_grows ks _).2.subset (mem_strings (string_pooled _ p).2)
    · exact ih hk _

end Names

end Pool

theorem Lowering.Denotes.unique {p : Pool} {c c' : Const} {l : Meaning.Literal}
    (distinct : p.Distinct) (h : Denotes p c l) (h' : Denotes p c' l) : c = c' := by
  have same {α : Type} {xs : List α} {i j : Nat} {x : α} (once : xs.Nodup) (hi : xs[i]? = some x)
      (hj : xs[j]? = some x) : i = j :=
    (List.getElem?_inj (List.getElem?_eq_some_iff.mp hi).1 once).mp (hi.trans hj.symm)
  match c, c', l, h, h' with
  | .int _, .int _, .int _, h, h' => rw [same distinct.ints h h']
  | .str _, .str _, .str _, h, h' => rw [same distinct.strings h h']
  | .bool _, .bool _, .bool _, h, h' => rw [show _ = _ from h, show _ = _ from h']

end ClassBackend
