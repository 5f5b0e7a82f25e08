import Mathlib.Data.Finset.Card
import ClassBackend.Proofs.Account.Pooling
import ClassBackend.Proofs.Account.Symbols

/-! The pool as a store: a row of requests, the constants that they are answered with, and the lists
that the pool has in the end. -/
namespace ClassBackend

open Lowering Meaning

inductive Request where
  | int (v : Int64)
  | string (s : String)
  | bool (b : Bool)
  /-- The default of a field or variable of that type. -/
  | initial (ty : String)
  deriving DecidableEq, Repr

namespace Request

/-- The literal that is asked for. There is none where the default is void. -/
def literal? : Request → Option Literal
  | .int v => some (.int v)
  | .string s => some (.str s)
  | .bool b => some (.bool b)
  | .initial ty =>
    if ty = Builtin.intName then some (.int 0)
    else if ty = Builtin.boolName then some (.bool false)
    else if ty = Builtin.stringName then some (.str "")
    else none

def answer (t : Pool.Tables) : Request → Option Const × Pool.Tables
  | .int v => (some (t.int v).1, (t.int v).2)
  | .string s => (some (t.string s).1, (t.string s).2)
  | .bool b => (some (.bool b), t)
  | .initial ty => t.initValue ty

end Request

namespace Pool

namespace Tables

def serve (t : Tables) : List Request → List (Option Const) × Tables
  | [] => ([], t)
  | r :: rs => ((r.answer t).1 :: ((r.answer t).2.serve rs).1, ((r.answer t).2.serve rs).2)

/-- The entries of the tables have this constant with this value. -/
def Lists (t : Tables) : Const → Literal → Prop
  | .int i, .int v => (.int i, v) ∈ t.intEntries
  | .str i, .str s => ∃ es length, t.stringEntries = .ok es ∧ (.str i, s, length) ∈ es
  | .bool a, .bool b => a = b
  | _, _ => False

variable {t : Tables}

theorem InStep.answer (h : t.InStep) (r : Request) : (r.answer t).2.InStep := by
  cases r with
  | int v => exact h.int v
  | string s => exact h.string s
  | bool b => exact h
  | initial ty => exact h.initValue ty

theorem InStep.serve (h : t.InStep) (rs : List Request) : (t.serve rs).2.InStep := by
  induction rs generalizing t with
  | nil => exact h
  | cons r rs ih => exact ih (h.answer r)

end Tables

def answer (p : Pool) (r : Request) : Option Const × Pool := p.ask r.answer fun _ h => h.answer r

def serve (p : Pool) (rs : List Request) : List (Option Const) × Pool :=
  p.ask (·.serve rs) fun _ h => h.serve rs

/-- The literal is among those that are asked for. -/
def Asked (rs : List Request) (l : Literal) : Prop := ∃ r ∈ rs, r.literal? = some l

/-- What the tables and their answers owe to the requests. -/
structure Serves (rs : List Request) (cs : List (Option Const)) (t : Tables) : Prop where
  /-- Each request has an answer, and a constant unless its value is void. -/
  answered : cs.map Option.isSome = rs.map fun r => r.literal?.isSome
  /-- The same constant, and the same label, for the same value and for no other. -/
  same : ∀ (i j : Nat) (r s : Request), rs[i]? = some r → rs[j]? = some s →
    (cs[i]? = cs[j]? ↔ r.literal? = s.literal?) ∧
      (cs[i]?.map (Option.map Const.label) = cs[j]?.map (Option.map Const.label) ↔
        r.literal? = s.literal?)
  inStep : t.InStep
  /-- A constant is listed with the value that it was asked for, and with no other. -/
  listed : ∀ (i : Nat) (r : Request) c, rs[i]? = some r → cs[i]? = some (some c) →
    ∀ l, t.Lists c l ↔ r.literal? = some l
  distinct : t.ints.Nodup ∧ t.strings.Nodup
  /-- No length is missing, and each text comes with its own, which is a pooled Int. -/
  measured : ∃ es, t.stringEntries = .ok es ∧ es.map (·.2.1) = t.strings ∧
    ∀ c s length, (c, s, length) ∈ es → (length, byteLength s) ∈ t.intEntries ∧
      (s.utf8ByteSize < 2 ^ 63 → (byteLength s).toInt = s.utf8ByteSize)
  /-- Nothing is pooled but what was asked for and the lengths of the texts. -/
  ints : ∀ v, v ∈ t.ints ↔ Asked rs (.int v) ∨ ∃ s, Asked rs (.str s) ∧ v = byteLength s
  strings : ∀ s, s ∈ t.strings ↔ Asked rs (.str s)
  count : t.count = t.ints.toFinset.card + t.strings.toFinset.card + 2

end Pool

theorem Const.label_inj : Function.Injective Const.label := by
  intro c d h
  rw [← c.numbered_text, ← d.numbered_text] at h
  obtain ⟨stems, numbers⟩ := ClassBackend.numbered_inj c.plain.2 d.plain.2 h
  exact Const.numbered_inj (Prod.ext stems numbers)

namespace Pool

variable {p : Pool} {r : Request} {rs : List Request} {c c' : Const} {l l' : Literal}

section Answers

theorem answer_eq (p : Pool) (r : Request) : p.answer r =
    match r.literal? with
    | some (.int v) => (some (p.int v).1, (p.int v).2)
    | some (.str s) => (some (p.string s).1, (p.string s).2)
    | some (.bool b) => (some (.bool b), p)
    | none => (none, p) := by
  cases r with
  | int | string | bool => rfl
  | initial ty =>
    refine (p.initValue_eq ty).trans ?_
    simp only [Request.literal?]
    split
    · rfl
    · split
      · rfl
      · split <;> rfl

/-- The constant, if there is one, stands for the literal that was asked for. -/
def Answers (p : Pool) (r : Request) (c : Option Const) : Prop :=
  match r.literal?, c with
  | some l, some c => Denotes p c l
  | none, none => True
  | _, _ => False

theorem Answers.mono {q : Pool} {c : Option Const} (h : Answers p r c) (grown : PoolLe p q) :
    Answers q r c := by
  unfold Answers at h ⊢
  split at h
  · exact h.mono grown
  · exact h
  · exact h.elim

theorem answer_answers (p : Pool) (r : Request) :
    PoolLe p (p.answer r).2 ∧ Answers (p.answer r).2 r (p.answer r).1 := by
  rw [answer_eq]
  unfold Answers
  match r.literal? with
  | some (.int v) => exact int_pooled v p
  | some (.str s) => exact string_pooled s p
  | some (.bool b) => exact ⟨.refl p, rfl⟩
  | none => exact ⟨.refl p, trivial⟩

theorem Tidy.answer (h : p.Tidy) (r : Request) : (p.answer r).2.Tidy := by
  rw [answer_eq]
  match r.literal? with
  | some (.int v) => exact ⟨h.measured.int v, h.distinct.int v⟩
  | some (.str s) => exact ⟨h.measured.string s, h.distinct.string s⟩
  | some (.bool b) => exact h
  | none => exact h

theorem mem_string_strings {s t : String} :
    t ∈ (p.string s).2.strings ↔ t ∈ p.strings ∨ t = s := by
  rcases p.string_cases s with ⟨i, found, same⟩ | ⟨_, _, _, strings⟩
  · rw [same, int_strings]
    exact ⟨.inl, fun h => h.elim id fun same => same ▸ List.mem_of_getElem? found⟩
  · simp [strings]

theorem mem_answer_ints {v : Int64} : v ∈ (p.answer r).2.ints ↔ v ∈ p.ints ∨
    r.literal? = some (.int v) ∨ ∃ s, r.literal? = some (.str s) ∧ v = byteLength s := by
  rw [answer_eq]
  match r.literal? with
  | some (.int w) => simp [mem_int_ints, eq_comm]
  | some (.str s) => simp [mem_string_ints]
  | some (.bool b) => simp
  | none => simp

theorem mem_answer_strings {s : String} :
    s ∈ (p.answer r).2.strings ↔ s ∈ p.strings ∨ r.literal? = some (.str s) := by
  rw [answer_eq]
  match r.literal? with
  | some (.int w) => simp [int_strings]
  | some (.str t) => simp [mem_string_strings, eq_comm]
  | some (.bool b) => simp
  | none => simp

end Answers

section Entries

theorem mem_intEntries {i : Nat} {v : Int64} :
    (.int i, v) ∈ p.intEntries ↔ p.ints[i]? = some v := by
  simp [Tables.intEntries, List.mk_mem_zipIdx_iff_getElem?]

theorem lists_iff (measured : p.Measured) : p.Lists c l ↔ Denotes p c l := by
  cases c with
  | int i =>
    cases l with
    | int v => exact mem_intEntries
    | str | bool => rfl
  | str i =>
    cases l with
    | str s =>
      simp [Tables.Lists, Denotes, stringEntries_ok, measured, stringEntries,
        List.mk_mem_zipIdx_iff_getElem?]
    | int | bool => rfl
  | bool a => cases l <;> rfl

theorem denotes_iff (h : Denotes p c l) : Denotes p c l' ↔ l = l' := by
  refine ⟨fun h' => ?_, fun same => same ▸ h⟩
  match c, l, l', h, h' with
  | .int _, .int _, .int _, h, h' => rw [Option.some.inj ((Eq.symm h).trans h')]
  | .str _, .str _, .str _, h, h' => rw [Option.some.inj ((Eq.symm h).trans h')]
  | .bool _, .bool _, .bool _, h, h' => rw [show _ = _ from (Eq.symm h).trans h']

theorem Answers.same {s : Request} {c d : Option Const} (distinct : p.Distinct)
    (hc : Answers p r c) (hd : Answers p s d) : c = d ↔ r.literal? = s.literal? := by
  unfold Answers at hc hd
  match hr : r.literal?, hs : s.literal?, c, d, hc, hd with
  | some l, some l', some c, some d, hc, hd =>
    simp only [Option.some.injEq]
    constructor
    · rintro rfl
      exact (denotes_iff hc).mp hd
    · rintro rfl
      exact Denotes.unique distinct hc hd
  | some l, none, some c, none, _, _ => simp
  | none, some l, none, some d, _, _ => simp
  | none, none, none, none, _, _ => simp

theorem Answers.isSome {c : Option Const} (h : Answers p r c) : c.isSome = r.literal?.isSome := by
  unfold Answers at h
  split at h <;> simp_all

theorem Measured.entry (h : p.Measured) {s : String} {length : Const}
    (entry : (c, s, length) ∈ p.stringEntries) : (length, byteLength s) ∈ p.intEntries := by
  obtain ⟨⟨t, i⟩, place, same⟩ := List.mem_map.mp entry
  cases same
  have text := List.mem_of_getElem? (List.mk_mem_zipIdx_iff_getElem?.mp place)
  exact mem_intEntries.mpr (denotes_idxOf (h _ text))

theorem stringEntries_texts (p : Pool) : p.stringEntries.map (·.2.1) = p.strings := by
  rw [stringEntries, List.map_map]
  exact List.zipIdx_map_fst 0 p.strings

end Entries

section Runs

theorem serve_cons (p : Pool) (r : Request) (rs : List Request) : p.serve (r :: rs) =
    ((p.answer r).1 :: ((p.answer r).2.serve rs).1, ((p.answer r).2.serve rs).2) := rfl

theorem Tables.serve_append (t : Tables) (rs rs' : List Request) : t.serve (rs ++ rs') =
    ((t.serve rs).1 ++ ((t.serve rs).2.serve rs').1, ((t.serve rs).2.serve rs').2) := by
  induction rs generalizing t with
  | nil => rfl
  | cons r rs ih => simp only [List.cons_append, Tables.serve, ih]

theorem serve_answers (p : Pool) (rs : List Request) :
    PoolLe p (p.serve rs).2 ∧ List.Forall₂ (Answers (p.serve rs).2) rs (p.serve rs).1 := by
  induction rs generalizing p with
  | nil => exact ⟨.refl p, .nil⟩
  | cons r rs ih =>
    obtain ⟨first, answer⟩ := answer_answers p r
    obtain ⟨rest, answers⟩ := ih (p.answer r).2
    exact ⟨first.trans rest, .cons (answer.mono rest) answers⟩

theorem Tidy.serve (h : p.Tidy) (rs : List Request) : (p.serve rs).2.Tidy := by
  induction rs generalizing p with
  | nil => exact h
  | cons r rs ih => exact ih (h.answer r)

theorem asked_cons : Asked (r :: rs) l ↔ r.literal? = some l ∨ Asked rs l := by
  simp [Asked]

theorem mem_serve_ints {v : Int64} : v ∈ (p.serve rs).2.ints ↔
    v ∈ p.ints ∨ Asked rs (.int v) ∨ ∃ s, Asked rs (.str s) ∧ v = byteLength s := by
  induction rs generalizing p with
  | nil =>
    simp only [Asked, List.not_mem_nil, false_and, exists_false, or_false]
    rfl
  | cons r rs ih =>
    rw [serve_cons, ih, mem_answer_ints]
    simp only [asked_cons, or_and_right, exists_or, or_assoc]
    exact or_congr_right (or_congr_right or_left_comm)

theorem mem_serve_strings {s : String} :
    s ∈ (p.serve rs).2.strings ↔ s ∈ p.strings ∨ Asked rs (.str s) := by
  induction rs generalizing p with
  | nil =>
    simp only [Asked, List.not_mem_nil, false_and, exists_false, or_false]
    rfl
  | cons r rs ih => rw [serve_cons, ih, mem_answer_strings, asked_cons, or_assoc]

theorem serve_serves (rs : List Request) :
    Serves rs (Pool.serve {} rs).1 (Pool.serve {} rs).2.toTables := by
  obtain ⟨_, answers⟩ := serve_answers {} rs
  have tidy := tidy_empty.serve rs
  have reply {i : Nat} {r : Request} (hr : rs[i]? = some r) :
      ∃ c, (Pool.serve {} rs).1[i]? = some c ∧ Answers (Pool.serve {} rs).2 r c := by
    obtain ⟨inside, rfl⟩ := List.getElem?_eq_some_iff.mp hr
    have inside' := answers.length_eq ▸ inside
    exact ⟨_, List.getElem?_eq_getElem inside', answers.get inside inside'⟩
  constructor
  case answered =>
    rw [← List.forall₂_eq_eq_eq, List.forall₂_map_left_iff, List.forall₂_map_right_iff]
    exact answers.flip.imp fun _ _ => Answers.isSome
  case same =>
    intro i j r s hr hs
    obtain ⟨c, hc, first⟩ := reply hr
    obtain ⟨d, hd, second⟩ := reply hs
    have labels : c.map Const.label = d.map Const.label ↔ c = d :=
      (Option.map_injective Const.label_inj).eq_iff
    simp only [hc, hd, Option.map_some, Option.some.injEq, labels, and_self]
    exact first.same tidy.distinct second
  case inStep => exact (Pool.serve {} rs).2.inStep
  case listed =>
    intro i r c hr hc l
    obtain ⟨c', hc', answer⟩ := reply hr
    cases Option.some.inj (hc.symm.trans hc')
    unfold Answers at answer
    rw [lists_iff tidy.measured]
    cases literal : r.literal? with
    | none =>
      rw [literal] at answer
      cases answer
    | some l' =>
      rw [literal] at answer
      rw [denotes_iff answer, Option.some.injEq]
  case distinct => exact ⟨tidy.distinct.ints, tidy.distinct.strings⟩
  case measured =>
    exact ⟨_, stringEntries_ok.mpr ⟨tidy.measured, rfl⟩, stringEntries_texts _,
      fun c s length entry => ⟨tidy.measured.entry entry, byteLength_toInt⟩⟩
  case ints => exact fun v => mem_serve_ints.trans (by simp)
  case strings => exact fun s => mem_serve_strings.trans (by simp)
  case count =>
    rw [Tables.count, List.toFinset_card_of_nodup tidy.distinct.ints,
      List.toFinset_card_of_nodup tidy.distinct.strings]

/-- The answers stay valid while the tables grow: more requests add answers, Ints and texts at the
end, and what was promised for all requests until then holds at every time. -/
theorem serve_stable (before after : List Request) :
    (Tables.serve {} before).1 <+: (Tables.serve {} (before ++ after)).1 ∧
    (Tables.serve {} before).2.ints <+: (Tables.serve {} (before ++ after)).2.ints ∧
    (Tables.serve {} before).2.strings <+: (Tables.serve {} (before ++ after)).2.strings ∧
    Serves (before ++ after) (Tables.serve {} (before ++ after)).1
      (Tables.serve {} (before ++ after)).2 := by
  have grown := (serve_answers (Pool.serve {} before).2 after).1
  refine ⟨?_, ?_, ?_, serve_serves (before ++ after)⟩
  · rw [Tables.serve_append]
    exact List.prefix_append ..
  · rw [Tables.serve_append]
    exact grown.1
  · rw [Tables.serve_append]
    exact grown.2

end Runs

end Pool

end ClassBackend
