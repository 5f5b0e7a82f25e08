import Mathlib.Algebra.GroupWithZero.Nat
import ClassBackend.Proofs.Machine.Heap

/-! Memory given by a list of words, and objects in it that are checked one word after another. -/
namespace ClassBackend.Machine

open Meaning Lowering

variable {w : Nat}

theorem ok_get {ε α : Type} {x : Except ε α} (h : x.toOption.isSome = true) :
    x = .ok (x.toOption.get h) := by
  cases x with
  | error e => cases h
  | ok a => rfl

def Memory.ofList (words : List (BitVec w × BitVec w)) : Memory w := fun a => words.lookup a

/-- The words of the first memory, and where it has none those of the second. -/
def Memory.or (m m' : Memory w) : Memory w := fun a => (m a).or (m' a)

def Memory.zeros (floor : BitVec w) (n : Nat) : Memory w :=
  fun a => if (a - floor).toNat < n then some 0 else none

def Geometry.row (g : Geometry w) (base : BitVec w) (words : List (BitVec w)) :
    List (BitVec w × BitVec w) :=
  words.zipIdx.map fun p => (g.word base p.2, p.1)

section

variable {g : Geometry w} {q : BitVec w} {j : Nat}

theorem Geometry.word_sub (few : g.stride * j < 2 ^ w) :
    (g.word q j - q).toNat = g.stride * j := by
  have offset : g.word q j - q = BitVec.ofNat w (g.stride * j) := by
    rw [Geometry.word, BitVec.add_comm, BitVec.add_sub_cancel]
  rw [offset, BitVec.toNat_ofNat, Nat.mod_eq_of_lt few]

theorem Geometry.eq_word {a : BitVec w} (h : (a - q).toNat = g.stride * j) : a = g.word q j := by
  rw [Geometry.word, ← h, BitVec.ofNat_toNat, BitVec.setWidth_eq, BitVec.add_comm,
    BitVec.sub_add_cancel]

end

theorem forall_of_all {α : Type} {xs : List α} {P : α → Prop} [DecidablePred P]
    (h : (xs.all fun x => P x) = true) : ∀ x ∈ xs, P x :=
  fun x hx => of_decide_eq_true (List.all_eq_true.mp h x hx)

theorem Memory.mem_of_ofList {words : List (BitVec w × BitVec w)} {a : BitVec w}
    (h : (Memory.ofList words a).isSome = true) : a ∈ words.map Prod.fst := by
  induction words with
  | nil => cases h
  | cons p words ih =>
    by_cases same : a = p.1
    · exact List.mem_cons.mpr (.inl same)
    · have other : (a == p.1) = false := by simpa using same
      rw [Memory.ofList, List.lookup_cons, other] at h
      exact List.mem_cons_of_mem _ (ih h)

theorem Memory.ofList_le {words : List (BitVec w × BitVec w)} {mem : Memory w}
    (holds : ∀ p ∈ words, mem p.1 = some p.2) {a x : BitVec w}
    (h : Memory.ofList words a = some x) : mem a = some x := by
  induction words with
  | nil => cases h
  | cons p words ih =>
    rw [Memory.ofList, List.lookup_cons] at h
    by_cases same : a = p.1
    · rw [same, beq_self_eq_true] at h
      cases h
      exact same ▸ holds p List.mem_cons_self
    · have other : (a == p.1) = false := by simpa using same
      rw [other] at h
      exact ih (fun q hq => holds q (List.mem_cons_of_mem _ hq)) h

section

variable {m m' : Memory w} {a : BitVec w}

theorem Memory.or_left (h : (m a).isSome = true) : (m.or m' a).isSome = true := by
  rw [Memory.or, Option.isSome_or, h, Bool.true_or]

theorem Memory.or_right (h : (m' a).isSome = true) : (m.or m' a).isSome = true := by
  rw [Memory.or, Option.isSome_or, h, Bool.or_true]

theorem Memory.zeros_isSome {floor : BitVec w} {n : Nat} (h : (a - floor).toNat < n) :
    (Memory.zeros floor n a).isSome = true := by
  rw [Memory.zeros, if_pos h]
  rfl

end

namespace View

variable (V : View w)

instance (v : Val) (x : BitVec w) : Decidable (V.Rep v x) :=
  match v with
  | .void => inferInstanceAs (Decidable (x = 0))
  | .obj r => inferInstanceAs (Decidable (r < V.store.heap.length ∧ x = V.place r))

instance (d : Cell) (x : BitVec w) : Decidable (V.CellRep d x) :=
  match d with
  | .unset => .isTrue trivial
  | .ref v => inferInstanceAs (Decidable (V.Rep v x))
  | .word n => inferInstanceAs (Decidable (x.toInt = n))
  | .text _ => .isTrue trivial

def words : List (Nat × Nat) :=
  V.store.heap.zipIdx.flatMap fun p =>
    (List.range (headerWords + p.1.cells.length)).map fun j => (p.2, j)

variable {V}

theorem mem_words {r j : Nat} : (r, j) ∈ V.words ↔ V.Inside r j := by
  unfold words Inside
  constructor
  · intro h
    obtain ⟨p, hp, mem⟩ := List.mem_flatMap.mp h
    obtain ⟨j', inside, same⟩ := List.mem_map.mp mem
    cases same
    exact ⟨p.1, List.mem_zipIdx_iff_getElem?.mp hp, List.mem_range.mp inside⟩
  · rintro ⟨o, found, inside⟩
    refine List.mem_flatMap.mpr ⟨(o, r), List.mem_zipIdx_iff_getElem?.mpr found, ?_⟩
    exact List.mem_map.mpr ⟨j, List.mem_range.mpr inside, rfl⟩

end View

/-- What has to be checked of an object at a place. -/
structure Shown (g : Geometry w) (t : ClassTable) (V : View w) (mem : Memory w) (o : Obj)
    (q : BitVec w) : Prop where
  nonzero : q ≠ 0
  tag : (mem q).map BitVec.toInt = some (o.tag : Int)
  table : ∀ k ∈ t.classes, k.tag = o.tag →
    mem (g.word q 2) = some (g.symbol (Linkage.dispatchTable k.name))
  cells : ∀ p ∈ o.cells.zipIdx, (mem (g.word q (headerWords + p.2))).any (V.CellRep p.1)

instance {g : Geometry w} {t : ClassTable} {V : View w} {mem : Memory w} {o : Obj} {q : BitVec w} :
    Decidable (Shown g t V mem o q) :=
  decidable_of_iff (q ≠ 0 ∧ (mem q).map BitVec.toInt = some (o.tag : Int) ∧
      (∀ k ∈ t.classes, k.tag = o.tag →
        mem (g.word q 2) = some (g.symbol (Linkage.dispatchTable k.name))) ∧
      ∀ p ∈ o.cells.zipIdx, (mem (g.word q (headerWords + p.2))).any (V.CellRep p.1))
    ⟨fun h => ⟨h.1, h.2.1, h.2.2.1, h.2.2.2⟩, fun h => ⟨h.1, h.2, h.3, h.4⟩⟩

/-- The pooled object of a literal is where its label is. -/
def Pooled (g : Geometry w) (literal : Literal → Nat) (V : View w) (c : Const) (l : Literal) :
    Prop :=
  literal l < V.store.heap.length ∧ V.place (literal l) = g.symbol c.label

instance {g : Geometry w} {literal : Literal → Nat} {V : View w} {c : Const} {l : Literal} :
    Decidable (Pooled g literal V c l) :=
  inferInstanceAs (Decidable (_ ∧ _))

variable {g : Geometry w} {S : Setting} {pool : Pool} {V : View w} {mem : Memory w}

theorem pooled_of_lists {literal : Literal → Nat}
    (bools : ∀ b, Pooled g literal V (.bool b) (.bool b))
    (ints : ∀ p ∈ pool.ints.zipIdx, Pooled g literal V (.int p.2) (.int p.1))
    (strings : ∀ p ∈ pool.strings.zipIdx, Pooled g literal V (.str p.2) (.str p.1)) {c : Const}
    {l : Literal} (denotes : Denotes pool c l) : Pooled g literal V c l := by
  cases c with
  | int i =>
    cases l with
    | int v => exact ints (v, i) (List.mem_zipIdx_iff_getElem?.mpr denotes)
    | str | bool => exact denotes.elim
  | str i =>
    cases l with
    | str s => exact strings (s, i) (List.mem_zipIdx_iff_getElem?.mpr denotes)
    | int | bool => exact denotes.elim
  | bool a =>
    cases l with
    | bool b => exact denotes ▸ bools a
    | int | str => exact denotes.elim

/-- The memory holds the store, as the lists of its words and of its objects show. -/
theorem Holds.of_lists (self : S.self < V.store.heap.length)
    (literal : ∀ c l, Denotes pool c l → Pooled g S.literal V c l)
    (truth : ∀ b, (V.store.heap[S.literal (.bool b)]?).bind (fun o => o.cells[0]?) =
      some (.word (if b then 1 else 0)))
    (objects : ∀ p ∈ V.store.heap.zipIdx, Shown g S.classes V mem p.1 (V.place p.2))
    (mapped : ∀ p ∈ V.words, (mem (g.word (V.place p.1) p.2)).isSome = true)
    (clear : ∀ p ∈ V.words, ¬ g.reserved (g.word (V.place p.1) p.2))
    (apart : ∀ p ∈ V.words, ∀ q ∈ V.words,
      g.word (V.place p.1) p.2 = g.word (V.place q.1) q.2 → p = q)
    (kept : ∀ a, g.reserved a → (mem a).isSome) : Holds g S pool V mem := by
  have shown {r : Nat} {o : Obj} (found : V.store.heap[r]? = some o) :
      Shown g S.classes V mem o (V.place r) :=
    objects (o, r) (List.mem_zipIdx_iff_getElem?.mpr found)
  constructor
  · exact self
  · exact literal
  · intro b
    obtain ⟨o, found, word⟩ := Option.bind_eq_some_iff.mp (truth b)
    exact ⟨o, found, word⟩
  · exact fun r hr => (shown (List.getElem?_eq_getElem hr)).nonzero
  · intro r o found
    obtain ⟨x, there, tag⟩ := Option.map_eq_some_iff.mp (shown found).tag
    exact ⟨x, there, tag⟩
  · exact fun r o found => (shown found).table
  · intro r o i d found hd
    have rep := (shown found).cells (d, i) (List.mem_zipIdx_iff_getElem?.mpr hd)
    obtain ⟨x, there, rep⟩ := (Option.any_eq_true ..).mp rep
    exact ⟨x, there, of_decide_eq_true rep⟩
  · exact fun r j hj => mapped (r, j) (View.mem_words.mpr hj)
  · exact fun r j hj => clear (r, j) (View.mem_words.mpr hj)
  · intro r j r' j' hj hj' same
    have := apart (r, j) (View.mem_words.mpr hj) (r', j') (View.mem_words.mpr hj') same
    cases this
    exact ⟨rfl, rfl⟩
  · exact kept

end ClassBackend.Machine
