import Mathlib.Logic.Function.Basic
import ClassBackend.Proofs.Layout.SubtypeTest
import ClassBackend.Proofs.Lowering.Model

/-! Objects in the memory of a machine, for words of any width. An object is a row of words: its
tag, its size, its dispatch table and its cells. Objects stay where they are. -/
namespace ClassBackend.Machine

open Meaning Lowering

variable {w : Nat}

abbrev Memory (w : Nat) := BitVec w → Option (BitVec w)

structure Geometry (w : Nat) where
  stride : Nat
  symbol : String → BitVec w
  /-- Words that are in use and never part of an object. -/
  reserved : BitVec w → Prop

def Geometry.word (g : Geometry w) (base : BitVec w) (j : Nat) : BitVec w :=
  base + BitVec.ofNat w (g.stride * j)

@[simp] theorem Geometry.word_zero (g : Geometry w) (base : BitVec w) : g.word base 0 = base := by
  simp [Geometry.word]

def headerWords : Nat := 3

structure View (w : Nat) where
  store : Store
  place : Nat → BitVec w

namespace View

variable (V : View w)

def Rep : Val → BitVec w → Prop
  | .void, x => x = 0
  | .obj r, x => r < V.store.heap.length ∧ x = V.place r

def CellRep : Cell → BitVec w → Prop
  | .unset, _ => True
  | .ref v, x => V.Rep v x
  | .word n, x => x.toInt = n
  | .text _, _ => True

/-- The object has a word of that number. -/
def Inside (r j : Nat) : Prop :=
  ∃ o, V.store.heap[r]? = some o ∧ j < headerWords + o.cells.length

/-- No object is gone and none has moved. -/
def Extends (V' : View w) : Prop :=
  V.store.heap.length ≤ V'.store.heap.length ∧
    ∀ r < V.store.heap.length, V'.place r = V.place r

def log (e : Event) : View w := { V with store := V.store.log e }

def setCell (r i : Nat) (d : Cell) : View w := { V with store := V.store.setCell r i d }

def add (o : Obj) (q : BitVec w) : View w where
  store := V.store.add o
  place := Function.update V.place V.store.heap.length q

variable {V}

theorem inside_header {r j : Nat} {o : Obj} (found : V.store.heap[r]? = some o)
    (header : j < headerWords) : V.Inside r j :=
  ⟨o, found, Nat.lt_of_lt_of_le header (Nat.le_add_right ..)⟩

theorem inside_cell {r i : Nat} {o : Obj} {d : Cell} (found : V.store.heap[r]? = some o)
    (hd : o.cells[i]? = some d) : V.Inside r (headerWords + i) :=
  ⟨o, found, Nat.add_lt_add_left (List.getElem?_eq_some_iff.mp hd).1 _⟩

theorem Extends.refl : V.Extends V := ⟨Nat.le_refl _, fun _ _ => rfl⟩

theorem Extends.trans {V' V'' : View w} (h : V.Extends V') (k : V'.Extends V'') :
    V.Extends V'' :=
  ⟨Nat.le_trans h.1 k.1, fun r hr => (k.2 r (Nat.lt_of_lt_of_le hr h.1)).trans (h.2 r hr)⟩

theorem Rep.mono {V' : View w} (h : V.Extends V') {v : Val} {x : BitVec w} (hx : V.Rep v x) :
    V'.Rep v x := by
  cases v with
  | void => exact hx
  | obj r => exact ⟨Nat.lt_of_lt_of_le hx.1 h.1, hx.2.trans (h.2 r hx.1).symm⟩

theorem CellRep.mono {V' : View w} (h : V.Extends V') {d : Cell} {x : BitVec w}
    (hx : V.CellRep d x) : V'.CellRep d x := by
  cases d with
  | unset => trivial
  | ref v => exact Rep.mono h hx
  | word n => exact hx
  | text s => trivial

theorem getElem?_setCell (V : View w) (r i : Nat) (d : Cell) (s : Nat) :
    (V.setCell r i d).store.heap[s]? = if r = s
      then V.store.heap[s]?.map fun o => { o with cells := o.cells.set i d }
      else V.store.heap[s]? := by
  simp only [setCell, Store.setCell, List.getElem?_modify]
  by_cases same : r = s <;> simp [same]

theorem setCell_object {r i s : Nat} {d : Cell} {o : Obj}
    (h : (V.setCell r i d).store.heap[s]? = some o) :
    ∃ o', V.store.heap[s]? = some o' ∧ o.tag = o'.tag ∧
      o.cells = if r = s then o'.cells.set i d else o'.cells := by
  rw [getElem?_setCell] at h
  by_cases same : r = s
  · simp only [same, if_true, Option.map_eq_some_iff] at h ⊢
    obtain ⟨o', found, rfl⟩ := h
    exact ⟨o', found, rfl, rfl⟩
  · simp only [same, if_false] at h ⊢
    exact ⟨o, h, rfl, rfl⟩

theorem setCell_cell {r i s j : Nat} {d e : Cell} {u : Obj}
    (h : (V.setCell r i d).store.heap[s]? = some u) (he : u.cells[j]? = some e) :
    (r = s ∧ i = j ∧ e = d) ∨
      ((s ≠ r ∨ j ≠ i) ∧ ∃ o, V.store.heap[s]? = some o ∧ o.cells[j]? = some e) := by
  obtain ⟨o, found, _, cells⟩ := setCell_object h
  rw [cells] at he
  by_cases object : r = s
  · rw [if_pos object, List.getElem?_set] at he
    by_cases cell : i = j
    · rw [if_pos cell] at he
      split at he
      · exact .inl ⟨object, cell, (Option.some.inj he).symm⟩
      · contradiction
    · rw [if_neg cell] at he
      exact .inr ⟨.inr (Ne.symm cell), o, found, he⟩
  · rw [if_neg object] at he
    exact .inr ⟨.inl (Ne.symm object), o, found, he⟩

theorem inside_setCell {r i s j : Nat} {d : Cell} (h : (V.setCell r i d).Inside s j) :
    V.Inside s j := by
  obtain ⟨o, found, inside⟩ := h
  obtain ⟨o', found', _, cells⟩ := setCell_object found
  have length : o.cells.length = o'.cells.length := by
    rw [cells]
    split
    · exact List.length_set
    · rfl
  exact ⟨o', found', length ▸ inside⟩

theorem extends_setCell (V : View w) (r i : Nat) (d : Cell) : V.Extends (V.setCell r i d) := by
  simp [Extends, setCell, Store.setCell]

theorem extends_log (V : View w) (e : Event) : V.Extends (V.log e) := Extends.refl

theorem extends_add (V : View w) (o : Obj) (q : BitVec w) : V.Extends (V.add o q) := by
  refine ⟨by simp [add], fun r hr => ?_⟩
  exact Function.update_of_ne (Nat.ne_of_lt hr) _ _

theorem add_place {o : Obj} {q : BitVec w} {r : Nat} (hr : r < V.store.heap.length) :
    (V.add o q).place r = V.place r :=
  (V.extends_add o q).2 r hr

@[simp] theorem add_place_new (V : View w) (o : Obj) (q : BitVec w) :
    (V.add o q).place V.store.heap.length = q :=
  Function.update_self _ _ _

theorem add_object {o : Obj} {q : BitVec w} {r : Nat} {o' : Obj}
    (h : (V.add o q).store.heap[r]? = some o') :
    (r < V.store.heap.length ∧ V.store.heap[r]? = some o') ∨
      (r = V.store.heap.length ∧ o' = o) := by
  simp only [add, Store.add_heap] at h
  have inside : r < V.store.heap.length + 1 := by
    simpa using (List.getElem?_eq_some_iff.mp h).1
  by_cases old : r < V.store.heap.length
  · rw [List.getElem?_append_left old] at h
    exact .inl ⟨old, h⟩
  · have same : r = V.store.heap.length := by omega
    subst same
    simp only [List.getElem?_concat_length, Option.some.injEq] at h
    exact .inr ⟨rfl, h.symm⟩

theorem rep_new (V : View w) (o : Obj) (q : BitVec w) :
    (V.add o q).Rep (.obj V.store.heap.length) q :=
  ⟨by simp [add], (V.add_place_new o q).symm⟩

theorem inside_add {o : Obj} {q : BitVec w} {r j : Nat} (h : (V.add o q).Inside r j) :
    (r < V.store.heap.length ∧ V.Inside r j) ∨
      (r = V.store.heap.length ∧ j < headerWords + o.cells.length) := by
  obtain ⟨u, hu, hj⟩ := h
  rcases add_object hu with ⟨hr, hu⟩ | ⟨hr, rfl⟩
  · exact .inl ⟨hr, u, hu, hj⟩
  · exact .inr ⟨hr, hj⟩

end View

/-- The memory holds the store: every object at its place, and none in the way of another. -/
structure Holds (g : Geometry w) (S : Setting) (pool : Pool) (V : View w) (mem : Memory w) :
    Prop where
  self : S.self < V.store.heap.length
  literal : ∀ c l, Denotes pool c l →
    S.literal l < V.store.heap.length ∧ V.place (S.literal l) = g.symbol c.label
  truth : ∀ b, ∃ o, V.store.heap[S.literal (.bool b)]? = some o ∧
    o.cells[0]? = some (.word (if b then 1 else 0))
  nonzero : ∀ r < V.store.heap.length, V.place r ≠ 0
  tag : ∀ r o, V.store.heap[r]? = some o → ∃ x, mem (V.place r) = some x ∧ x.toInt = o.tag
  table : ∀ r o, V.store.heap[r]? = some o → ∀ k ∈ S.classes.classes, k.tag = o.tag →
    mem (g.word (V.place r) 2) = some (g.symbol (Linkage.dispatchTable k.name))
  cell : ∀ r o i d, V.store.heap[r]? = some o → o.cells[i]? = some d →
    ∃ x, mem (g.word (V.place r) (headerWords + i)) = some x ∧ V.CellRep d x
  mapped : ∀ r j, V.Inside r j → (mem (g.word (V.place r) j)).isSome
  clear : ∀ r j, V.Inside r j → ¬ g.reserved (g.word (V.place r) j)
  apart : ∀ r j r' j', V.Inside r j → V.Inside r' j' →
    g.word (V.place r) j = g.word (V.place r') j' → r = r' ∧ j = j'
  kept : ∀ a, g.reserved a → (mem a).isSome

section Words

variable {g : Geometry w} {S : Setting} {V : View w} {mem mem' : Memory w} {q : BitVec w} {o : Obj}

structure Stored (g : Geometry w) (S : Setting) (V : View w) (mem : Memory w) (q : BitVec w)
    (o : Obj) : Prop where
  tag : ∃ x, mem q = some x ∧ x.toInt = o.tag
  table : ∀ k ∈ S.classes.classes, k.tag = o.tag →
    mem (g.word q 2) = some (g.symbol (Linkage.dispatchTable k.name))
  cell : ∀ i d, o.cells[i]? = some d →
    ∃ x, mem (g.word q (headerWords + i)) = some x ∧ V.CellRep d x

theorem Stored.carry {V' : View w} (h : Stored g S V mem q o) (grown : V.Extends V')
    (same : ∀ j < headerWords + o.cells.length, mem' (g.word q j) = mem (g.word q j)) :
    Stored g S V' mem' q o := by
  have header {j : Nat} (hj : j < headerWords) : mem' (g.word q j) = mem (g.word q j) :=
    same j (Nat.lt_of_lt_of_le hj (Nat.le_add_right ..))
  constructor
  case tag =>
    have first := header (j := 0) (by decide)
    rw [Geometry.word_zero] at first
    rw [first]
    exact h.tag
  case table =>
    rw [header (by decide)]
    exact h.table
  case cell =>
    intro i d hd
    obtain ⟨x, hx, rep⟩ := h.cell i d hd
    refine ⟨x, ?_, rep.mono grown⟩
    rw [same _ (Nat.add_lt_add_left (List.getElem?_eq_some_iff.mp hd).1 _)]
    exact hx

/-- Words in memory that are not in use yet, and that no two numbers name. -/
structure Vacant (g : Geometry w) (mem : Memory w) (q : BitVec w) (size : Nat) : Prop where
  nonzero : q ≠ 0
  fresh : ∀ j < size, mem (g.word q j) = none
  distinct : ∀ i < size, ∀ j < size, g.word q i = g.word q j → i = j

theorem Vacant.unused {a : BitVec w} {size j : Nat} (h : Vacant g mem q size) (hj : j < size)
    (used : (mem a).isSome) : a ≠ g.word q j := by
  rintro rfl
  rw [h.fresh j hj] at used
  cases used

theorem update_isSome {a b x : BitVec w} (used : (mem a).isSome) :
    (Function.update mem b (some x) a).isSome := by
  by_cases same : a = b
  · rw [same, Function.update_self]
    rfl
  · rw [Function.update_of_ne same]
    exact used

end Words

namespace Holds

variable {g : Geometry w} {S : Setting} {pool : Pool} {V : View w} {mem mem' : Memory w}

theorem log (h : Holds g S pool V mem) (e : Event) : Holds g S pool (V.log e) mem :=
  { h with }

theorem rep_inj (h : Holds g S pool V mem) {v v' : Val} {x : BitVec w} (hv : V.Rep v x)
    (hv' : V.Rep v' x) : v = v' := by
  have inside : ∀ r < V.store.heap.length, V.Inside r 0 := fun r hr =>
    View.inside_header (List.getElem?_eq_getElem hr) (by decide)
  cases v with
  | void =>
    cases v' with
    | void => rfl
    | obj r => exact absurd (hv'.2.symm.trans hv) (h.nonzero r hv'.1)
  | obj r =>
    cases v' with
    | void => exact absurd (hv.2.symm.trans hv') (h.nonzero r hv.1)
    | obj r' =>
      have same := (h.apart r 0 r' 0 (inside r hv.1) (inside r' hv'.1)
        (by simpa using hv.2.symm.trans hv'.2)).1
      rw [same]

theorem rep_eq_iff (h : Holds g S pool V mem) {v v' : Val} {x x' : BitVec w} (hv : V.Rep v x)
    (hv' : V.Rep v' x') : x = x' ↔ v = v' := by
  constructor
  · rintro rfl
    exact h.rep_inj hv hv'
  · rintro rfl
    cases v with
    | void => exact hv.trans hv'.symm
    | obj r => exact hv.2.trans hv'.2.symm

theorem stored (h : Holds g S pool V mem) {r : Nat} {o : Obj} (found : V.store.heap[r]? = some o) :
    Stored g S V mem (V.place r) o :=
  ⟨h.tag r o found, h.table r o found, fun i d => h.cell r o i d found⟩

theorem other (h : Holds g S pool V mem) (same : ∀ a, ¬ g.reserved a → mem' a = mem a)
    (kept : ∀ a, g.reserved a → (mem' a).isSome) : Holds g S pool V mem' := by
  have words : ∀ r j, V.Inside r j → mem' (g.word (V.place r) j) = mem (g.word (V.place r) j) :=
    fun r j hj => same _ (h.clear r j hj)
  have stored {r : Nat} {o : Obj} (found : V.store.heap[r]? = some o) :
      Stored g S V mem' (V.place r) o :=
    (h.stored found).carry .refl fun j hj => words r j ⟨o, found, hj⟩
  refine { h with
    tag := fun r o found => (stored found).tag
    table := fun r o found => (stored found).table
    cell := fun r o i d found => (stored found).cell i d
    mapped := fun r j hj => ?_
    kept }
  rw [words r j hj]
  exact h.mapped r j hj

section SetCell

variable {r i : Nat} {o : Obj} {d d' : Cell} {x : BitVec w}

theorem update_word (h : Holds g S pool V mem) {j : Nat} (target : V.Inside r j) {s n : Nat}
    (there : V.Inside s n) (differ : s ≠ r ∨ n ≠ j) :
    Function.update mem (g.word (V.place r) j) (some x) (g.word (V.place s) n) =
      mem (g.word (V.place s) n) := by
  refine Function.update_of_ne (fun same => ?_) _ _
  obtain ⟨rfl, rfl⟩ := h.apart s n r j there target same
  simp at differ

theorem setCell_word (found : V.store.heap[r]? = some o) (hd : o.cells[i]? = some d)
    (pointer : d.isPointer) {s n : Nat} {u : Obj} {m : Int} (hu : V.store.heap[s]? = some u)
    (word : u.cells[n]? = some (.word m)) :
    ∃ u', (V.setCell r i d').store.heap[s]? = some u' ∧ u'.cells[n]? = some (.word m) := by
  rw [View.getElem?_setCell, hu]
  by_cases same : r = s
  · subst same
    cases found.symm.trans hu
    have differ : i ≠ n := by
      rintro rfl
      cases hd.symm.trans word
      simp [Cell.isPointer] at pointer
    refine ⟨_, by simp only [if_true, Option.map_some]; rfl, ?_⟩
    rw [List.getElem?_set_ne differ]
    exact word
  · exact ⟨u, by simp [same], word⟩

theorem setCell_stored (h : Holds g S pool V mem) (target : V.Inside r (headerWords + i))
    (rep : V.CellRep d' x) {s : Nat} {u : Obj} (hu : (V.setCell r i d').store.heap[s]? = some u) :
    Stored g S (V.setCell r i d')
      (Function.update mem (g.word (V.place r) (headerWords + i)) (some x)) (V.place s) u := by
  obtain ⟨u', hu', tag, _⟩ := View.setCell_object hu
  have header {j : Nat} (hj : j < headerWords) :
      Function.update mem (g.word (V.place r) (headerWords + i)) (some x) (g.word (V.place s) j) =
        mem (g.word (V.place s) j) :=
    h.update_word target (View.inside_header hu' hj) (.inr (by omega))
  constructor
  case tag =>
    have first := header (j := 0) (by decide)
    rw [Geometry.word_zero] at first
    rw [first, tag]
    exact h.tag s u' hu'
  case table =>
    intro k hk same
    rw [header (by decide)]
    exact h.table s u' hu' k hk (same.trans tag)
  case cell =>
    intro j e he
    have grown := V.extends_setCell r i d'
    rcases View.setCell_cell hu he with ⟨rfl, rfl, rfl⟩ | ⟨differ, u'', hu'', old⟩
    · exact ⟨x, Function.update_self _ _ _, rep.mono grown⟩
    · obtain ⟨y, hy, cell⟩ := h.cell s u'' j e hu'' old
      refine ⟨y, ?_, cell.mono grown⟩
      rw [h.update_word target (View.inside_cell hu'' old) (by omega)]
      exact hy

/-- A cell that does not hold an unboxed word is written. -/
theorem setCell (h : Holds g S pool V mem) (found : V.store.heap[r]? = some o)
    (hd : o.cells[i]? = some d) (pointer : d.isPointer) (rep : V.CellRep d' x) :
    Holds g S pool (V.setCell r i d')
      (Function.update mem (g.word (V.place r) (headerWords + i)) (some x)) := by
  have stored {s : Nat} {u : Obj} := h.setCell_stored (s := s) (u := u)
    (View.inside_cell found hd) rep
  have length : (V.setCell r i d').store.heap.length = V.store.heap.length := by
    simp [View.setCell, Store.setCell]
  constructor
  case self =>
    rw [length]
    exact h.self
  case literal =>
    rw [length]
    exact h.literal
  case truth =>
    intro b
    obtain ⟨u, hu, word⟩ := h.truth b
    exact setCell_word found hd pointer hu word
  case nonzero =>
    rw [length]
    exact h.nonzero
  case tag => exact fun s u hu => (stored hu).tag
  case table => exact fun s u hu => (stored hu).table
  case cell => exact fun s u j e hu => (stored hu).cell j e
  case mapped => exact fun s j hj => update_isSome (h.mapped s j (View.inside_setCell hj))
  case clear => exact fun s j hj => h.clear s j (View.inside_setCell hj)
  case apart =>
    exact fun s j s' j' hj hj' =>
      h.apart s j s' j' (View.inside_setCell hj) (View.inside_setCell hj')
  case kept => exact fun a ha => update_isSome (h.kept a ha)

end SetCell

section Add

variable {o : Obj} {q : BitVec w}

theorem add_apart (h : Holds g S pool V mem)
    (vacant : Vacant g mem q (headerWords + o.cells.length)) {r j r' j' : Nat}
    (hj : (V.add o q).Inside r j) (hj' : (V.add o q).Inside r' j')
    (same : g.word ((V.add o q).place r) j = g.word ((V.add o q).place r') j') :
    r = r' ∧ j = j' := by
  rcases View.inside_add hj, View.inside_add hj' with
    ⟨⟨hr, hi⟩ | ⟨rfl, hi⟩, ⟨hr', hi'⟩ | ⟨rfl, hi'⟩⟩
  · rw [View.add_place hr, View.add_place hr'] at same
    exact h.apart r j r' j' hi hi' same
  · rw [View.add_place hr, View.add_place_new] at same
    exact absurd same (vacant.unused hi' (h.mapped r j hi))
  · rw [View.add_place_new, View.add_place hr'] at same
    exact absurd same.symm (vacant.unused hi (h.mapped r' j' hi'))
  · rw [View.add_place_new] at same
    exact ⟨rfl, vacant.distinct j hi j' hi' same⟩

theorem add_stored (h : Holds g S pool V mem) (old : ∀ a, (mem a).isSome → mem' a = mem a)
    (new : Stored g S (V.add o q) mem' q o) {r : Nat} {u : Obj}
    (hu : (V.add o q).store.heap[r]? = some u) :
    Stored g S (V.add o q) mem' ((V.add o q).place r) u := by
  rcases View.add_object hu with ⟨hr, hu⟩ | ⟨rfl, rfl⟩
  · rw [View.add_place hr]
    exact (h.stored hu).carry (V.extends_add o q) fun j hj =>
      old _ (h.mapped r j ⟨u, hu, hj⟩)
  · rw [View.add_place_new]
    exact new

/-- A new object takes words that were not in use. -/
theorem add (h : Holds g S pool V mem) (vacant : Vacant g mem q (headerWords + o.cells.length))
    (old : ∀ a, (mem a).isSome → mem' a = mem a)
    (mapped : ∀ j < headerWords + o.cells.length, (mem' (g.word q j)).isSome)
    (new : Stored g S (V.add o q) mem' q o) : Holds g S pool (V.add o q) mem' := by
  have grown := V.extends_add o q
  have stored {r : Nat} {u : Obj} := h.add_stored (r := r) (u := u) old new
  constructor
  case self => exact Nat.lt_of_lt_of_le h.self grown.1
  case literal =>
    intro c l denotes
    obtain ⟨hl, there⟩ := h.literal c l denotes
    exact ⟨Nat.lt_of_lt_of_le hl grown.1, (View.add_place hl).trans there⟩
  case truth =>
    intro b
    obtain ⟨u, hu, word⟩ := h.truth b
    refine ⟨u, ?_, word⟩
    simp only [View.add, Store.add_heap]
    rw [List.getElem?_append_left (List.getElem?_eq_some_iff.mp hu).1]
    exact hu
  case nonzero =>
    intro r hr
    rcases View.inside_add (View.inside_header (List.getElem?_eq_getElem hr)
      (show 0 < headerWords by decide)) with ⟨hr, _⟩ | ⟨rfl, _⟩
    · rw [View.add_place hr]
      exact h.nonzero r hr
    · rw [View.add_place_new]
      exact vacant.nonzero
  case tag => exact fun r u hu => (stored hu).tag
  case table => exact fun r u hu => (stored hu).table
  case cell => exact fun r u i d hu => (stored hu).cell i d
  case mapped =>
    intro r j hj
    rcases View.inside_add hj with ⟨hr, hi⟩ | ⟨rfl, hi⟩
    · rw [View.add_place hr, old _ (h.mapped r j hi)]
      exact h.mapped r j hi
    · rw [View.add_place_new]
      exact mapped j hi
  case clear =>
    intro r j hj
    rcases View.inside_add hj with ⟨hr, hi⟩ | ⟨rfl, hi⟩
    · rw [View.add_place hr]
      exact h.clear r j hi
    · rw [View.add_place_new]
      exact fun reserved => vacant.unused hi (h.kept _ reserved) rfl
  case apart => exact fun r j r' j' hj hj' same => h.add_apart vacant hj hj' same
  case kept =>
    intro a ha
    rw [old a (h.kept a ha)]
    exact h.kept a ha

/-- A new object of a class, with nothing in its cells yet. -/
theorem blank {p : Program} (built : ClassTable.build p = .ok S.classes) {k : ClassLayout}
    (known : k ∈ S.classes.classes) (h : Holds g S pool V mem)
    (vacant : Vacant g mem q (headerWords + k.fields.length))
    (old : ∀ a, (mem a).isSome → mem' a = mem a)
    (mapped : ∀ j < headerWords + k.fields.length, (mem' (g.word q j)).isSome)
    (tag : ∃ x, mem' q = some x ∧ x.toInt = k.tag)
    (table : mem' (g.word q 2) = some (g.symbol (Linkage.dispatchTable k.name))) :
    Holds g S pool (V.add ⟨k.tag, List.replicate k.fields.length .unset⟩ q) mem' := by
  refine h.add ?_ old ?_ ⟨tag, fun k' known' same => ?_, fun i d hd => ?_⟩
  · rw [List.length_replicate]
    exact vacant
  · rw [List.length_replicate]
    exact mapped
  · cases ClassTable.eq_of_tag built known' known same
    exact table
  · obtain ⟨inside, rfl⟩ := List.getElem?_eq_some_iff.mp hd
    rw [List.length_replicate] at inside
    obtain ⟨x, hx⟩ := Option.isSome_iff_exists.mp
      (mapped (headerWords + i) (Nat.add_lt_add_left inside _))
    rw [List.getElem_replicate]
    exact ⟨x, hx, trivial⟩

end Add

end Holds

end ClassBackend.Machine
