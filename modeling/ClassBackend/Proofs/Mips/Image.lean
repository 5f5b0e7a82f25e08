import ClassBackend.Proofs.Mips.DataSymbols

/-! The data section as an assembler lays it out in memory, padding included. A word is laid out at
a word boundary only, and a literal only where its closing quote ends the line. -/
namespace ClassBackend.Mips

def Line.whole : Line → Bool
  | .ascii _ | .byte _ => false
  | .data | .align | .globl _ | .label _ | .word _ => true

namespace Data

/-- What stands in memory, and the labels of places in it. -/
inductive Item where
  | label (symbol : String)
  | word (value : Datum)
  | byte (value : UInt8)
  deriving DecidableEq, Repr

def Item.size : Item → Nat
  | .label _ => 0
  | .word _ => 4
  | .byte _ => 1

def extent (items : List Item) : Nat := (items.map Item.size).sum

/-- Reads a literal behind its opening quote. A backslash stands before a quote or a backslash and
takes its meaning away, and no other escape is known. Answers the bytes, and what stands behind the
closing quote. -/
def unquote : List Char → Option (List UInt8 × List Char)
  | '\\' :: c :: cs =>
    if c = '"' ∨ c = '\\' then (unquote cs).map fun r => (UInt8.ofNat c.toNat :: r.1, r.2)
    else none
  | c :: cs =>
    if c = '"' then some ([], cs)
    else if 32 ≤ c.toNat ∧ c.toNat ≤ 126 then
      (unquote cs).map fun r => (UInt8.ofNat c.toNat :: r.1, r.2)
    else none
  | [] => none

/-- The bytes of a literal, up to the quote that its line ends with. -/
def literalBytes (literal : String) : Option (List UInt8) :=
  match unquote (literal.toList ++ ['"']) with
  | some (bytes, []) => some bytes
  | _ => none

def place (pos : Nat) : Line → Option (List Item)
  | .data | .globl _ => some []
  | .align => some (List.replicate ((4 - pos % 4) % 4) (.byte 0))
  | .label s => some [.label s]
  | .word v => if pos % 4 = 0 then some [.word v] else none
  | .ascii literal => (literalBytes literal).map (·.map .byte)
  | .byte b => some [.byte b]

def laidOut : Nat → List Line → Option (List Item)
  | _, [] => some []
  | pos, l :: ls =>
    (place pos l).bind fun items => (laidOut (pos + extent items) ls).map (items ++ ·)

section Positions

variable {pos : Nat} {l : Line} {ls rest : List Line} {items : List Item}

@[simp] theorem extent_append (a b : List Item) : extent (a ++ b) = extent a + extent b := by
  simp [extent]

@[simp] theorem extent_bytes (bs : List UInt8) : extent (bs.map .byte) = bs.length := by
  induction bs with
  | nil => rfl
  | cons b bs ih =>
    simp only [extent, List.map_cons, List.sum_cons, List.length_cons] at ih ⊢
    rw [ih]
    exact Nat.add_comm 1 _

theorem laidOut_cons : laidOut pos (l :: ls) = some items ↔ ∃ first more,
    place pos l = some first ∧ laidOut (pos + extent first) ls = some more ∧
      first ++ more = items := by
  simp [laidOut, Option.bind_eq_some_iff]

theorem laidOut_word {v : Datum} (aligned : pos % 4 = 0) :
    laidOut pos (.word v :: ls) = (laidOut (pos + 4) ls).map (.word v :: ·) := by
  simp [laidOut, place, aligned, extent, Item.size]

theorem laidOut_label {s : String} :
    laidOut pos (.label s :: ls) = (laidOut pos ls).map (.label s :: ·) := by
  simp [laidOut, place, extent, Item.size]

def headerItems (label : String) (k : ClassLayout) (words : Int) : List Item := [
  .word (.num eyeCatcher),
  .label label,
  .word (.num k.tag),
  .word (.num words),
  .word (.sym (Linkage.dispatchTable k.name))]

theorem header_laidOut (aligned : pos % 4 = 0) (label : String) (k : ClassLayout) (words : Int) :
    laidOut pos (header label k words ++ ls) =
      (laidOut (pos + 16) ls).map (headerItems label k words ++ ·) := by
  unfold header
  simp only [List.cons_append, List.nil_append]
  rw [laidOut_word aligned, laidOut_label, laidOut_word (by omega), laidOut_word (by omega),
    laidOut_word (by omega)]
  simp only [Option.map_map]
  rfl

theorem laidOut_append : laidOut pos (ls ++ rest) = some items ↔ ∃ first more,
    laidOut pos ls = some first ∧ laidOut (pos + extent first) rest = some more ∧
      first ++ more = items := by
  induction ls generalizing pos items with
  | nil => simp [laidOut, extent]
  | cons l ls ih =>
    rw [List.cons_append, laidOut_cons]
    constructor
    · rintro ⟨one, tail, here, there, rfl⟩
      obtain ⟨first, more, behind, last, rfl⟩ := ih.mp there
      refine ⟨one ++ first, more, laidOut_cons.mpr ⟨one, first, here, behind, rfl⟩, ?_, ?_⟩
      · rwa [extent_append, ← Nat.add_assoc]
      · exact List.append_assoc ..
    · rintro ⟨front, more, before, last, rfl⟩
      obtain ⟨one, first, here, behind, rfl⟩ := laidOut_cons.mp before
      rw [extent_append, ← Nat.add_assoc] at last
      exact ⟨one, first ++ more, here, ih.mpr ⟨first, more, behind, last, rfl⟩,
        (List.append_assoc ..).symm⟩

theorem literal_closed {literal : String} (h : laidOut pos ls = some items)
    (inside : .ascii literal ∈ ls) :
    ∃ bytes, unquote (literal.toList ++ ['"']) = some (bytes, []) := by
  obtain ⟨front, back, rfl⟩ := List.append_of_mem inside
  obtain ⟨_, _, _, more, _⟩ := laidOut_append.mp h
  obtain ⟨_, _, here, _, _⟩ := laidOut_cons.mp more
  rw [place, Option.map_eq_some_iff] at here
  obtain ⟨bytes, read, _⟩ := here
  unfold literalBytes at read
  split at read
  · rename_i closed
    exact ⟨_, closed⟩
  · cases read

end Positions

section Boundaries

variable {ls rest : List Line}

def Settles (ls : List Line) : Prop :=
  ∀ pos, pos % 4 = 0 → ∃ items, laidOut pos ls = some items ∧ extent items % 4 = 0

theorem settles_nil : Settles [] := fun _ _ => ⟨[], rfl, rfl⟩

theorem Settles.append (h : Settles ls) (h' : Settles rest) : Settles (ls ++ rest) := by
  intro pos aligned
  obtain ⟨first, here, whole⟩ := h pos aligned
  obtain ⟨more, there, whole'⟩ := h' (pos + extent first) (by omega)
  refine ⟨first ++ more, laidOut_append.mpr ⟨first, more, here, there, rfl⟩, ?_⟩
  rw [extent_append]
  omega

theorem settles_whole (h : ∀ l ∈ ls, l.whole = true) : Settles ls := by
  induction ls with
  | nil => exact settles_nil
  | cons l ls ih =>
    have one : Settles [l] := by
      intro pos aligned
      have line := h l List.mem_cons_self
      cases l with
      | ascii | byte => cases line
      | data | globl => exact ⟨[], by simp [laidOut, place], rfl⟩
      | align => exact ⟨[], by simp [laidOut, place, aligned], rfl⟩
      | label s => exact ⟨[.label s], by simp [laidOut, place], rfl⟩
      | word v => exact ⟨[.word v], by simp [laidOut, place, aligned], by simp [extent, Item.size]⟩
    exact one.append (ih fun l hl => h l (List.mem_cons_of_mem _ hl))

end Boundaries

section Memory

variable {pos n i : Nat} {l : Line} {ls : List Line} {items rest : List Item} {w : Datum}
variable {s : String}

def Item.word? : Item → Option Datum
  | .word v => some v
  | .label _ | .byte _ => none

def wordIn : List Item → Nat → Option Datum
  | [], _ => none
  | item :: items, n =>
    if item.size ≤ n then wordIn items (n - item.size)
    else if n = 0 then item.word?
    else none

def placeOf (items : List Item) (s : String) : Nat :=
  extent (items.takeWhile (· ≠ .label s))

theorem wordIn_append : wordIn (items ++ rest) (extent items + n) = wordIn rest n := by
  induction items with
  | nil => simp [extent]
  | cons item items ih =>
    have size : extent (item :: items) + n = item.size + (extent items + n) := Nat.add_assoc ..
    rw [List.cons_append, size, wordIn, if_pos (Nat.le_add_right ..), Nat.add_sub_cancel_left]
    exact ih

theorem wordIn_lt (h : wordIn items n = some w) : n < extent items := by
  induction items generalizing n with
  | nil => cases h
  | cons item items ih =>
    have size : extent (item :: items) = item.size + extent items := rfl
    rw [wordIn] at h
    split at h
    · have := ih h
      omega
    · omega

theorem leading_laidOut (h : laidOut pos ls = some items) (at_ : (leading ls)[i]? = some w) :
    wordIn items (4 * i) = some w := by
  induction ls generalizing pos items i with
  | nil => cases at_
  | cons l ls ih =>
    cases l with
    | data | align | globl | label | ascii | byte => cases at_
    | word v =>
      obtain ⟨first, more, placed, there, rfl⟩ := laidOut_cons.mp h
      have one : first = [.word v] := by
        rw [place] at placed
        split at placed
        · exact (Option.some.inj placed).symm
        · cases placed
      subst one
      cases i with
      | zero => exact at_
      | succ i =>
        rw [Nat.mul_succ, Nat.add_comm]
        exact wordIn_append.trans (ih there at_)

theorem place_other (h : place pos l = some items) (other : l ≠ .label s) :
    ∀ item ∈ items, item ≠ .label s := by
  cases l with
  | label q =>
    cases h
    intro item mem
    obtain rfl := List.mem_singleton.mp mem
    exact fun same => other (congrArg Line.label (Item.label.inj same))
  | data | globl =>
    cases h
    exact fun _ mem => absurd mem List.not_mem_nil
  | align =>
    cases h
    intro item mem
    rw [List.eq_of_mem_replicate mem]
    nofun
  | word v =>
    rw [place] at h
    split at h
    · cases h
      simp
    · cases h
  | ascii literal =>
    obtain ⟨bytes, _, rfl⟩ := Option.map_eq_some_iff.mp h
    simp
  | byte b =>
    cases h
    simp

/-- The words behind a label in the lines are those behind its place in memory. -/
theorem wordsAt_laidOut (h : laidOut pos ls = some items) (at_ : (wordsAt s ls)[i]? = some w) :
    wordIn items (placeOf items s + 4 * i) = some w := by
  induction ls generalizing pos items with
  | nil => cases at_
  | cons l ls ih =>
    obtain ⟨first, more, placed, there, rfl⟩ := laidOut_cons.mp h
    by_cases here : l = .label s
    · subst here
      cases placed
      rw [wordsAt, if_pos rfl] at at_
      have start : placeOf ([.label s] ++ more) s = 0 := by simp [placeOf, extent]
      rw [start, Nat.zero_add]
      simpa [wordIn, Item.size] using leading_laidOut there at_
    · have behind : (wordsAt s ls)[i]? = some w := by
        cases l with
        | label q => rwa [wordsAt, if_neg fun same => here (congrArg Line.label same)] at at_
        | data | align | globl | word | ascii | byte => exact at_
      have skips : placeOf (first ++ more) s = extent first + placeOf more s := by
        rw [placeOf, List.takeWhile_append_of_pos, extent_append]
        · rfl
        · simpa using place_other placed here
      rw [skips, Nat.add_assoc, wordIn_append]
      exact ih there behind

/-- The items in memory from an address on, and zeros around them. -/
def inMemory (base : BitVec 32) (symbol : String → BitVec 32) (items : List Item) :
    Machine.Memory 32 :=
  fun a => some ((wordIn items (a - base).toNat).elim 0 (·.value symbol))

variable {base : BitVec 32} {symbol : String → BitVec 32} {data : List Line}

/-- Symbols of the data section are where it is laid out. -/
def Places (base : BitVec 32) (symbol : String → BitVec 32) (data : List Line)
    (items : List Item) : Prop :=
  ∀ s ∈ labels data, symbol s = base + BitVec.ofNat 32 (placeOf items s)

theorem Places.distance (h : Places base symbol data items)
    (at_ : (wordsAt s data)[i]? = some w) :
    (symbol s + BitVec.ofNat 32 (4 * i) - base).toNat = (placeOf items s + 4 * i) % 4294967296 := by
  have defined : s ∈ labels data := by
    by_contra absent
    have none := wordsAt_skip absent []
    rw [List.append_nil] at none
    rw [none] at at_
    cases at_
  rw [h s defined, BitVec.add_assoc, BitVec.add_comm, BitVec.add_sub_cancel, ← BitVec.ofNat_add,
    BitVec.toNat_ofNat]

theorem Places.apart (h : Places base symbol data items) (laid : laidOut 0 data = some items)
    {a : BitVec 32} (beyond : extent items ≤ (a - base).toNat)
    (at_ : (wordsAt s data)[i]? = some w) : symbol s + BitVec.ofNat 32 (4 * i) ≠ a := by
  rintro rfl
  have inside := wordIn_lt (wordsAt_laidOut laid at_)
  rw [h.distance at_] at beyond
  exact absurd (Nat.mod_le (placeOf items s + 4 * i) 4294967296) (by omega)

end Memory

end Data

namespace Assembly

def dataBase : BitVec 32 := 0x10010000

/-- The addresses of symbols: in the data section as it is laid out, or in the text section. -/
def address (a : Assembly) (items : List Data.Item) (s : String) : BitVec 32 :=
  if s ∈ Data.labels a.data then dataBase + BitVec.ofNat 32 (Data.placeOf items s)
  else 0x00400000 + BitVec.ofNat 32 (4 * a.code.idxOf (.label (.symbol s)))

end Assembly

end ClassBackend.Mips
