import ClassBackend.Proofs.Text.Numeral

/-! Lines of code as rows of words. A word that has no separator in it is read off the line again,
and a number off the word. -/
namespace ClassBackend

/-- What stands between the words of a line, and between lines. -/
def separates (c : Char) : Bool := c ∈ ['\n', '\t', ' ', ',', '(', ')', '[', ']']

def wordsIn (cs : List Char) : List (List Char) :=
  (cs.splitOnP separates).filter fun w => !w.isEmpty

def wordsOf (s : String) : List String := (wordsIn s.toList).map String.ofList

/-- The text is one word. -/
def isWord (s : String) : Bool := !s.toList.isEmpty && s.toList.all fun c => !separates c

def opens (s : String) : Bool := s.toList.head?.any separates
def closes (s : String) : Bool := s.toList.getLast?.any separates

section Words

variable {x y s : String}

theorem wordsIn_cut {a b : List Char} {c : Char} (sep : separates c = true) :
    wordsIn (a ++ c :: b) = wordsIn a ++ wordsIn b := by
  rw [wordsIn, List.splitOnP_append_cons _ _ sep, List.filter_append]
  rfl

theorem wordsIn_nil : wordsIn [] = [] := rfl

theorem wordsOf_opened (h : opens s = true) : wordsOf (x ++ s) = wordsOf x ++ wordsOf s := by
  unfold opens at h
  rw [wordsOf, wordsOf, wordsOf, String.toList_append, ← List.map_append]
  cases chars : s.toList with
  | nil => rw [chars] at h; cases h
  | cons c b =>
    have sep : separates c = true := by simpa [chars] using h
    have inside := wordsIn_cut (a := []) (b := b) sep
    rw [wordsIn_cut sep, show c :: b = [] ++ c :: b from rfl, inside, wordsIn_nil]
    rfl

theorem wordsOf_closed (h : closes s = true) : wordsOf (s ++ y) = wordsOf s ++ wordsOf y := by
  unfold closes at h
  rw [wordsOf, wordsOf, wordsOf, String.toList_append, ← List.map_append]
  cases last : s.toList.getLast? with
  | none => rw [last] at h; cases h
  | some c =>
    rw [last, Option.any_some] at h
    obtain ⟨a, chars⟩ := List.getLast?_eq_some_iff.mp last
    rw [chars, List.append_assoc, List.singleton_append, wordsIn_cut h, wordsIn_cut h, wordsIn_nil,
      List.append_nil]

theorem closes_append (h : closes s = true) : closes (x ++ s) = true := by
  unfold closes at *
  have nonempty : s.toList ≠ [] := by
    intro none
    rw [none] at h
    cases h
  rwa [String.toList_append, List.getLast?_append_of_ne_nil _ nonempty]

theorem wordsOf_between (before : opens s = true) (behind : closes s = true) :
    wordsOf (x ++ s ++ y) = wordsOf x ++ wordsOf s ++ wordsOf y := by
  rw [wordsOf_closed (closes_append behind), wordsOf_opened before]

/-- The text ends one word and has these. -/
def leads (s : String) (ws : List String) : Bool := closes s && wordsOf s == ws

def parts (s : String) (ws : List String) : Bool := opens s && leads s ws

theorem words_behind {us ws : List String} (lead : leads s us = true) (hy : wordsOf y = ws) :
    wordsOf (s ++ y) = us ++ ws := by
  obtain ⟨closed, words⟩ := Bool.and_eq_true_iff.mp lead
  rw [wordsOf_closed closed, eq_of_beq words, hy]

theorem words_around {us ws ws' : List String} (part : parts s us = true) (hx : wordsOf x = ws)
    (hy : wordsOf y = ws') : wordsOf (x ++ s ++ y) = ws ++ us ++ ws' := by
  obtain ⟨opened, lead⟩ := Bool.and_eq_true_iff.mp part
  obtain ⟨closed, words⟩ := Bool.and_eq_true_iff.mp lead
  rw [wordsOf_between opened closed, eq_of_beq words, hx, hy]

theorem isWord_append (h : isWord x = true) (h' : isWord y = true) : isWord (x ++ y) = true := by
  simp only [isWord, Bool.and_eq_true, Bool.not_eq_true', List.isEmpty_eq_false_iff] at *
  rw [String.toList_append, List.all_append, h.2, h'.2]
  exact ⟨List.append_ne_nil_of_left_ne_nil h.1 _, rfl⟩

theorem wordsOf_word (h : isWord s = true) : wordsOf s = [s] := by
  simp only [isWord, Bool.and_eq_true, Bool.not_eq_true', List.all_eq_true] at h
  have whole : s.toList.splitOnP separates = [s.toList] := List.splitOnP_eq_singleton h.2
  rw [wordsOf, wordsIn, whole]
  simp [h.1]

theorem wordsOf_intercalate {ws : List String} (before : opens s = true)
    (behind : closes s = true) (none : wordsOf s = []) :
    wordsOf (s.intercalate ws) = ws.flatMap wordsOf := by
  induction ws with
  | nil => rfl
  | cons w ws ih =>
    cases ws with
    | nil => simp
    | cons v ws =>
      rw [String.intercalate_cons_cons, wordsOf_between before behind, none, List.append_nil, ih]
      rfl

end Words

/-! Texts with a mark in front, and texts with a number behind. -/

theorem while_split {α : Type} {p : α → Bool} {xs ys : List α} (h : ∀ x ∈ xs, p x = true)
    (h' : ∀ y, ys.head? = some y → p y = false) :
    (xs ++ ys).takeWhile p = xs ∧ (xs ++ ys).dropWhile p = ys := by
  rw [List.takeWhile_append_of_pos h, List.dropWhile_append_of_pos h]
  cases ys with
  | nil => simp
  | cons y ys => simp [h' y rfl]

/-- What stands behind a mark. -/
def after (mark s : String) : Option String :=
  if mark.toList <+: s.toList then some (String.ofList (s.toList.drop mark.toList.length))
  else none

theorem after_mark (mark s : String) : after mark (mark ++ s) = some s := by
  rw [after, String.toList_append, if_pos (List.prefix_append ..), List.drop_left,
    String.ofList_toList]

theorem after_none {mark s : String} {n : Nat} {c d : Char} (h : mark.toList[n]? = some c)
    (h' : s.toList[n]? = some d) (other : c ≠ d) : after mark s = none := by
  refine if_neg fun ⟨rest, whole⟩ => other ?_
  have inside : n < mark.toList.length := (List.getElem?_eq_some_iff.mp h).1
  rw [← whole, List.getElem?_append_left inside, h] at h'
  exact Option.some.inj h'

def readNat (s : String) : Option Nat :=
  if !s.toList.isEmpty && s.toList.all Char.isDigit then some (Nat.ofDigitChars 10 s.toList 0)
  else none

def readInt (s : String) : Option Int :=
  match s.toList with
  | '-' :: digits => (readNat (String.ofList digits)).map fun n : Nat => -(n : Int)
  | _ => (readNat s).map Int.ofNat

theorem numeral_digits (n : Nat) : (toString n).toList.all Char.isDigit = true :=
  List.all_eq_true.mpr fun _ hc => isDigit_of_mem_numeral hc

theorem readNat_numeral (n : Nat) : readNat (toString n) = some n := by
  rw [readNat, List.isEmpty_eq_false_iff.mpr (numeral_ne_nil n), numeral_digits, toList_numeral,
    Nat.ofDigitChars_ten_toDigits]
  rfl

/-- The number that a text ends in, and what it stands behind. -/
def readNumbered (s : String) : Option (String × Nat) :=
  (readNat (String.ofList (s.toList.reverse.takeWhile Char.isDigit).reverse)).map fun n =>
    (String.ofList (s.toList.reverse.dropWhile Char.isDigit).reverse, n)

theorem readNumbered_numbered {s : String} (plain : plainEnd s = true) (n : Nat) :
    readNumbered (s ++ toString n) = some (s, n) := by
  have digits : ∀ c ∈ (toString n).toList.reverse, c.isDigit = true := fun c hc =>
    isDigit_of_mem_numeral (List.mem_reverse.mp hc)
  have before : ∀ c, s.toList.reverse.head? = some c → c.isDigit = false := by
    intro c hc
    rw [List.head?_reverse] at hc
    simpa [plainEnd, hc] using plain
  obtain ⟨number, stem⟩ := while_split digits before
  rw [readNumbered, String.toList_append, List.reverse_append, number, stem, List.reverse_reverse,
    List.reverse_reverse, String.ofList_toList, String.ofList_toList, readNat_numeral]
  rfl

theorem readInt_numeral (i : Int) : readInt (toString i) = some i := by
  cases i with
  | ofNat n =>
    have text : toString (Int.ofNat n) = toString n := rfl
    have read : (readNat (toString n)).map Int.ofNat = some (Int.ofNat n) := by
      rw [readNat_numeral]
      rfl
    rw [text, readInt]
    split
    · rename_i digits minus
      have digit := isDigit_of_mem_numeral (n := n) (minus ▸ List.mem_cons_self)
      cases digit
    · exact read
  | negSucc n =>
    rw [readInt, toList_negative]
    show (readNat (String.ofList (toString (n + 1)).toList)).map _ = _
    rw [String.ofList_toList, readNat_numeral]
    rfl

theorem isDigit_solid {c : Char} (h : c.isDigit = true) : separates c = false := by
  cases sep : separates c with
  | false => rfl
  | true =>
    have each : ∀ d ∈ ['\n', '\t', ' ', ',', '(', ')', '[', ']'], d.isDigit = false := by simp
    rw [each c (of_decide_eq_true sep)] at h
    cases h

theorem isWord_numeral (n : Nat) : isWord (toString n) = true := by
  rw [isWord, List.isEmpty_eq_false_iff.mpr (numeral_ne_nil n), Bool.not_false, Bool.true_and]
  refine List.all_eq_true.mpr fun c hc => ?_
  rw [isDigit_solid (isDigit_of_mem_numeral hc)]
  rfl

theorem isWord_int (i : Int) : isWord (toString i) = true := by
  cases i with
  | ofNat n => exact isWord_numeral n
  | negSucc n =>
    have digits := isWord_numeral (n + 1)
    simp only [isWord, Bool.and_eq_true] at digits
    rw [isWord, toList_negative, List.all_cons, digits.2]
    rfl

def isName (s : String) : Bool := isWord s && (readInt s).isNone

section Names

variable {s : String}

theorem isWord_of_name (h : isName s = true) : isWord s = true := (Bool.and_eq_true_iff.mp h).1

theorem readInt_name (h : isName s = true) : readInt s = none :=
  Option.isNone_iff_eq_none.mp (Bool.and_eq_true_iff.mp h).2

theorem notMem_word (h : isWord s = true) {c : Char} (sep : separates c = true) : c ∉ s.toList := by
  intro inside
  have solid := List.all_eq_true.mp (Bool.and_eq_true_iff.mp h).2 c inside
  rw [sep] at solid
  cases solid

end Names

section Letters

variable {s : String} {c : Char}

theorem readNat_letter (inside : c ∈ s.toList) (other : c.isDigit = false) : readNat s = none := by
  refine if_neg fun h => ?_
  have digit := List.all_eq_true.mp (Bool.and_eq_true_iff.mp h).2 c inside
  rw [other] at digit
  cases digit

theorem readInt_letter (inside : c ∈ s.toList) (other : c.isDigit = false) (sign : c ≠ '-') :
    readInt s = none := by
  unfold readInt
  split
  · rename_i digits minus
    rw [minus] at inside
    have behind : c ∈ (String.ofList digits).toList := by
      rw [String.toList_ofList]
      exact (List.mem_cons.mp inside).resolve_left sign
    rw [readNat_letter behind other]
    rfl
  · rw [readNat_letter inside other]
    rfl

theorem isName_letter (word : isWord s = true) (inside : c ∈ s.toList) (other : c.isDigit = false)
    (sign : c ≠ '-') : isName s = true := by
  rw [isName, word, readInt_letter inside other sign]
  rfl

end Letters

/-! Labels begin a line, and what is no label is set in. -/

def labelIn (line : String) : Option String :=
  if line.toList.head? ≠ some '\t' ∧ line.toList.getLast? = some ':' then
    some (String.ofList line.toList.dropLast)
  else none

section Lines

variable {s line : String}

theorem labelIn_label (word : isWord s = true) : labelIn (s ++ ":") = some s := by
  have whole : (s ++ ":").toList = s.toList ++ [':'] := String.toList_append
  have first : (s.toList ++ [':']).head? ≠ some '\t' := by
    intro tab
    rcases List.mem_append.mp (List.mem_of_head? tab) with inside | inside
    · exact notMem_word word (by decide) inside
    · cases inside with
      | tail _ h => cases h
  rw [labelIn, whole, if_pos ⟨first, List.getLast?_concat⟩, List.dropLast_concat,
    String.ofList_toList]

theorem labelIn_set (set : line.toList.head? = some '\t') : labelIn line = none :=
  if_neg fun h => h.1 set

def OneLine (s : String) : Prop := '\n' ∉ s.toList

instance (s : String) : Decidable (OneLine s) := inferInstanceAs (Decidable ('\n' ∉ s.toList))

theorem OneLine.append {r : String} (h : OneLine s) (h' : OneLine r) : OneLine (s ++ r) := by
  rw [OneLine, String.toList_append, List.mem_append]
  exact fun inside => inside.elim h h'

theorem oneLine_word (h : isWord s = true) : OneLine s := notMem_word h (by decide)

theorem OneLine.intercalate {ws : List String} (h : OneLine s) (words : ∀ w ∈ ws, OneLine w) :
    OneLine (s.intercalate ws) := by
  induction ws with
  | nil =>
    rw [String.intercalate_nil]
    decide
  | cons w ws ih =>
    cases ws with
    | nil => simpa using words w (.head _)
    | cons v ws =>
      rw [String.intercalate_cons_cons]
      exact ((words w (.head _)).append h).append (ih fun u hu => words u (.tail _ hu))

def splitLines (text : String) : List String :=
  ((text.toList.splitOn '\n').map String.ofList).dropLast

theorem splitLines_join {lines : List String} (whole : ∀ l ∈ lines, OneLine l) :
    splitLines (String.join (lines.map fun l => l ++ "\n")) = lines := by
  have split : (String.join (lines.map fun l => l ++ "\n")).toList.splitOn '\n' =
      lines.map String.toList ++ [[]] := by
    induction lines with
    | nil => rfl
    | cons l lines ih =>
      have chars : (String.join ((l :: lines).map fun l => l ++ "\n")).toList =
          l.toList ++ '\n' :: (String.join (lines.map fun l => l ++ "\n")).toList := by
        rw [List.map_cons, String.join_cons, String.toList_append, String.toList_append,
          List.append_assoc]
        rfl
      rw [chars, List.splitOn_append_cons_self_of_not_mem (whole l (.head _)),
        ih fun k hk => whole k (.tail _ hk)]
      rfl
  rw [splitLines, split, List.map_append, List.map_cons, List.map_nil, List.dropLast_concat,
    List.map_map]
  exact (List.map_congr_left fun l _ => String.ofList_toList).trans (List.map_id _)

end Lines

/-! Rows of spelled things. -/

theorem mapM_read {α : Type} {read : String → Option α} {text : α → String} {f : α → α}
    {xs : List α} (h : ∀ x ∈ xs, read (text x) = some (f x)) :
    (xs.map text).mapM read = some (xs.map f) := by
  induction xs with
  | nil => rfl
  | cons x xs ih =>
    rw [List.map_cons, List.mapM_cons, h x (.head _), ih fun y hy => h y (.tail _ hy)]
    rfl

def readPairs {α β : Type} (left : String → Option α) (right : String → Option β) :
    List String → Option (List (α × β))
  | a :: b :: rest => return (← left a, ← right b) :: (← readPairs left right rest)
  | [] => some []
  | [_] => none

theorem readPairs_row {α β : Type} {left : String → Option α} {right : String → Option β}
    {a : α × β → String} {b : α × β → String} {f : α × β → α × β} {xs : List (α × β)}
    (h : ∀ x ∈ xs, left (a x) = some (f x).1 ∧ right (b x) = some (f x).2) :
    readPairs left right (xs.flatMap fun x => [a x, b x]) = some (xs.map f) := by
  induction xs with
  | nil => rfl
  | cons x xs ih =>
    obtain ⟨first, second⟩ := h x (.head _)
    show readPairs left right (a x :: b x :: xs.flatMap fun x => [a x, b x]) = _
    rw [readPairs, first, second, ih fun y hy => h y (.tail _ hy)]
    rfl

end ClassBackend
