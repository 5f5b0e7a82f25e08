import ClassBackend.Json.Value
import ClassBackend.Proofs.Json.Tokens
import ClassBackend.Proofs.Text.Numeral

/-! How texts and integers are spelled. A text has many spellings, since any of its characters may
be escaped; all of them are read back. -/
namespace ClassBackend.Json

def hexNumber? (a b c d : Char) : Option Nat := do
  return 16 * (16 * (16 * (← hexValue? a) + (← hexValue? b)) + (← hexValue? c)) + (← hexValue? d)

/-- The characters of a text and a spelling of them between quotes. -/
inductive Spells : List Char → List Char → Prop
  | nil : Spells [] []
  | plain {c : Char} {s t : List Char} :
    c ≠ '"' → c ≠ '\\' → ' ' ≤ c → Spells s t → Spells (c :: s) (c :: t)
  | short {c e : Char} {s t : List Char} :
    unescape? e = some c → Spells s t → Spells (c :: s) ('\\' :: e :: t)
  | unit {a b c d : Char} {n : Nat} {s t : List Char} : hexNumber? a b c d = some n →
    Text.isHigh n = false → Text.isLow n = false → Spells s t →
    Spells (Char.ofNat n :: s) ('\\' :: 'u' :: a :: b :: c :: d :: t)
  | pair {a b c d a' b' c' d' : Char} {n n' : Nat} {s t : List Char} :
    hexNumber? a b c d = some n → Text.isHigh n = true →
    hexNumber? a' b' c' d' = some n' → Text.isLow n' = true → Spells s t →
    Spells (Text.pair n n' :: s)
      ('\\' :: 'u' :: a :: b :: c :: d :: '\\' :: 'u' :: a' :: b' :: c' :: d' :: t)

def Quotes (s : String) (t : Token) : Prop := ∃ cs, Spells s.toList cs ∧ t = '"' :: (cs ++ ['"'])

section Texts

open Text

variable {done s t cs : List Char} {a b c d : Char} {n : Nat}

theorem tooShort_four (a b c d : Char) (cs : List Char) :
    tooShort (a :: b :: c :: d :: cs) = false := by
  have size (c : Char) := Char.utf8Size_pos c
  have := size a
  have := size b
  have := size c
  have := size d
  refine decide_eq_false ?_
  simp only [List.take_succ_cons, List.take_zero, List.foldr_cons, List.foldr_nil]
  omega

theorem hexNumber_some (h : hexNumber? a b c d = some n) :
    ∃ i j k l, hexValue? a = some i ∧ hexValue? b = some j ∧ hexValue? c = some k ∧
      hexValue? d = some l ∧ 16 * (16 * (16 * i + j) + k) + l = n := by
  simp only [hexNumber?, Option.bind_eq_bind, Option.bind_eq_some_iff, Option.pure_def,
    Option.some.injEq] at h
  obtain ⟨i, hi, j, hj, k, hk, l, hl, same⟩ := h
  exact ⟨i, j, k, l, hi, hj, hk, hl, same⟩

theorem scan_unit (h : hexNumber? a b c d = some n) :
    scan .plain done ('\\' :: 'u' :: a :: b :: c :: d :: cs) =
      if isLow n then .error .malformed
      else if isHigh n then scan (.high n) done cs
      else scan .plain (Char.ofNat n :: done) cs := by
  obtain ⟨i, j, k, l, hi, hj, hk, hl, rfl⟩ := hexNumber_some h
  simp [scan, tooShort_four, hi, hj, hk, hl]

theorem scan_low (u : Nat) (h : hexNumber? a b c d = some n) :
    scan (.high u) done ('\\' :: 'u' :: a :: b :: c :: d :: cs) =
      if isLow n then scan .plain (Text.pair u n :: done) cs else .error .malformed := by
  obtain ⟨i, j, k, l, hi, hj, hk, hl, rfl⟩ := hexNumber_some h
  simp [scan, tooShort_four, hi, hj, hk, hl]

theorem scan_spelled (h : Spells s t) (done cs : List Char) :
    scan .plain done (t ++ '"' :: cs) = .ok (done.reverse ++ s, cs) := by
  induction h generalizing done with
  | nil => simp [scan]
  | plain quote slash printable _ ih =>
    rw [List.cons_append, scan, if_neg quote, if_neg slash, if_neg (Char.not_lt.mpr printable), ih]
    simp
  | @short c e _ _ escaped _ ih =>
    have other : e ≠ 'u' := by
      rintro rfl
      cases escaped
    simp [scan, other, escaped, ih]
  | unit digits high low _ ih =>
    simp [scan_unit digits, low, high, ih]
  | pair digits high digits' low _ ih =>
    have disjoint (n : Nat) (h : isHigh n = true) : isLow n = false := by
      simp only [isHigh, isLow, Bool.and_eq_true, decide_eq_true_eq] at *
      simp
      omega
    simp [scan_unit digits, scan_low _ digits', low, high, disjoint _ high, ih]

theorem read_quoted {s : String} {t cs : List Char} (h : Quotes s ('"' :: t)) :
    Text.read (t ++ cs) = .ok (s, cs) := by
  obtain ⟨body, spells, same⟩ := h
  cases same
  have read := scan_spelled spells [] cs
  simp only [List.reverse_nil, List.nil_append] at read
  simp [Text.read, read]

theorem hexValue_hexDigit : ∀ n < 16, hexValue? (hexDigit n) = some n := by decide

theorem spells_escape (s : List Char) : Spells s (s.flatMap escape) := by
  induction s with
  | nil => exact .nil
  | cons c s ih =>
    rw [List.flatMap_cons]
    fun_cases escape c with
    | case8 _ _ _ _ _ _ _ control =>
      have below : c.toNat < 32 := control
      have digits : hexNumber? '0' '0' (hexDigit (c.toNat / 16)) (hexDigit (c.toNat % 16)) =
          some c.toNat := by
        simp only [hexNumber?, show hexValue? '0' = some 0 from rfl,
          hexValue_hexDigit _ (show c.toNat / 16 < 16 by omega),
          hexValue_hexDigit _ (show c.toNat % 16 < 16 by omega)]
        simp
        omega
      have plain := Spells.unit digits (by simp [isHigh]; omega) (by simp [isLow]; omega) ih
      rwa [Char.ofNat_toNat] at plain
    | case9 quote slash _ _ _ _ _ printable =>
      exact .plain quote slash (Char.not_lt.mp printable) ih
    | _ =>
      subst_vars
      exact .short rfl ih

theorem quotes_quote (s : String) : Quotes s (quote s) := ⟨_, spells_escape _, rfl⟩

end Texts

section Numerals

variable {cs ds : List Char} {c : Char} {n : Nat}

theorem Closed.head (closed : Closed (c :: cs)) :
    isDigit c = false ∧ c ≠ '.' ∧ c ≠ 'e' ∧ c ≠ 'E' := by
  obtain blank | rfl | rfl | rfl := closed c rfl
  · simp only [isBlank, Bool.or_eq_true, beq_iff_eq] at blank
    obtain ((rfl | rfl) | rfl) | rfl := blank <;> decide
  all_goals decide

theorem digits_lead (h : 0 < n) : ∃ c ds, Nat.toDigits 10 n = c :: ds ∧ c ≠ '0' := by
  induction n using Nat.strongRecOn with
  | ind n ih =>
    by_cases small : n < 10
    · have lead : ∀ m < 10, 0 < m → m.digitChar ≠ '0' := by decide
      exact ⟨n.digitChar, [], Nat.toDigits_of_lt_base small, lead n small h⟩
    · obtain ⟨c, ds, front, lead⟩ := ih (n / 10) (by omega) (by omega)
      rw [Nat.toDigits_of_base_le (by decide) (by omega), front]
      exact ⟨c, _, rfl, lead⟩

theorem le_ofDigitChars (n : Nat) (ds : List Char) : n ≤ Nat.ofDigitChars 10 ds n := by
  induction ds generalizing n with
  | nil => exact Nat.le_refl _
  | cons d ds ih =>
    rw [Nat.ofDigitChars_cons]
    have step := ih (10 * n + (d.toNat - '0'.toNat))
    omega

theorem appendDigits_fits (n taken : Nat) (ds : List Char)
    (fits : Nat.ofDigitChars 10 ds n < 18446744073709551616) :
    appendDigits n taken ds = (Nat.ofDigitChars 10 ds n, taken + ds.length) := by
  induction ds generalizing n taken with
  | nil => rfl
  | cons d ds ih =>
    rw [Nat.ofDigitChars_cons] at fits ⊢
    have bound := le_ofDigitChars (10 * n + (d.toNat - '0'.toNat)) ds
    have first : 10 * n + digitValue d < 18446744073709551616 := Nat.lt_of_le_of_lt bound fits
    rw [appendDigits, if_pos first, List.length_cons]
    have rest := ih (10 * n + (d.toNat - '0'.toNat)) (taken + 1) fits
    rw [show taken + (ds.length + 1) = taken + 1 + ds.length by omega]
    exact rest

theorem afterInteger_closed (negative : Bool) (closed : Closed cs)
    (fits : Nat.ofDigitChars 10 ds 0 < 18446744073709551616) :
    Numeral.afterInteger negative ds cs =
      .ok (Numeral.ofInteger negative (Nat.ofDigitChars 10 ds 0), cs) := by
  unfold Numeral.afterInteger
  rw [appendDigits_fits 0 0 ds fits]
  simp only [Nat.zero_add, if_true]
  cases cs with
  | nil => simp
  | cons c cs =>
    obtain ⟨_, point, small, large⟩ := closed.head
    split
    · rename_i same
      cases same
      exact absurd rfl point
    · rename_i same
      cases same
      exact absurd rfl small
    · rename_i same
      cases same
      exact absurd rfl large
    · simp

theorem takeWhile_closed (closed : Closed cs) : cs.takeWhile isDigit = [] := by
  cases cs with
  | nil => rfl
  | cons c cs => simp [closed.head.1]

theorem unsigned_read (negative : Bool) (fits : n < 18446744073709551616) (closed : Closed cs) :
    Numeral.unsigned negative ((toString n).toList ++ cs) =
      .ok (Numeral.ofInteger negative n, cs) := by
  rw [toList_numeral]
  have value := Nat.ofDigitChars_toDigits (b := 10) (n := n) (by decide) (by decide)
  have bound : Nat.ofDigitChars 10 (Nat.toDigits 10 n) 0 < 18446744073709551616 := by rwa [value]
  have after := afterInteger_closed negative closed bound
  rw [value] at after
  rcases Nat.eq_zero_or_pos n with rfl | pos
  · cases cs with
    | nil => exact after
    | cons c cs => simpa [Numeral.unsigned, closed.head.1] using after
  · obtain ⟨c, ds, front, lead⟩ := digits_lead pos
    have digits : ∀ d ∈ Nat.toDigits 10 n, isDigit d = true :=
      fun d hd => Nat.isDigit_of_mem_toDigits (by decide) (by decide) hd
    have taken : (Nat.toDigits 10 n ++ cs).takeWhile isDigit = Nat.toDigits 10 n := by
      rw [List.takeWhile_append_of_pos digits, takeWhile_closed closed, List.append_nil]
    have left : (Nat.toDigits 10 n ++ cs).dropWhile isDigit = cs := by
      rw [List.dropWhile_append_of_pos digits]
      cases cs with
      | nil => rfl
      | cons d cs => simp [closed.head.1]
    have first : isDigit c = true := digits c (by simp [front])
    rw [front, List.cons_append] at taken left ⊢
    rw [Numeral.unsigned.eq_def]
    simp only [if_neg lead, if_pos first, taken, left]
    rwa [front] at after

theorem numeral_read {v : Int} (lower : -9223372036854775808 ≤ v)
    (upper : v < 18446744073709551616) (closed : Closed cs) :
    Numeral.read ((toString v).toList ++ cs) = .ok (.integer v, cs) := by
  cases v with
  | ofNat n =>
    have text : (toString (Int.ofNat n)).toList = (toString n).toList := rfl
    have digits : ∀ c ∈ (toString n).toList, c.isDigit = true := fun c hc =>
      isDigit_of_mem_numeral hc
    have read := unsigned_read false (Int.ofNat_lt.mp upper) closed
    rw [text]
    cases front : (toString n).toList with
    | nil => exact absurd front (numeral_ne_nil n)
    | cons c t =>
      have other : c ≠ '-' := by
        rintro rfl
        have digit := digits '-' (by rw [front]; exact List.mem_cons_self)
        cases digit
      rw [front] at read
      rw [List.cons_append] at read ⊢
      unfold Numeral.read
      split
      · rename_i same
        exact absurd (List.cons.inj same).1 other
      · exact read
  | negSucc n =>
    have bound : n + 1 ≤ 9223372036854775808 := by omega
    have read := unsigned_read true (show n + 1 < 18446744073709551616 by omega) closed
    rw [toList_negative, List.cons_append]
    refine read.trans ?_
    simp only [Numeral.ofInteger, if_true, Nat.succ_pos, true_and, if_pos bound]
    rfl

end Numerals

end ClassBackend.Json
