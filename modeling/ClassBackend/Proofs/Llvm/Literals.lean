import ClassBackend.Json.Text
import ClassBackend.Llvm.Module
import ClassBackend.Proofs.Text.Numeral

/-! String literals in the text of a module, as they are read back. Any character but a quote may
stand in a literal, so writing a text needs care with quotes, and with a backslash in front of two
hexadecimal digits. -/
namespace ClassBackend.Llvm

def hexByte? (a b : Char) : Option UInt8 :=
  match Json.hexValue? a, Json.hexValue? b with
  | some i, some j => some (UInt8.ofNat (16 * i + j))
  | _, _ => none

/-- Reads a literal behind its opening quote. A backslash and two hexadecimal digits stand for a
byte, any other character for itself, and a quote ends the literal. Answers the bytes, and what
stands behind the closing quote. -/
def readLiteral : List Char → Option (List UInt8 × List Char)
  | '\\' :: a :: b :: cs =>
    match hexByte? a b with
    | some x => (readLiteral cs).map fun r => (x :: r.1, r.2)
    | none => (readLiteral (a :: b :: cs)).map fun r => (String.utf8EncodeChar '\\' ++ r.1, r.2)
  | c :: cs =>
    if c = '"' then some ([], cs)
    else (readLiteral cs).map fun r => (String.utf8EncodeChar c ++ r.1, r.2)
  | [] => none

variable {c a b : Char} {cs rest : List Char} {bs : List UInt8}

section Reading

theorem readLiteral_escape {x : UInt8} (h : hexByte? a b = some x) (cs : List Char) :
    readLiteral ('\\' :: a :: b :: cs) = (readLiteral cs).map fun r => (x :: r.1, r.2) := by
  rw [readLiteral, h]

theorem readLiteral_other (quote : c ≠ '"')
    (plain : ∀ a b r, c = '\\' → cs = a :: b :: r → hexByte? a b = none) :
    readLiteral (c :: cs) =
      (readLiteral cs).map fun r => (String.utf8EncodeChar c ++ r.1, r.2) := by
  by_cases slash : c = '\\'
  · subst slash
    match cs with
    | [] => rfl
    | [a] => rw [readLiteral, if_neg quote]; simp
    | a :: b :: r => rw [readLiteral, plain a b r rfl rfl]
  · rw [readLiteral, if_neg quote]
    exact fun _ _ _ same _ => slash same

theorem hexByte_quote_right (a : Char) : hexByte? a '"' = none := by
  unfold hexByte?
  cases Json.hexValue? a <;> rfl

end Reading

section Writing

def Printable (c : Char) : Prop := 32 ≤ c.toNat ∧ c.toNat ≤ 126 ∧ c ≠ '"'

instance (c : Char) : Decidable (Printable c) := by unfold Printable; infer_instance

def digit (n : Nat) : Char := if n < 10 then Char.ofNat (48 + n) else Char.ofNat (55 + n)

theorem digit_value : ∀ n < 16, Json.hexValue? (digit n) = some n := by decide

theorem digits_read (b : UInt8) :
    hexByte? (digit (b.toNat / 16)) (digit (b.toNat % 16)) = some b := by
  have small := b.toNat_lt
  rw [hexByte?, digit_value _ (by omega), digit_value _ (by omega)]
  apply congrArg some
  rw [Nat.div_add_mod, UInt8.ofNat_toNat]

theorem digit_printable : ∀ n < 16, Printable (digit n) := by decide

theorem plain_char : ∀ n < 127, 32 ≤ n → n ≠ 34 → n ≠ 92 →
    Printable (Char.ofNat n) ∧ Char.ofNat n ≠ '\\' := by decide

theorem escapeByte_eq (b : UInt8) : (escapeByte b).toList =
    if 32 ≤ b ∧ b ≤ 126 ∧ b ≠ 34 ∧ b ≠ 92 then [Char.ofNat b.toNat]
    else ['\\', digit (b.toNat / 16), digit (b.toNat % 16)] := by
  unfold escapeByte
  split
  · exact String.toList_singleton _
  · simp only [String.toList_append, hexByte, String.toList_ofList]
    rfl

theorem plain_byte {b : UInt8} (h : 32 ≤ b ∧ b ≤ 126 ∧ b ≠ 34 ∧ b ≠ 92) :
    Printable (Char.ofNat b.toNat) ∧ Char.ofNat b.toNat ≠ '\\' ∧
      String.utf8EncodeChar (Char.ofNat b.toNat) = [b] := by
  obtain ⟨low, high, quote, slash⟩ := h
  have low : 32 ≤ b.toNat := by simpa using UInt8.le_iff_toNat_le.mp low
  have high : b.toNat ≤ 126 := by simpa using UInt8.le_iff_toNat_le.mp high
  have quote : b.toNat ≠ 34 := by simpa [← UInt8.toNat_inj] using quote
  have slash : b.toNat ≠ 92 := by simpa [← UInt8.toNat_inj] using slash
  obtain ⟨printable, other⟩ := plain_char b.toNat (by omega) low quote slash
  refine ⟨printable, other, ?_⟩
  rw [encode_ascii _ (by omega), UInt8.ofNat_toNat]

theorem readLiteral_byte (b : UInt8) (cs : List Char) :
    readLiteral ((escapeByte b).toList ++ cs) = (readLiteral cs).map fun r => (b :: r.1, r.2) := by
  rw [escapeByte_eq]
  split
  · rename_i plain
    obtain ⟨⟨_, _, unquoted⟩, unslashed, itself⟩ := plain_byte plain
    rw [List.singleton_append,
      readLiteral_other unquoted fun _ _ _ same _ => absurd same unslashed, itself]
    rfl
  · exact readLiteral_escape (digits_read b) cs

theorem escapeByte_printable (b : UInt8) : ∀ c ∈ (escapeByte b).toList, Printable c := by
  rw [escapeByte_eq]
  split
  · rename_i plain
    intro c hc
    cases List.mem_singleton.mp hc
    exact (plain_byte plain).1
  · have small := b.toNat_lt
    have first := digit_printable (b.toNat / 16) (by omega)
    have second := digit_printable (b.toNat % 16) (by omega)
    simp only [List.forall_mem_cons]
    exact ⟨by decide, first, second, by simp⟩

variable (bs)

theorem escapeBytes_toList :
    (String.join (bs.map escapeByte)).toList = bs.flatMap fun b => (escapeByte b).toList := by
  rw [String.toList_join, List.flatMap_map]

theorem readLiteral_bytes (cs : List Char) :
    readLiteral (bs.flatMap (fun b => (escapeByte b).toList) ++ cs) =
      (readLiteral cs).map fun r => (bs ++ r.1, r.2) := by
  induction bs with
  | nil => simp
  | cons b bs ih =>
    rw [List.flatMap_cons, List.append_assoc, readLiteral_byte, ih, Option.map_map]
    rfl

end Writing

/-- The literal of a text is read as its bytes and a zero, up to the quote behind it. -/
theorem readLiteral_cString (s : String) (rest : List Char) :
    readLiteral ((cString s).toList ++ '"' :: rest) = some (s.toUTF8.toList ++ [0], rest) := by
  have quote : readLiteral ('"' :: rest) = some ([], rest) := rfl
  rw [cString, escapeBytes_toList, readLiteral_bytes, quote, Option.map_some, List.append_nil]

theorem cString_printable (s : String) : ∀ c ∈ (cString s).toList, Printable c := by
  rw [cString, escapeBytes_toList]
  intro c hc
  obtain ⟨b, _, hc⟩ := List.mem_flatMap.mp hc
  exact escapeByte_printable b c hc

end ClassBackend.Llvm
