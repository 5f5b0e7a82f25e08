import ClassBackend.Names
import ClassBackend.Pool
import Mathlib.Data.List.Basic

/-! The bytes of a text, as a list. -/
namespace ClassBackend

theorem toList_loop (b : ByteArray) (i : Nat) (done : List UInt8) :
    ByteArray.toList.loop b i done = done.reverse ++ b.data.toList.drop i := by
  fun_induction ByteArray.toList.loop b i done with
  | case1 i done inside ih =>
    have here : i < b.data.toList.length := by simpa using inside
    have next : b.get! i = b.data.toList[i] := by
      simp [ByteArray.get!, getElem!_pos b.data i inside]
    rw [ih, List.drop_eq_getElem_cons here, next]
    simp
  | case2 i done beyond =>
    have none : b.data.toList.drop i = [] := List.drop_eq_nil_of_le (by simpa using beyond)
    rw [none, List.append_nil]

theorem toList_data (b : ByteArray) : b.toList = b.data.toList := toList_loop b 0 []

theorem utf8_eq (s : String) : s.toUTF8.toList = s.toList.flatMap String.utf8EncodeChar := by
  rw [toList_data, String.toUTF8, ← String.utf8Encode_toList, List.utf8Encode]
  exact List.toList_data_toByteArray

theorem utf8_length (s : String) : s.toUTF8.toList.length = s.utf8ByteSize := by
  rw [toList_data]
  rfl

theorem encode_ascii : ∀ n < 128, String.utf8EncodeChar (Char.ofNat n) = [UInt8.ofNat n] := by
  decide

theorem ascii_toNat : ∀ n < 128, (Char.ofNat n).toNat = n := by decide

end ClassBackend

/-! Texts that end in a number, as the names of blocks and constants do. A number can be read off
again where what stands before it does not end in a digit. -/
namespace ClassBackend

def plainEnd (s : String) : Bool := !(s.toList.getLast?.any Char.isDigit)

theorem toList_numeral (n : Nat) : (toString n).toList = Nat.toDigits 10 n := by
  rw [Nat.toString_eq_ofList_toDigits, String.toList_ofList]

theorem isDigit_of_mem_numeral {n : Nat} {c : Char} (h : c ∈ (toString n).toList) :
    c.isDigit = true := by
  rw [toList_numeral] at h
  exact Nat.isDigit_of_mem_toDigits (by decide) (by decide) h

theorem numeral_ne_nil (n : Nat) : (toString n).toList ≠ [] := by
  rw [toList_numeral]
  exact Nat.toDigits_ne_nil

theorem toList_negative (n : Nat) :
    (toString (Int.negSucc n)).toList = '-' :: (toString (n + 1)).toList := by
  have text : toString (Int.negSucc n) = "-" ++ toString (n + 1) := rfl
  rw [text, String.toList_append]
  rfl

theorem integer_head (v : Int) :
    ∃ c t, (toString v).toList = c :: t ∧ (c = '-' ∨ c.isDigit = true) := by
  cases v with
  | ofNat n =>
    cases front : (toString n).toList with
    | nil => exact absurd front (numeral_ne_nil n)
    | cons c t => exact ⟨c, t, front, .inr (isDigit_of_mem_numeral (front ▸ List.mem_cons_self))⟩
  | negSucc n => exact ⟨'-', _, toList_negative n, .inl rfl⟩

theorem numbered_not_plainEnd (s : String) (n : Nat) : plainEnd (s ++ toString n) = false := by
  have last : (s ++ toString n).toList.getLast? = (toString n).toList.getLast? := by
    rw [String.toList_append, List.getLast?_append_of_ne_nil _ (numeral_ne_nil n)]
  rw [plainEnd, last, List.getLast?_eq_some_getLast (numeral_ne_nil n), Option.any_some,
    Bool.not_eq_false']
  exact isDigit_of_mem_numeral (List.getLast_mem _)

theorem plainEnd_dispatchTable (cls : String) : plainEnd (Linkage.dispatchTable cls) = true := by
  have last : (Linkage.dispatchTable cls).toList.getLast? = some 'b' := by
    rw [Linkage.dispatchTable, String.toList_append,
      List.getLast?_append_of_ne_nil _ (show "_dispTab".toList ≠ [] by decide)]
    rfl
  rw [plainEnd, last]
  rfl

theorem Const.label_not_plainEnd (c : Const) : plainEnd c.label = false := by
  cases c with
  | int i | str i => exact numbered_not_plainEnd _ i
  | bool b => cases b <;> decide

theorem Const.label_ne {c : Const} {s : String} (plain : plainEnd s = true) : c.label ≠ s := by
  rintro rfl
  rw [c.label_not_plainEnd] at plain
  contradiction

theorem no_digits_between {s s' : String} {a : List Char} {n : Nat} (plain : plainEnd s' = true)
    (longer : s'.toList = s.toList ++ a) (digits : a ⊆ (toString n).toList) : a = [] := by
  cases last : a.getLast? with
  | none => exact List.getLast?_eq_none_iff.mp last
  | some c =>
    have nonempty : a ≠ [] := by
      rintro rfl
      cases last
    have same : s'.toList.getLast? = some c := by
      rw [longer, List.getLast?_append_of_ne_nil _ nonempty, last]
    have digit := isDigit_of_mem_numeral (digits (List.mem_of_getLast? last))
    simp [plainEnd, same, digit] at plain

theorem numbered_inj {s s' : String} {n m : Nat} (plain : plainEnd s = true)
    (plain' : plainEnd s' = true) (h : s ++ toString n = s' ++ toString m) : s = s' ∧ n = m := by
  have lists := congrArg String.toList h
  rw [String.toList_append, String.toList_append] at lists
  have same : s.toList = s'.toList := by
    rcases List.append_eq_append_iff.mp lists with ⟨a, longer, rest⟩ | ⟨a, longer, rest⟩
    · have none := no_digits_between plain' longer fun c hc => rest ▸ List.mem_append_left _ hc
      simpa [none] using longer.symm
    · have none := no_digits_between plain longer fun c hc => rest ▸ List.mem_append_left _ hc
      simpa [none] using longer
  rw [same, List.append_cancel_left_eq, toList_numeral, toList_numeral] at lists
  have numbers := congrArg (fun ds => Nat.ofDigitChars 10 ds 0) lists
  simp only [Nat.ofDigitChars_toDigits (b := 10) (by decide) (by decide)] at numbers
  exact ⟨String.toList_inj.mp same, numbers⟩

end ClassBackend
