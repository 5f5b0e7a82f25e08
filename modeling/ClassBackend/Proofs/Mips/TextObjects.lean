import ClassBackend.Proofs.Account.Pooling
import ClassBackend.Proofs.Mips.Image
import ClassBackend.Proofs.Text.Numeral

/-! The objects of texts in memory. A text is cut into literals and single bytes when it is written,
and its size is counted without regard to how it was cut. -/
namespace ClassBackend.Mips.Data

open Lowering

section Literals

variable {cs rest : List Char} {bs done : List UInt8} {b : UInt8}

/-- Characters within a literal that are read as these bytes. -/
def Spells (cs : List Char) (bs : List UInt8) : Prop :=
  ∀ rest, unquote (cs ++ rest) = (unquote rest).map fun r => (bs ++ r.1, r.2)

theorem spells_nil : Spells [] [] := by simp [Spells]

theorem Spells.append {cs' : List Char} {bs' : List UInt8} (h : Spells cs bs)
    (h' : Spells cs' bs') : Spells (cs ++ cs') (bs ++ bs') := by
  intro rest
  rw [List.append_assoc, h, h', Option.map_map]
  apply congrArg (Option.map · (unquote rest))
  funext r
  simp

theorem Spells.literal (h : Spells cs bs) : literalBytes (String.ofList cs) = some bs := by
  have read : unquote (cs ++ ['"']) = some (bs, []) := by
    rw [h]
    simp [unquote]
  simp only [literalBytes, String.toList_ofList, read]

theorem spells_escaped (quote : b = 34 ∨ b = 92) : Spells ['\\', Char.ofNat b.toNat] [b] := by
  intro rest
  rcases quote with rfl | rfl
  · rfl
  · rfl

theorem spells_char {c : Char} (low : 32 ≤ c.toNat) (high : c.toNat ≤ 126) (quote : c ≠ '"')
    (slash : c ≠ '\\') : Spells [c] [UInt8.ofNat c.toNat] := by
  intro rest
  have first : unquote (c :: rest) = if c = '"' then some ([], rest)
      else if 32 ≤ c.toNat ∧ c.toNat ≤ 126 then
        (unquote rest).map fun r => (UInt8.ofNat c.toNat :: r.1, r.2)
      else none := by
    rw [unquote]
    exact fun _ _ same _ => slash same
  rw [List.singleton_append, first, if_neg quote, if_pos ⟨low, high⟩]
  rfl

theorem spells_plain (printable : 32 ≤ b ∧ b ≤ 126) (special : ¬(b = 34 ∨ b = 92)) :
    Spells [Char.ofNat b.toNat] [b] := by
  have low : 32 ≤ b.toNat := by simpa using UInt8.le_iff_toNat_le.mp printable.1
  have high : b.toNat ≤ 126 := by simpa using UInt8.le_iff_toNat_le.mp printable.2
  have code := ascii_toNat b.toNat (by omega)
  have other (d : Char) (n : UInt8) (value : d.toNat = n.toNat) (apart : b ≠ n) :
      Char.ofNat b.toNat ≠ d := by
    intro same
    apply apart
    rw [← UInt8.toNat_inj, ← code, same, value]
  have spells := spells_char (c := Char.ofNat b.toNat) (by rwa [code]) (by rwa [code])
    (other '"' 34 rfl fun same => special (.inl same))
    (other '\\' 92 rfl fun same => special (.inr same))
  rwa [code, UInt8.ofNat_toNat] at spells

theorem flush_laidOut {run : List Char} (h : Spells run.reverse done) (pos : Nat) :
    laidOut pos (flush run) = some (done.map .byte) := by
  have literal := h.literal
  unfold flush
  split
  · rename_i empty
    rw [List.isEmpty_iff.mp empty] at literal
    cases literal
    rfl
  · simp [laidOut, place, literal]

/-- However a text is cut, its bytes are laid out in a row. -/
theorem asciiFrom_laidOut (run : List Char) (bytes : List UInt8) (h : Spells run.reverse done)
    (pos : Nat) : laidOut pos (asciiFrom run bytes) = some ((done ++ bytes).map .byte) := by
  -- the run in hand spells what has been read of the text since the last line
  induction bytes generalizing run done pos with
  | nil =>
    rw [asciiFrom, List.append_nil]
    exact flush_laidOut h pos
  | cons b bs ih =>
    unfold asciiFrom
    split
    · rename_i special
      have longer := h.append (spells_escaped special)
      rw [List.append_cons done b bs]
      apply ih
      simpa using longer
    · rename_i special
      split
      · rename_i printable
        have longer := h.append (spells_plain printable special)
        rw [List.append_cons done b bs]
        apply ih
        simpa using longer
      · refine laidOut_append.mpr ⟨_, _, flush_laidOut h pos, ?_, List.map_append.symm⟩
        refine laidOut_cons.mpr ⟨[.byte b], _, rfl, ?_, rfl⟩
        exact ih [] spells_nil _

end Literals

section Objects

variable {t : ClassTable} {p : Pool} {k : ClassLayout} {c length : Const} {s : String}
variable {ls : List Line} {pos : Nat}

def padding (s : String) : Nat := (4 - (s.utf8ByteSize + 1) % 4) % 4

/-- The bytes of a text, its final zero and what fills the last word. -/
def padded (s : String) : List UInt8 := s.toUTF8.toList ++ 0 :: List.replicate (padding s) 0

theorem padded_length (s : String) : (padded s).length = s.utf8ByteSize + 1 + padding s := by
  rw [padded, List.length_append, utf8_length, List.length_cons, List.length_replicate]
  omega

theorem text_laidOut (aligned : pos % 4 = 0) :
    laidOut pos (ascii s ++ [.byte 0, .align]) = some ((padded s).map .byte) := by
  refine laidOut_append.mpr ⟨_, _, asciiFrom_laidOut [] s.toUTF8.toList spells_nil pos, ?_,
    List.map_append.symm⟩
  have rest : (4 - (pos + s.utf8ByteSize + 1) % 4) % 4 = padding s := by
    unfold padding
    omega
  rw [List.nil_append, extent_bytes, utf8_length]
  simp [laidOut, place, extent, Item.size, rest]

def textBody (k : ClassLayout) (length : Const) (s : String) (words : Int) : List Item :=
  .word (.num k.tag) :: .word (.num words) :: .word (.sym (Linkage.dispatchTable k.name)) ::
    .word (.sym length.label) :: (padded s).map .byte

theorem extent_textBody (k : ClassLayout) (length : Const) (s : String) (words : Int) :
    extent (textBody k length s words) = 16 + s.utf8ByteSize + 1 + padding s := by
  have bytes := extent_bytes (padded s)
  rw [padded_length] at bytes
  simp only [extent, textBody, List.map_cons, List.sum_cons, Item.size] at bytes ⊢
  omega

theorem stringObject_laidOut (made : stringObject k c s length = .ok ls) (aligned : pos % 4 = 0) :
    ∃ words, stringWords s = .ok words ∧ laidOut pos ls =
      some (.word (.num eyeCatcher) :: .label c.label :: textBody k length s words) := by
  simp only [stringObject, except_bind_ok, except_pure_ok] at made
  obtain ⟨words, counted, rfl⟩ := made
  refine ⟨words, counted, ?_⟩
  rw [List.append_assoc, List.append_assoc, header_laidOut aligned, List.singleton_append,
    laidOut_word (by omega), text_laidOut (by omega)]
  rfl

end Objects

section Sections

variable {t : ClassTable} {p : Pool} {ls : List Line}

theorem stringObject_settles {k : ClassLayout} {c length : Const} {s : String}
    (made : stringObject k c s length = .ok ls) : Settles ls := by
  intro pos aligned
  obtain ⟨words, _, there⟩ := stringObject_laidOut made aligned
  refine ⟨_, there, ?_⟩
  have body := extent_textBody k length s words
  simp only [extent, List.map_cons, List.sum_cons, Item.size] at body ⊢
  rw [body, padding]
  omega

theorem settles_objects {α : Type} {f : α → Except Fault (List Line)} {xs : List α}
    {objects : List (List Line)} (h : xs.mapM f = .ok objects)
    (each : ∀ x ls, f x = .ok ls → Settles ls) : Settles objects.flatten := by
  have made := except_mapM_ok.mp h
  clear h
  induction made with
  | nil => exact settles_nil
  | cons first _ ih =>
    rw [List.flatten_cons]
    exact (each _ _ first).append ih

theorem settles_words {α : Type} (before : List Line) (whole : ∀ l ∈ before, l.whole = true)
    (f : α → Datum) (xs : List α) : Settles (before ++ xs.map fun x => .word (f x)) := by
  apply settles_whole
  intro l hl
  rcases List.mem_append.mp hl with hl | hl
  · exact whole l hl
  · obtain ⟨x, _, rfl⟩ := List.mem_map.mp hl
    rfl

theorem settles_object {label : String} {k : ClassLayout} {words : Int} (data : List Datum) :
    Settles (header label k words ++ data.map .word) :=
  settles_words _ (by simp [header, Line.whole]) id data

theorem intObject_settles {k : ClassLayout} {c : Const} {v : Int64}
    (made : intObject k c v = .ok ls) : Settles ls := by
  simp only [intObject, except_bind_ok, except_pure_ok] at made
  obtain ⟨word, _, rfl⟩ := made
  exact settles_object [.num word]

theorem prototype_settles {k : ClassLayout} (made : prototype p k = .ok ls) : Settles ls := by
  simp only [prototype, except_bind_ok, except_pure_ok] at made
  obtain ⟨words, _, rfl⟩ := made
  exact settles_words _ (by simp [header, Line.whole]) _ _

theorem tables_settle (t : ClassTable) (p : Pool) :
    Settles (.label Linkage.classNames :: classNames t p ++
      (.label Linkage.classObjects :: classObjects t ++ t.classes.flatMap dispatchTable)) := by
  apply settles_whole
  intro l hl
  simp only [classNames, classObjects, dispatchTable, List.mem_append, List.mem_cons, List.mem_map,
    List.mem_flatMap, List.not_mem_nil, or_false] at hl
  rcases hl with (rfl | ⟨k, _, rfl⟩) | (rfl | ⟨k, _, rfl | rfl⟩) | ⟨k, _, rfl | ⟨m, _, rfl⟩⟩ <;>
    rfl

theorem preamble_settles (gcTest : Bool) (int bool string : ClassLayout) :
    Settles (preamble gcTest int bool string) := by
  apply settles_whole
  simp [preamble, exported, labelled, collector, Line.whole]

theorem emit_laidOut {gcTest : Bool} (h : emit gcTest t p = .ok ls) :
    ∃ image, laidOut 0 ls = some image := by
  obtain ⟨int, bool, string, strings, ints, prototypes, _, _, _, stringed, inted, made, rfl⟩ :=
    emit_parts h
  have objects : Settles (boolObject bool false ++ (boolObject bool true ++
      (.label Linkage.classNames :: classNames t (complete t p) ++
        (.label Linkage.classObjects :: classObjects t ++ t.classes.flatMap dispatchTable)))) :=
    (settles_object [_]).append ((settles_object [_]).append (tables_settle t _))
  have front := (preamble_settles gcTest int bool string).append
    ((settles_objects stringed fun _ _ => stringObject_settles).append
      ((settles_objects inted fun _ _ => intObject_settles).append objects))
  have back : Settles [.globl "heap_start", .label "heap_start", .word (.num 0)] :=
    settles_whole (by simp [Line.whole])
  obtain ⟨image, there, _⟩ := front.append
    ((settles_objects made fun _ _ => prototype_settles).append back) 0 rfl
  exact ⟨image, there⟩

end Sections

section Main

variable {t : ClassTable} {p : Pool} {ls : List Line} {image : List Item}

end Main

end ClassBackend.Mips.Data
