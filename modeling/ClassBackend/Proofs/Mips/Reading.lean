import ClassBackend.Proofs.Mips.Closed
import ClassBackend.Proofs.Mips.TextObjects
import ClassBackend.Proofs.Text.Words

/-! Reading assembly back. A line that is printed is taken apart into its words, and they name the
line; the text of a whole unit is the unit again, as far as a text shows it: there a label of a
block is a name like any other. -/
namespace ClassBackend.Mips

namespace Reg

def read (s : String) : Option Reg := all.find? (·.text == s)

theorem read_text (r : Reg) : read r.text = some r := by
  cases r <;> decide

theorem text_word (r : Reg) : isWord r.text = true := by
  cases r <;> decide

end Reg

namespace Operand

def read (s : String) : Option Operand :=
  match Reg.read s with
  | some r => some (.reg r)
  | none => (readInt s).map .imm

end Operand

def Label.named (l : Label) : Label := .symbol l.text

namespace Instr

def named : Instr → Instr
  | .label l => .label l.named
  | .branch c a b l => .branch c a b l.named
  | .goto l => .goto l.named
  | i => i

def ofWords : List String → Option Instr
  | ["la", r, s] => return .la (← Reg.read r) s
  | ["li", r, i] => return .li (← Reg.read r) (← readInt i)
  | ["lw", r, off, base] => return .lw (← Reg.read r) (← readInt off) (← Reg.read base)
  | ["sw", r, off, base] => return .sw (← Reg.read r) (← readInt off) (← Reg.read base)
  | ["move", d, s] => return .move (← Reg.read d) (← Reg.read s)
  | ["addiu", d, s, i] => return .addiu (← Reg.read d) (← Reg.read s) (← readInt i)
  | ["addu", d, a, b] => return .addu (← Reg.read d) (← Reg.read a) (← Reg.read b)
  | ["sll", d, s, n] => return .sll (← Reg.read d) (← Reg.read s) (.ofNat (← readNat n))
  | ["add", d, a, b] => return .arith .add (← Reg.read d) (← Reg.read a) (← Operand.read b)
  | ["sub", d, a, b] => return .arith .sub (← Reg.read d) (← Reg.read a) (← Operand.read b)
  | ["mul", d, a, b] => return .arith .mul (← Reg.read d) (← Reg.read a) (← Operand.read b)
  | ["div", d, a, b] => return .arith .div (← Reg.read d) (← Reg.read a) (← Operand.read b)
  | ["neg", d, s] => return .neg (← Reg.read d) (← Reg.read s)
  | ["beq", a, b, l] => return .branch .eq (← Reg.read a) (← Operand.read b) (.symbol l)
  | ["blt", a, b, l] => return .branch .lt (← Reg.read a) (← Operand.read b) (.symbol l)
  | ["ble", a, b, l] => return .branch .le (← Reg.read a) (← Operand.read b) (.symbol l)
  | ["bgt", a, b, l] => return .branch .gt (← Reg.read a) (← Operand.read b) (.symbol l)
  | ["b", l] => some (.goto (.symbol l))
  | ["jal", s] => some (.jal s)
  | ["jalr", r] => return .jalr (← Reg.read r)
  | ["jr", r] => return .jr (← Reg.read r)
  | _ => none

def words : Instr → List String
  | .label _ => []
  | .la r s => ["la", r.text, s]
  | .li r i => ["li", r.text, toString i]
  | .lw r off base => ["lw", r.text, toString off, base.text]
  | .sw r off base => ["sw", r.text, toString off, base.text]
  | .move d s => ["move", d.text, s.text]
  | .addiu d s i => ["addiu", d.text, s.text, toString i]
  | .addu d a b => ["addu", d.text, a.text, b.text]
  | .sll d s n => ["sll", d.text, s.text, toString n.toNat]
  | .arith op d a b => [op.mnemonic, d.text, a.text, b.text]
  | .neg d s => ["neg", d.text, s.text]
  | .branch c a b l => [c.mnemonic, a.text, b.text, l.text]
  | .goto l => ["b", l.text]
  | .jal s => ["jal", s]
  | .jalr r => ["jalr", r.text]
  | .jr r => ["jr", r.text]

def read (line : String) : Option Instr :=
  match labelIn line with
  | some s => some (.label (.symbol s))
  | none => ofWords (wordsOf line)

def names : Instr → List String
  | .label l | .goto l | .branch _ _ _ l => [l.text]
  | .la _ s | .jal s => [s]
  | _ => []

structure Plain (i : Instr) : Prop where
  known : i.known = true
  names : ∀ s ∈ i.names, isName s = true

theorem operation_words {m : String} (word : isWord m = true) (ops : List String) :
    wordsOf (operation m ops) = m :: ops.flatMap wordsOf := by
  rw [operation, wordsOf_between (by decide) (by decide), wordsOf_closed (by decide),
    wordsOf_word word, wordsOf_intercalate (by decide) (by decide) (by decide)]
  rfl

theorem words_reg (r : Reg) : wordsOf r.text = [r.text] := wordsOf_word r.text_word

theorem words_int (i : Int) : wordsOf (toString i) = [toString i] :=
  wordsOf_word (isWord_int i)

theorem words_nat (n : Nat) : wordsOf (toString n) = [toString n] :=
  wordsOf_word (isWord_numeral n)

theorem words_operand (b : Operand) : wordsOf b.text = [b.text] := by
  cases b with
  | reg r => exact words_reg r
  | imm i => exact words_int i

theorem words_address (off : Int) (base : Reg) :
    wordsOf (address off base) = [toString off, base.text] := by
  rw [address, wordsOf_opened (by decide), wordsOf_between (by decide) (by decide), words_int,
    words_reg]
  rfl

theorem text_words {i : Instr} (h : i.Plain) (set : i.label? = none) :
    wordsOf i.text = i.words := by
  have names s (hs : s ∈ i.names) := isWord_of_name (h.names s hs)
  cases i with
  | label l => cases set
  | arith op d a b =>
    have word : isWord op.mnemonic = true := by
      cases op with
      | other m => cases h.known
      | _ => decide
    rw [text, operation_words word]
    simp only [List.flatMap_cons, List.flatMap_nil, words_reg, words_operand]
    rfl
  | branch c a b l =>
    have word : isWord c.mnemonic = true := by
      cases c with
      | other m => cases h.known
      | _ => decide
    rw [text, operation_words word]
    simp only [List.flatMap_cons, List.flatMap_nil, words_reg, words_operand,
      wordsOf_word (names _ (.head _))]
    rfl
  | la r s | goto l | jal s =>
    rw [text, operation_words (by decide)]
    simp only [List.flatMap_cons, List.flatMap_nil, words_reg, wordsOf_word (names _ (.head _))]
    rfl
  | _ =>
    rw [text, operation_words (by decide)]
    simp only [List.flatMap_cons, List.flatMap_nil, words_reg, words_int, words_nat, words_address]
    rfl

theorem operand_read (b : Operand) : Operand.read b.text = some b := by
  cases b with
  | reg r =>
    show Operand.read r.text = _
    rw [Operand.read, Reg.read_text]
  | imm i =>
    have none : Reg.read (toString i) = none := by
      refine List.find?_eq_none.mpr fun r _ same => ?_
      have numeral : readInt r.text = some i := by rw [eq_of_beq same, readInt_numeral]
      have letters : readInt r.text = none := by cases r <;> decide
      rw [numeral] at letters
      cases letters
    show Operand.read (toString i) = _
    rw [Operand.read, none, readInt_numeral]
    rfl

theorem ofWords_words {i : Instr} (known : i.known = true) (set : i.label? = none) :
    ofWords i.words = some i.named := by
  cases i with
  | label l => cases set
  | arith op d a b =>
    cases op with
    | other m => cases known
    | _ =>
      simp only [words, Arith.mnemonic, ofWords, Reg.read_text, operand_read]
      rfl
  | branch c a b l =>
    cases c with
    | other m => cases known
    | _ =>
      simp only [words, Cond.mnemonic, ofWords, Reg.read_text, operand_read]
      rfl
  | sll d s n =>
    simp only [words, ofWords, Reg.read_text, readNat_numeral]
    exact congrArg (fun m => some (sll d s m)) UInt8.ofNat_toNat
  | _ =>
    simp only [words, ofWords, Reg.read_text, readInt_numeral]
    rfl

theorem text_set {i : Instr} (set : i.label? = none) : i.text.toList.head? = some '\t' := by
  cases i with
  | label l => cases set
  | _ => simp [text, operation, String.toList_append]

theorem read_text {i : Instr} (h : i.Plain) : read i.text = some i.named := by
  cases set : i.label? with
  | none => rw [read, labelIn_set (text_set set), text_words h set, ofWords_words h.known set]
  | some l =>
    cases i with
    | label k =>
      rw [read, text, labelIn_label (isWord_of_name (h.names _ (.head _)))]
      rfl
    | _ => cases set

example : read "\tlw\t$a0 4($fp)" = some (.lw .a0 4 .fp) := by decide

end Instr

namespace Datum

def read (s : String) : Datum :=
  match readInt s with
  | some i => .num i
  | none => .sym s

def name? : Datum → Option String
  | .num _ => none
  | .sym s => some s

theorem read_text {v : Datum} (h : ∀ s, v.name? = some s → isName s = true) : read v.text = v := by
  cases v with
  | num i =>
    show read (toString i) = _
    rw [read, readInt_numeral]
  | sym s =>
    show read s = _
    rw [read, readInt_name (h s rfl)]

theorem text_word {v : Datum} (h : ∀ s, v.name? = some s → isName s = true) :
    isWord v.text = true := by
  cases v with
  | num i => exact isWord_int i
  | sym s => exact isWord_of_name (h s rfl)

end Datum

namespace Line

def ofWords : List String → Option Line
  | [".data"] => some .data
  | [".align", "2"] => some .align
  | [".globl", s] => some (.globl s)
  | [".word", v] => some (.word (Datum.read v))
  | [".byte", n] => return .byte (.ofNat (← readNat n))
  | _ => none

def quote : String := "\t.ascii\t\""

/-- A literal may have blanks in it, and goes to the last quotation mark. -/
def read (line : String) : Option Line :=
  match labelIn line with
  | some s => some (.label s)
  | none =>
    match after quote line with
    | some s => some (.ascii (String.ofList s.toList.dropLast))
    | none => ofWords (wordsOf line)

def names : Line → List String
  | .globl s | .label s => [s]
  | .word v => v.name?.toList
  | _ => []

def Plain (l : Line) : Prop := ∀ s ∈ l.names, isName s = true

theorem read_behind {mark s : String} {ws : List String} {c : Char} (lead : leads mark ws = true)
    (tab : mark.toList.head? = some '\t') (third : mark.toList[2]? = some c) (other : 'a' ≠ c)
    (word : isWord s = true) : read (mark ++ s) = ofWords (ws ++ [s]) := by
  have first : (mark ++ s).toList.head? = some '\t' := by
    rw [String.toList_append, List.head?_append, tab]
    rfl
  have inside : 2 < mark.toList.length := (List.getElem?_eq_some_iff.mp third).1
  have behind : (mark ++ s).toList[2]? = some c := by
    rw [String.toList_append, List.getElem?_append_left inside, third]
  have plain : after quote (mark ++ s) = none := after_none (by decide) behind other
  rw [read, labelIn_set first, plain]
  exact congrArg ofWords (words_behind lead (wordsOf_word word))

theorem read_text {l : Line} (h : l.Plain) : read l.text = some l := by
  cases l with
  | data | align => decide
  | label s => rw [read, text, labelIn_label (isWord_of_name (h _ (.head _)))]
  | ascii s =>
    have literal : (ascii s).text = quote ++ (s ++ "\"") := String.append_assoc
    have chars : (s ++ "\"").toList = s.toList ++ ['"'] := String.toList_append
    rw [literal, read, labelIn_set (by simp [quote, String.toList_append]), after_mark]
    show some (ascii _) = _
    rw [chars, List.dropLast_concat, String.ofList_toList]
  | globl s =>
    exact read_behind (by decide : leads "\t.globl\t" [".globl"] = true) rfl rfl (by decide)
      (isWord_of_name (h _ (.head _)))
  | word v =>
    have named : ∀ s, v.name? = some s → isName s = true := fun s hs =>
      h s (Option.mem_toList.mpr hs)
    have row := read_behind (by decide : leads "\t.word\t" [".word"] = true) rfl rfl (by decide)
      (Datum.text_word named)
    refine row.trans ?_
    show some (word (Datum.read v.text)) = _
    rw [Datum.read_text named]
  | byte b =>
    have row := read_behind (by decide : leads "\t.byte\t" [".byte"] = true) rfl rfl (by decide)
      (isWord_numeral b.toNat)
    refine row.trans ?_
    simp only [List.cons_append, List.nil_append, ofWords, readNat_numeral]
    exact congrArg (fun n => some (byte n)) UInt8.ofNat_toNat

end Line

section Lines

theorem oneLine_operation {m : String} {ops : List String} (h : OneLine m)
    (h' : ∀ o ∈ ops, OneLine o) : OneLine (operation m ops) :=
  (((by decide : OneLine "\t").append h).append (by decide)).append
    (OneLine.intercalate (by decide) h')

@[simp] theorem oneLine_reg (r : Reg) : OneLine r.text := oneLine_word r.text_word

@[simp] theorem oneLine_int (i : Int) : OneLine i.repr := oneLine_word (isWord_int i)

@[simp] theorem oneLine_nat (n : Nat) : OneLine n.repr := oneLine_word (isWord_numeral n)

@[simp] theorem oneLine_operand (b : Operand) : OneLine b.text := by
  cases b with
  | reg r => exact oneLine_reg r
  | imm i => exact oneLine_int i

@[simp] theorem oneLine_address (off : Int) (base : Reg) : OneLine (address off base) :=
  (((oneLine_int off).append (by decide)).append (oneLine_reg base)).append (by decide)

theorem Instr.oneLine {i : Instr} (h : i.Plain) : OneLine i.text := by
  have names s (hs : s ∈ i.names) := oneLine_word (isWord_of_name (h.names s hs))
  cases i with
  | label l => exact (names _ (.head _)).append (by decide)
  | arith op d a b =>
    cases op with
    | other m => cases h.known
    | _ => exact oneLine_operation (by decide) (by simp)
  | branch c a b l =>
    cases c with
    | other m => cases h.known
    | _ => exact oneLine_operation (by decide) (by simp [names l.text (.head _)])
  | la r s => exact oneLine_operation (by decide) (by simp [names s (.head _)])
  | jal s => exact oneLine_operation (by decide) (by simp [names s (.head _)])
  | goto l => exact oneLine_operation (by decide) (by simp [names l.text (.head _)])
  | _ => exact oneLine_operation (by decide) (by simp)

def Line.Closed : Line → Prop
  | .ascii s => OneLine s
  | _ => True

theorem Line.oneLine {l : Line} (h : l.Plain) (closed : l.Closed) : OneLine l.text := by
  have names s (hs : s ∈ l.names) := oneLine_word (isWord_of_name (h s hs))
  cases l with
  | data | align => decide
  | label s => exact (names s (.head _)).append (by decide)
  | globl s => exact (by decide : OneLine "\t.globl\t").append (names s (.head _))
  | ascii s => exact ((by decide : OneLine "\t.ascii\t\"").append closed).append (by decide)
  | byte b => exact (by decide : OneLine "\t.byte\t").append (oneLine_nat _)
  | word v =>
    have word : isWord v.text = true := Datum.text_word fun s hs => h s (Option.mem_toList.mpr hs)
    exact (by decide : OneLine "\t.word\t").append (oneLine_word word)

end Lines

namespace Assembly

def sectionLine : String := "\t.text"

def exportIn (line : String) : Option String :=
  match wordsOf line with
  | [".globl", s] => some s
  | _ => none

/-- The unit that has this text: the data, what is exported, and the code. -/
def read (text : String) : Option Assembly := do
  let lines := splitLines text
  let data ← (lines.takeWhile (· != sectionLine)).mapM Line.read
  let rest := (lines.dropWhile (· != sectionLine)).drop 1
  let code ← (rest.dropWhile fun l => (exportIn l).isSome).mapM Instr.read
  return ⟨data, (rest.takeWhile fun l => (exportIn l).isSome).filterMap exportIn, code⟩

/-- The unit with the labels in its code as a text has them. -/
def named (a : Assembly) : Assembly := { a with code := a.code.map Instr.named }

structure Plain (a : Assembly) : Prop where
  data : ∀ l ∈ a.data, l.Plain ∧ l.Closed
  exported : ∀ s ∈ a.exported, isName s = true
  code : ∀ i ∈ a.code, i.Plain

theorem exportIn_globl {s : String} (h : isName s = true) :
    exportIn (Line.globl s).text = some s := by
  have head : wordsOf "\t.globl\t" = [".globl"] := by decide
  rw [exportIn, Line.text, wordsOf_closed (by decide), head, wordsOf_word (isWord_of_name h)]
  rfl

theorem exportIn_code {i : Instr} (h : i.Plain) : exportIn i.text = none := by
  cases set : i.label? with
  | none =>
    rw [exportIn, Instr.text_words h set]
    cases i with
    | label l => cases set
    | arith op => cases op <;> first | rfl | cases h.known
    | branch c => cases c <;> first | rfl | cases h.known
    | _ => rfl
  | some l =>
    cases i with
    | label k =>
      have word : isWord (k.text ++ ":") = true :=
        isWord_append (isWord_of_name (h.names _ (.head _))) (by decide)
      rw [exportIn, Instr.text, wordsOf_word word]
      split
      · rename_i s same
        exact absurd (congrArg List.length same) (by simp)
      · rfl
    | _ => cases set

theorem data_unlike {l : Line} (h : l.Plain) : l.text ≠ sectionLine := by
  intro same
  have read := Line.read_text h
  rw [same] at read
  have unknown : Line.read sectionLine = none := by decide
  rw [unknown] at read
  cases read

theorem lines_oneLine {a : Assembly} (h : a.Plain) : ∀ l ∈ a.lines, OneLine l := by
  intro l hl
  rcases List.mem_append.mp hl with hl | code
  · rcases List.mem_append.mp hl with data | rest
    · obtain ⟨d, hd, rfl⟩ := List.mem_map.mp data
      exact Line.oneLine (h.data d hd).1 (h.data d hd).2
    · rcases List.mem_cons.mp rest with rfl | exported
      · decide
      · obtain ⟨s, hs, rfl⟩ := List.mem_map.mp exported
        exact Line.oneLine (l := .globl s) (by simpa [Line.Plain, Line.names] using h.exported s hs)
          trivial
  · obtain ⟨i, hi, rfl⟩ := List.mem_map.mp code
    exact Instr.oneLine (h.code i hi)

theorem read_text {a : Assembly} (h : a.Plain) : read a.text = some a.named := by
  have whole : splitLines a.text = a.data.map Line.text ++
      sectionLine :: (a.exported.map (fun s => (Line.globl s).text) ++ a.code.map Instr.text) := by
    rw [text, splitLines_join (lines_oneLine h), lines, List.append_assoc]
    rfl
  have data : ∀ l ∈ a.data.map Line.text, (l != sectionLine) = true := by
    intro l hl
    obtain ⟨d, hd, rfl⟩ := List.mem_map.mp hl
    exact bne_iff_ne.mpr (data_unlike (h.data d hd).1)
  have exports : ∀ l ∈ a.exported.map fun s => (Line.globl s).text,
      (exportIn l).isSome = true := by
    intro l hl
    obtain ⟨s, hs, rfl⟩ := List.mem_map.mp hl
    rw [exportIn_globl (h.exported s hs)]
    rfl
  have code : ∀ l ∈ a.code.map Instr.text, (exportIn l).isSome = false := by
    intro l hl
    obtain ⟨i, hi, rfl⟩ := List.mem_map.mp hl
    rw [exportIn_code (h.code i hi)]
    rfl
  have front : (splitLines a.text).takeWhile (· != sectionLine) = a.data.map Line.text := by
    rw [whole, List.takeWhile_append_of_pos data, List.takeWhile_cons_of_neg (by decide),
      List.append_nil]
  have back : ((splitLines a.text).dropWhile (· != sectionLine)).drop 1 =
      a.exported.map (fun s => (Line.globl s).text) ++ a.code.map Instr.text := by
    rw [whole, List.dropWhile_append_of_pos data, List.dropWhile_cons_of_neg (by decide)]
    rfl
  obtain ⟨upper, lower⟩ := while_split exports fun l hl => code l (List.mem_of_head? hl)
  have lines : (a.data.map Line.text).mapM Line.read = some a.data := by
    have := mapM_read (f := id) fun l hl => Line.read_text (h.data l hl).1
    simpa using this
  have instrs : (a.code.map Instr.text).mapM Instr.read = some (a.code.map Instr.named) :=
    mapM_read fun i hi => Instr.read_text (h.code i hi)
  have symbols : (a.exported.map fun s => (Line.globl s).text).filterMap exportIn = a.exported := by
    have each : ∀ s ∈ a.exported, (exportIn ∘ fun s => (Line.globl s).text) s = some s :=
      fun s hs => exportIn_globl (h.exported s hs)
    rw [List.filterMap_map, List.filterMap_congr each, List.filterMap_some]
  simp only [read, front, back, upper, lower, lines, instrs, symbols]
  rfl

end Assembly

section Units

open GlobalName Lowering

variable {t : ClassTable} {p : Pool} {a : Assembly}

theorem Assembled.defined_name (h : Assembled t p a) (spelled : t.Spelled) :
    ∀ s ∈ a.defined, isName s = true := by
  intro s there
  obtain ⟨x, hx, rfl⟩ := List.mem_map.mp ((defined_perm h).mem_iff.mp there)
  refine spelled.unitNames (by decide) (fun n hn => ?_) (fun k _ => classGlobals_sublist k) x hx
  rcases List.mem_append.mp hn with const | block
  · obtain ⟨c, _, rfl⟩ := List.mem_map.mp const
    exact c.spelled
  · obtain ⟨b, hb, rfl⟩ := List.mem_map.mp block
    have each : ∀ s ∈ blockHints, isWord s = true ∧ '_' ∈ s.toList := by decide
    exact each b.hint (h.hints b hb)

/-- Up to its closing quote a literal is printable. -/
theorem unquote_front {ds rest : List Char} {bytes : List UInt8}
    (h : Data.unquote ds = some (bytes, rest)) :
    ∃ front, ds = front ++ '"' :: rest ∧ '\n' ∉ front := by
  fun_induction Data.unquote ds generalizing bytes with
  | case1 c cs escaped ih =>
    obtain ⟨⟨bs, r⟩, read, same⟩ := Option.map_eq_some_iff.mp h
    cases same
    obtain ⟨front, rfl, closed⟩ := ih read
    refine ⟨'\\' :: c :: front, rfl, ?_⟩
    rcases escaped with rfl | rfl <;> simpa using closed
  | case3 cs =>
    cases h
    exact ⟨[], rfl, List.not_mem_nil⟩
  | case4 c cs _ open_ printable ih =>
    obtain ⟨⟨bs, r⟩, read, same⟩ := Option.map_eq_some_iff.mp h
    cases same
    obtain ⟨front, rfl, closed⟩ := ih read
    refine ⟨c :: front, rfl, fun inside => ?_⟩
    rcases List.mem_cons.mp inside with rfl | inside
    · exact absurd printable (by decide)
    · exact closed inside
  | case2 | case5 | case6 => cases h

theorem unquote_oneLine {cs : List Char} {bytes : List UInt8}
    (h : Data.unquote (cs ++ ['"']) = some (bytes, [])) : '\n' ∉ cs := by
  obtain ⟨front, same, closed⟩ := unquote_front h
  rwa [List.append_cancel_right same]

theorem vocabulary_names : ∀ s ∈ vocabulary.others, isName s = true := by decide

theorem Assembled.label_name (h : Assembled t p a) (spelled : t.Spelled) {l : Label}
    (hl : .label l ∈ a.code) : isName l.text = true :=
  h.defined_name spelled _ (List.mem_append_right _ (List.mem_map_of_mem
    (List.mem_filterMap.mpr ⟨_, hl, rfl⟩)))

theorem Assembled.target_name (h : Assembled t p a) (spelled : t.Spelled) {i : Instr}
    (hi : i ∈ a.code) {l : Label} (hl : l ∈ i.targets) : isName l.text = true := by
  obtain ⟨fs, whole, contained⟩ := h.branches
  obtain ⟨f, hf, inside⟩ := List.mem_flatten.mp (whole ▸ hi)
  refine h.label_name spelled ?_
  rw [whole]
  exact List.mem_flatten.mpr ⟨f, hf, (contained f hf).lands i inside l hl⟩

theorem Assembled.line_plain (h : Assembled t p a) (ht : t.Conventional) (spelled : t.Spelled)
    {l : Line} (hl : l ∈ a.data) : l.Plain := by
  obtain ⟨gcTest, data⟩ := h.data
  have referred {s : String} (refers : l.reference? = some s) : isName s = true :=
    (Data.emit_known ht h.measured data l hl s refers).name vocabulary_names ht spelled
  intro s hs
  cases l with
  | label r =>
    cases List.mem_singleton.mp hs
    exact h.defined_name spelled _ (List.mem_append_left _ (List.mem_filterMap.mpr ⟨_, hl, rfl⟩))
  | globl r =>
    cases List.mem_singleton.mp hs
    exact referred rfl
  | word v =>
    cases v with
    | num => cases hs
    | sym r =>
      cases List.mem_singleton.mp hs
      exact referred rfl
  | _ => cases hs

theorem Assembled.line_closed (h : Assembled t p a) {l : Line} (hl : l ∈ a.data) : l.Closed := by
  obtain ⟨gcTest, data⟩ := h.data
  obtain ⟨image, there⟩ := Data.emit_laidOut data
  cases l with
  | ascii s =>
    obtain ⟨bytes, read⟩ := Data.literal_closed there hl
    exact unquote_oneLine read
  | _ => trivial

theorem Assembled.instr_plain (h : Assembled t p a) (ht : t.Conventional) (spelled : t.Spelled)
    {i : Instr} (hi : i ∈ a.code) : i.Plain := by
  refine ⟨h.operations i hi, fun s hs => ?_⟩
  have referred (refers : i.reference? = some s) : isName s = true :=
    (h.references i hi s refers).name vocabulary_names ht spelled
  cases i with
  | label l =>
    cases List.mem_singleton.mp hs
    exact h.label_name spelled hi
  | la r f | jal f =>
    cases List.mem_singleton.mp hs
    exact referred rfl
  | goto l | branch c b d l =>
    cases List.mem_singleton.mp hs
    exact h.target_name spelled hi (.head _)
  | _ => cases hs

theorem Assembled.plain (h : Assembled t p a) (ht : t.Conventional) (spelled : t.Spelled) :
    a.Plain where
  data _ hl := ⟨h.line_plain ht spelled hl, h.line_closed hl⟩
  exported s hs := by
    rw [h.exported] at hs
    rcases entryPoints_nameable (p := p) ht hs with other | function
    · exact other.name vocabulary_names ht spelled
    · exact h.defined_name spelled s (h.functions function)
  code _ hi := h.instr_plain ht spelled hi

/-- The text of a compiled program is read back as the unit that was assembled. -/
theorem compile_read {q : Program} (conventional : q.Conventional) (spelled : q.Spelled)
    {gcTest : Bool} {source text : String} (h : compile q .mips gcTest source = .ok text) :
    ∃ t a, ClassTable.build q.withBuiltins = .ok t ∧ assemble gcTest t = .ok a ∧
      Assembly.read text = some a.named := by
  obtain ⟨t, a, built, assembled, rfl⟩ := compile_mips_ok.mp h
  obtain ⟨p, made⟩ := assemble_assembled built assembled
  exact ⟨t, a, built, assembled,
    Assembly.read_text (made.plain (conventional.table built) (spelled.table built))⟩

end Units

end ClassBackend.Mips
