import ClassBackend.Proofs.FreshNames
import ClassBackend.Proofs.Llvm.Closed
import ClassBackend.Proofs.Llvm.SingleAssignment

/-! Reading LLVM IR back. A line that is printed is taken apart into its words, and they name the
instruction; the text of a function is its blocks again, as far as a text shows them: there a
constant is a symbol like any other. -/
namespace ClassBackend.Llvm

namespace Ty

def read (s : String) : Option Ty :=
  if s = "i64" then some .i64 else if s = "ptr" then some .ptr else none

theorem read_text (ty : Ty) : read ty.text = some ty := by
  cases ty <;> decide

theorem words (ty : Ty) : wordsOf ty.text = [ty.text] := by
  cases ty <;> decide

end Ty

namespace Operand

def named : Operand → Operand
  | .const c => .symbol c.label
  | o => o

def readLocal (s : String) : Option Operand :=
  match readNumbered s with
  | some ("t", n) => some (.temp ⟨n⟩)
  | some ("arg", n) => some (.arg n)
  | _ => if s = "self" then some .self else none

def read (s : String) : Option Operand :=
  if s = "null" then some .null
  else match after "@" s, after "%" s with
    | some name, _ => some (.symbol name)
    | none, some name => readLocal name
    | none, none => (readInt s).map .int

theorem read_text (o : Operand) : read o.text = some o.named := by
  have inside (s : String) : read ("%" ++ s) = readLocal s := by
    have front : ("%" ++ s).toList[0]? = some '%' := by simp [String.toList_append]
    have other : "%" ++ s ≠ "null" := fun same => by simp [same] at front
    rw [read, if_neg other, after_none (c := '@') rfl front (by decide), after_mark]
  have global (s : String) : read ("@" ++ s) = some (.symbol s) := by
    have front : ("@" ++ s).toList[0]? = some '@' := by simp [String.toList_append]
    have other : "@" ++ s ≠ "null" := fun same => by simp [same] at front
    rw [read, if_neg other, after_mark]
  cases o with
  | null => decide
  | self => decide
  | arg i =>
    have whole : (arg i).text = "%" ++ ("arg" ++ toString i) := by
      rw [← String.append_assoc]
      rfl
    rw [whole, inside, readLocal, readNumbered_numbered (by decide)]
    rfl
  | temp t =>
    show read ("%" ++ ("t" ++ toString t.id)) = _
    rw [inside, readLocal, readNumbered_numbered (by decide)]
    rfl
  | const c => exact global _
  | symbol s => exact global s
  | int v =>
    obtain ⟨c, rest, chars, numeric⟩ := integer_head v
    have front : (toString v).toList[0]? = some c := congrArg (·[0]?) chars
    have other {d : Char} (letter : d.isDigit = false) (sign : d ≠ '-') : d ≠ c := by
      rintro rfl
      rcases numeric with rfl | digit
      · exact sign rfl
      · rw [letter] at digit
        cases digit
    have plain : toString v ≠ "null" := by
      intro same
      rw [same] at front
      exact other (by decide) (by decide) (Option.some.inj front)
    show read (toString v) = _
    rw [read, if_neg plain, after_none rfl front (other (by decide) (by decide)),
      after_none rfl front (other (by decide) (by decide)), readInt_numeral]
    rfl

def Plain : Operand → Prop
  | .symbol s => isWord s = true
  | _ => True

theorem isWord_text {o : Operand} (h : o.Plain) : isWord o.text = true := by
  cases o with
  | self | null => decide
  | arg i => exact isWord_append (by decide) (isWord_numeral i)
  | temp t => exact isWord_append (by decide) (isWord_append (by decide) (isWord_numeral t.id))
  | symbol s => exact isWord_append (by decide) h
  | int v => exact isWord_int v
  | const c =>
    refine isWord_append (by decide) ?_
    cases c with
    | int i | str i => exact isWord_append (by decide) (isWord_numeral i)
    | bool b => cases b <;> decide

theorem words {o : Operand} (h : o.Plain) : wordsOf o.text = [o.text] :=
  wordsOf_word (isWord_text h)

end Operand

namespace Label

def Plain : Label → Prop
  | .entry => True
  | .block b => isWord b.hint = true ∧ plainEnd b.hint = true

def read (s : String) : Option Label :=
  if s = "entry" then some .entry
  else (readNumbered s).map fun (hint, n) => .block ⟨hint, n⟩

def readTarget (s : String) : Option Label := (after "%" s).bind read

theorem read_text {l : Label} (h : l.Plain) : read l.text = some l := by
  cases l with
  | entry => rfl
  | block b =>
    have other : b.hint ++ toString b.id ≠ "entry" := fun same => by
      have plain := numbered_not_plainEnd b.hint b.id
      rw [same] at plain
      cases plain
    show read (b.hint ++ toString b.id) = _
    rw [read, if_neg other, readNumbered_numbered h.2]
    rfl

theorem readTarget_text {l : Label} (h : l.Plain) : readTarget ("%" ++ l.text) = some l := by
  rw [readTarget, after_mark, Option.bind_some, read_text h]

theorem isWord_text {l : Label} (h : l.Plain) : isWord l.text = true := by
  cases l with
  | entry => decide
  | block b => exact isWord_append h.1 (isWord_numeral b.id)

theorem words {l : Label} (h : l.Plain) : wordsOf ("%" ++ l.text) = ["%" ++ l.text] :=
  wordsOf_word (isWord_append (by decide) (isWord_text h))

end Label

def argsNamed (args : List (Ty × Operand)) : List (Ty × Operand) :=
  args.map fun a => (a.1, a.2.named)

def argsWords (args : List (Ty × Operand)) : List String :=
  args.flatMap fun a => [a.1.text, a.2.text]

def readArgs : List String → Option (List (Ty × Operand)) := readPairs Ty.read Operand.read

section Calls

variable {args : List (Ty × Operand)} {callee : Operand} {s : String}

theorem readArgs_words (args : List (Ty × Operand)) :
    readArgs (argsWords args) = some (argsNamed args) :=
  readPairs_row fun a _ => ⟨a.1.read_text, a.2.read_text⟩

theorem typed_words {a : Ty × Operand} (h : a.2.Plain) :
    wordsOf (typed a) = [a.1.text, a.2.text] :=
  words_around (by decide : parts " " [] = true) a.1.words (Operand.words h)

theorem callText_words (result : wordsOf s = [s]) (hc : callee.Plain)
    (ha : ∀ a ∈ args, a.2.Plain) :
    wordsOf (callText s callee args) = "call" :: s :: callee.text :: argsWords args := by
  have row : wordsOf (commas (args.map typed)) = argsWords args := by
    rw [commas, wordsOf_intercalate (by decide) (by decide) (by decide), List.flatMap_map]
    exact List.flatMap_congr fun a inside => typed_words (ha a inside)
  have front := words_around (by decide : parts "(" [] = true)
    (words_around (by decide : parts " " [] = true)
      (words_behind (by decide : leads "call " ["call"] = true) result) (Operand.words hc)) row
  rw [callText, wordsOf_opened (by decide), front]
  exact List.append_nil _

end Calls

namespace Rhs

def named : Rhs → Rhs
  | .load ty p => .load ty p.named
  | .element s p i => .element s p.named i
  | .row s p i => .row s p.named i.named
  | .entry p i => .entry p.named i
  | .arith op a b => .arith op a.named b.named
  | .compare op ty a b => .compare op ty a.named b.named
  | .phi incoming => .phi (incoming.map fun x => (x.1.named, x.2))
  | .call result callee args => .call result callee.named (argsNamed args)

def words : Rhs → List String
  | .load ty p => ["load", ty.text, "ptr", p.text]
  | .element s p i =>
    ["getelementptr", Linkage.struct s, "ptr", p.text, "i32", "0", "i32", toString i]
  | .row s p i => ["getelementptr", Linkage.struct s, "ptr", p.text, "i64", i.text]
  | .entry p i => ["getelementptr", "ptr", "ptr", p.text, "i64", toString i]
  | .arith op a b => [opcode op, "i64", a.text, b.text]
  | .compare op ty a b => ["icmp", condition op, ty.text, a.text, b.text]
  | .phi incoming => "phi" :: "ptr" :: incoming.flatMap fun x => [x.1.text, "%" ++ x.2.text]
  | .call result callee args => "call" :: result.text :: callee.text :: argsWords args

def ofWords : List String → Option Rhs
  | ["load", ty, "ptr", p] => return .load (← Ty.read ty) (← Operand.read p)
  | ["getelementptr", s, "ptr", p, "i32", "0", "i32", i] =>
    return .element (← after "%" s) (← Operand.read p) (← readNat i)
  | ["getelementptr", s, "ptr", p, "i64", i] =>
    match after "%" s with
    | some s => return .row s (← Operand.read p) (← Operand.read i)
    | none => return .entry (← Operand.read p) (← readNat i)
  | ["add", "i64", a, b] => return .arith .add (← Operand.read a) (← Operand.read b)
  | ["sub", "i64", a, b] => return .arith .sub (← Operand.read a) (← Operand.read b)
  | ["mul", "i64", a, b] => return .arith .mul (← Operand.read a) (← Operand.read b)
  | ["sdiv", "i64", a, b] => return .arith .div (← Operand.read a) (← Operand.read b)
  | ["icmp", "eq", ty, a, b] =>
    return .compare .eq (← Ty.read ty) (← Operand.read a) (← Operand.read b)
  | ["icmp", "slt", ty, a, b] =>
    return .compare .lt (← Ty.read ty) (← Operand.read a) (← Operand.read b)
  | ["icmp", "sle", ty, a, b] =>
    return .compare .le (← Ty.read ty) (← Operand.read a) (← Operand.read b)
  | ["icmp", "sgt", ty, a, b] =>
    return .compare .gt (← Ty.read ty) (← Operand.read a) (← Operand.read b)
  | "phi" :: "ptr" :: incoming => return .phi (← readPairs Operand.read Label.readTarget incoming)
  | "call" :: result :: callee :: args =>
    return .call (← Ty.read result) (← Operand.read callee) (← readArgs args)
  | _ => none

def Plain : Rhs → Prop
  | .load _ p | .entry p _ => p.Plain
  | .element s p _ => isWord s = true ∧ p.Plain
  | .row s p i => isWord s = true ∧ p.Plain ∧ i.Plain
  | .arith _ a b | .compare _ _ a b => a.Plain ∧ b.Plain
  | .phi incoming => ∀ x ∈ incoming, x.1.Plain ∧ x.2.Plain
  | .call _ callee args => callee.Plain ∧ ∀ a ∈ args, a.2.Plain

theorem incoming_words {x : Operand × Label} (hv : x.1.Plain) (hl : x.2.Plain) :
    wordsOf ("[ " ++ x.1.text ++ ", %" ++ x.2.text ++ " ]") = [x.1.text, "%" ++ x.2.text] := by
  have marked : "[ " ++ x.1.text ++ ", %" ++ x.2.text =
      "[ " ++ x.1.text ++ ", " ++ ("%" ++ x.2.text) := by
    rw [show ", %" = ", " ++ "%" from rfl, String.append_assoc, String.append_assoc]
    simp only [String.append_assoc]
  rw [marked, wordsOf_opened (by decide)]
  rw [words_around (by decide : parts ", " [] = true)
    (words_behind (by decide : leads "[ " [] = true) (Operand.words hv)) (Label.words hl)]
  rfl

theorem struct_words {s : String} (h : isWord s = true) :
    wordsOf (Linkage.struct s) = [Linkage.struct s] :=
  wordsOf_word (isWord_append (by decide) h)

theorem nat_words (n : Nat) : wordsOf (toString n) = [toString n] := wordsOf_word (isWord_numeral n)

theorem text_words {r : Rhs} (h : r.Plain) : wordsOf r.text = r.words := by
  cases r with
  | load ty p =>
    exact words_around (by decide : parts ", ptr " ["ptr"] = true)
      (words_behind (by decide : leads "load " ["load"] = true) ty.words) (Operand.words h)
  | element s p i =>
    exact words_around (by decide : parts ", i32 0, i32 " ["i32", "0", "i32"] = true)
      (words_around (by decide : parts ", ptr " ["ptr"] = true)
        (words_behind (by decide : leads "getelementptr " ["getelementptr"] = true)
          (struct_words h.1)) (Operand.words h.2)) (nat_words i)
  | row s p i =>
    exact words_around (by decide : parts ", i64 " ["i64"] = true)
      (words_around (by decide : parts ", ptr " ["ptr"] = true)
        (words_behind (by decide : leads "getelementptr " ["getelementptr"] = true)
          (struct_words h.1)) (Operand.words h.2.1)) (Operand.words h.2.2)
  | entry p i =>
    exact words_around (by decide : parts ", i64 " ["i64"] = true)
      (words_behind (by decide :
        leads "getelementptr ptr, ptr " ["getelementptr", "ptr", "ptr"] = true)
        (Operand.words h)) (nat_words i)
  | arith op a b =>
    have code : wordsOf (opcode op) = [opcode op] := by cases op <;> decide
    exact words_around (by decide : parts ", " [] = true)
      (words_around (by decide : parts " i64 " ["i64"] = true) code (Operand.words h.1))
      (Operand.words h.2)
  | compare op ty a b =>
    have code : wordsOf (condition op) = [condition op] := by cases op <;> decide
    exact words_around (by decide : parts ", " [] = true)
      (words_around (by decide : parts " " [] = true)
        (words_around (by decide : parts " " [] = true)
          (words_behind (by decide : leads "icmp " ["icmp"] = true) code) ty.words)
        (Operand.words h.1)) (Operand.words h.2)
  | phi incoming =>
    have row : wordsOf (commas (incoming.map fun x =>
        "[ " ++ x.1.text ++ ", %" ++ x.2.text ++ " ]")) =
        incoming.flatMap fun x => [x.1.text, "%" ++ x.2.text] := by
      rw [commas, wordsOf_intercalate (by decide) (by decide) (by decide), List.flatMap_map]
      exact List.flatMap_congr fun x inside => incoming_words (h x inside).1 (h x inside).2
    exact words_behind (by decide : leads "phi ptr " ["phi", "ptr"] = true) row
  | call result callee args => exact callText_words result.words h.1 h.2

theorem ofWords_words {r : Rhs} (h : r.Plain) : ofWords r.words = some r.named := by
  cases r with
  | load ty p =>
    simp only [words, ofWords, Ty.read_text, Operand.read_text]
    rfl
  | element s p i =>
    simp only [words, ofWords, Linkage.struct, after_mark, Operand.read_text, readNat_numeral]
    rfl
  | row s p i =>
    simp only [words, ofWords, Linkage.struct, after_mark, Operand.read_text]
    rfl
  | entry p i =>
    have pointer : after "%" "ptr" = none := by decide
    simp only [words, ofWords, pointer, Operand.read_text, readNat_numeral]
    rfl
  | arith op a b =>
    cases op <;>
    · simp only [words, opcode, ofWords, Operand.read_text]
      rfl
  | compare op ty a b =>
    cases op <;>
    · simp only [words, condition, ofWords, Ty.read_text, Operand.read_text]
      rfl
  | phi incoming =>
    have row : readPairs Operand.read Label.readTarget
        (incoming.flatMap fun x => [x.1.text, "%" ++ x.2.text]) =
          some (incoming.map fun x => (x.1.named, x.2)) :=
      readPairs_row fun x inside => ⟨x.1.read_text, Label.readTarget_text (h x inside).2⟩
    simp only [words, ofWords, row]
    rfl
  | call result callee args =>
    simp only [words, ofWords, Ty.read_text, Operand.read_text, readArgs_words]
    rfl

end Rhs

namespace Instr

def named : Instr → Instr
  | .assign t rhs => .assign t rhs.named
  | .store ty v p => .store ty v.named p.named
  | .callVoid callee args => .callVoid callee.named (argsNamed args)
  | .condBr c yes no => .condBr c.named yes no
  | .ret v => .ret v.named
  | i => i

def words : Instr → List String
  | .assign t rhs => ("%" ++ t.text) :: "=" :: rhs.words
  | .store ty v p => ["store", ty.text, v.text, "ptr", p.text]
  | .callVoid callee args => "call" :: "void" :: callee.text :: argsWords args
  | .br l => ["br", "label", "%" ++ l.text]
  | .condBr c yes no => ["br", "i1", c.text, "label", "%" ++ yes.text, "label", "%" ++ no.text]
  | .ret v => ["ret", "ptr", v.text]
  | .unreachable => ["unreachable"]

def readTemp (s : String) : Option Temp :=
  match Operand.read s with
  | some (.temp t) => some t
  | _ => none

def ofRow : List String → Option Instr
  | ["store", ty, v, "ptr", p] =>
    return .store (← Ty.read ty) (← Operand.read v) (← Operand.read p)
  | "call" :: "void" :: callee :: args =>
    return .callVoid (← Operand.read callee) (← readArgs args)
  | ["br", "label", l] => return .br (← Label.readTarget l)
  | ["br", "i1", c, "label", yes, "label", no] =>
    return .condBr (← Operand.read c) (← Label.readTarget yes) (← Label.readTarget no)
  | ["ret", "ptr", v] => return .ret (← Operand.read v)
  | ["unreachable"] => some .unreachable
  | _ => none

def ofWords (ws : List String) : Option Instr :=
  match ws.head?.bind readTemp with
  | some t => (Rhs.ofWords (ws.drop 2)).map (.assign t)
  | none => ofRow ws

def read (line : String) : Option Instr := ofWords (wordsOf line)

structure Plain (i : Instr) : Prop where
  reads : ∀ v ∈ i.reads, v.Plain
  labels : ∀ l ∈ i.targets ++ i.incoming.map (·.2), l.Plain
  structs : ∀ s ∈ i.structs, isWord s = true

theorem Plain.rhs {t : Temp} {r : Rhs} (h : (assign t r).Plain) : r.Plain := by
  obtain ⟨reads, labels, structs⟩ := h
  cases r with
  | phi incoming =>
    exact fun x inside =>
      ⟨reads _ (List.mem_map_of_mem inside), labels _ (List.mem_map_of_mem inside)⟩
  | call result callee args =>
    refine ⟨reads callee (.head _), fun a ha => reads a.2 ?_⟩
    exact .tail _ (List.mem_append_left _ (List.mem_map_of_mem ha))
  | load _ p | entry p _ => exact reads p (.head _)
  | element s p _ => exact ⟨structs s (.head _), reads p (.head _)⟩
  | row s p i => exact ⟨structs s (.head _), reads p (.head _), reads i (.tail _ (.head _))⟩
  | arith _ a b | compare _ _ a b => exact ⟨reads a (.head _), reads b (.tail _ (.head _))⟩

theorem temp_words (t : Temp) : wordsOf ("%" ++ t.text) = ["%" ++ t.text] :=
  Operand.words (o := .temp t) trivial

theorem text_words {i : Instr} (h : i.Plain) : wordsOf i.text = i.words := by
  have reads := h.reads
  have labels := h.labels
  cases i with
  | assign t rhs =>
    exact words_around (by decide : parts " = " ["="] = true) (temp_words t) (Rhs.text_words h.rhs)
  | store ty v p =>
    exact words_around (by decide : parts ", ptr " ["ptr"] = true)
      (words_around (by decide : parts " " [] = true)
        (words_behind (by decide : leads "store " ["store"] = true) ty.words)
        (Operand.words (reads v (.head _))))
      (Operand.words (reads p (.tail _ (.head _))))
  | callVoid callee args =>
    refine callText_words (by decide) (reads callee (.head _)) fun a ha => reads a.2 ?_
    exact .tail _ (List.mem_append_left _ (List.mem_map_of_mem ha))
  | br l =>
    have marked : (br l).text = "br label " ++ ("%" ++ l.text) := by
      rw [text, show "br label %" = "br label " ++ "%" from rfl, String.append_assoc]
    rw [marked]
    exact words_behind (by decide : leads "br label " ["br", "label"] = true)
      (Label.words (labels l (.head _)))
  | condBr c yes no =>
    have marked : (condBr c yes no).text =
        "br i1 " ++ c.text ++ ", label " ++ ("%" ++ yes.text) ++ ", label " ++
          ("%" ++ no.text) := by
      rw [text, show ", label %" = ", label " ++ "%" from rfl]
      simp only [String.append_assoc]
    rw [marked]
    exact words_around (by decide : parts ", label " ["label"] = true)
      (words_around (by decide : parts ", label " ["label"] = true)
        (words_behind (by decide : leads "br i1 " ["br", "i1"] = true)
          (Operand.words (reads c (.head _))))
        (Label.words (labels yes (.head _))))
      (Label.words (labels no (.tail _ (.head _))))
  | ret v =>
    exact words_behind (by decide : leads "ret ptr " ["ret", "ptr"] = true)
      (Operand.words (reads v (.head _)))
  | unreachable => decide

theorem readTemp_text (t : Temp) : readTemp ("%" ++ t.text) = some t := by
  have operand : Operand.read ("%" ++ t.text) = some (.temp t) := Operand.read_text (.temp t)
  rw [readTemp, operand]

theorem ofWords_row {w : String} {ws : List String} (plain : readTemp w = none) :
    ofWords (w :: ws) = ofRow (w :: ws) := by
  show (match readTemp w with | some t => _ | none => _) = _
  rw [plain]

theorem ofWords_words {i : Instr} (h : i.Plain) : ofWords i.words = some i.named := by
  have labels := h.labels
  cases i with
  | assign t rhs =>
    show (match readTemp ("%" ++ t.text) with
      | some t => (Rhs.ofWords rhs.words).map (assign t)
      | none => _) = _
    rw [readTemp_text, Rhs.ofWords_words h.rhs]
    rfl
  | br l =>
    rw [words, ofWords_row (by decide), ofRow, Label.readTarget_text (labels l (.head _))]
    rfl
  | condBr c yes no =>
    rw [words, ofWords_row (by decide), ofRow, Operand.read_text,
      Label.readTarget_text (labels yes (.head _)),
      Label.readTarget_text (labels no (.tail _ (.head _)))]
    rfl
  | store ty v p =>
    rw [words, ofWords_row (by decide), ofRow, Ty.read_text, Operand.read_text, Operand.read_text]
    rfl
  | callVoid callee args =>
    rw [words, ofWords_row (by decide), ofRow, Operand.read_text, readArgs_words]
    rfl
  | ret v =>
    rw [words, ofWords_row (by decide), ofRow, Operand.read_text]
    rfl
  | unreachable => decide

theorem read_text {i : Instr} (h : i.Plain) : read i.text = some i.named := by
  rw [read, text_words h, ofWords_words h]

example : read "store ptr %t1, ptr %t2" = some (.store .ptr (.temp ⟨1⟩) (.temp ⟨2⟩)) := by decide

end Instr

section Lines

theorem Ty.oneLine (ty : Ty) : OneLine ty.text := by
  cases ty <;> decide

theorem Operand.oneLine {v : Operand} (h : v.Plain) : OneLine v.text :=
  oneLine_word (isWord_text h)

theorem Label.oneLine {l : Label} (h : l.Plain) : OneLine l.text := oneLine_word (isWord_text h)

theorem callText_oneLine {s : String} {callee : Operand} {args : List (Ty × Operand)}
    (result : OneLine s) (hc : callee.Plain) (ha : ∀ a ∈ args, a.2.Plain) :
    OneLine (callText s callee args) := by
  have row : OneLine (commas (args.map typed)) := by
    refine .intercalate (by decide) fun w hw => ?_
    obtain ⟨a, inside, rfl⟩ := List.mem_map.mp hw
    exact (a.1.oneLine.append (by decide)).append (Operand.oneLine (ha a inside))
  have front := (((by decide : OneLine "call ").append result).append (by decide : OneLine " "))
  exact (((front.append (Operand.oneLine hc)).append (by decide)).append row).append (by decide)

theorem Rhs.oneLine {r : Rhs} (h : r.Plain) : OneLine r.text := by
  have numeral (n : Nat) : OneLine (toString n) := oneLine_word (isWord_numeral n)
  have struct {s : String} (hs : isWord s = true) : OneLine (Linkage.struct s) :=
    .append (by decide) (oneLine_word hs)
  have address : OneLine "getelementptr " := by decide
  have pointer : OneLine ", ptr " := by decide
  cases r with
  | load ty p =>
    exact (((by decide : OneLine "load ").append ty.oneLine).append (by decide)).append
      (Operand.oneLine h)
  | element s p i =>
    have base := ((address.append (struct h.1)).append pointer).append (Operand.oneLine h.2)
    exact (base.append (by decide)).append (numeral i)
  | row s p i =>
    have base := ((address.append (struct h.1)).append pointer).append (Operand.oneLine h.2.1)
    exact (base.append (by decide)).append (Operand.oneLine h.2.2)
  | entry p i =>
    have base := (by decide : OneLine "getelementptr ptr, ptr ").append (Operand.oneLine h)
    exact (base.append (by decide)).append (numeral i)
  | arith op a b =>
    have code : OneLine (opcode op) := by cases op <;> decide
    exact (((code.append (by decide)).append (Operand.oneLine h.1)).append (by decide)).append
      (Operand.oneLine h.2)
  | compare op ty a b =>
    have code : OneLine (condition op) := by cases op <;> decide
    have front := (((by decide : OneLine "icmp ").append code).append
      (by decide : OneLine " ")).append ty.oneLine
    exact (((front.append (by decide)).append (Operand.oneLine h.1)).append (by decide)).append
      (Operand.oneLine h.2)
  | phi incoming =>
    refine .append (by decide) (.intercalate (by decide) fun w hw => ?_)
    obtain ⟨x, inside, rfl⟩ := List.mem_map.mp hw
    have value := (by decide : OneLine "[ ").append (Operand.oneLine (h x inside).1)
    exact ((value.append (by decide)).append (Label.oneLine (h x inside).2)).append (by decide)
  | call result callee args => exact callText_oneLine result.oneLine h.1 h.2

theorem Instr.oneLine {i : Instr} (h : i.Plain) : OneLine i.text := by
  have reads v (hv : v ∈ i.reads) := Operand.oneLine (h.reads v hv)
  have labels l (hl : l ∈ i.targets ++ i.incoming.map (·.2)) := Label.oneLine (h.labels l hl)
  cases i with
  | assign t rhs =>
    exact ((Operand.oneLine (v := .temp t) trivial).append (by decide)).append (Rhs.oneLine h.rhs)
  | store ty v p =>
    have front := ((by decide : OneLine "store ").append ty.oneLine).append
      (by decide : OneLine " ")
    exact ((front.append (reads v (.head _))).append (by decide)).append
      (reads p (.tail _ (.head _)))
  | callVoid callee args =>
    refine callText_oneLine (by decide) (h.reads callee (.head _)) fun a ha => h.reads a.2 ?_
    exact .tail _ (List.mem_append_left _ (List.mem_map_of_mem ha))
  | br l => exact .append (by decide) (labels l (.head _))
  | condBr c yes no =>
    have front := (by decide : OneLine "br i1 ").append (reads c (.head _))
    exact (((front.append (by decide)).append (labels yes (.head _))).append (by decide)).append
      (labels no (.tail _ (.head _)))
  | ret v => exact .append (by decide) (reads v (.head _))
  | unreachable => decide

namespace Line

def named : Line → Line
  | .alloca t => .alloca t
  | .instr i => .instr i.named

def Plain : Line → Prop
  | .alloca _ => True
  | .instr i => i.Plain

def read (s : String) : Option Line :=
  match Instr.ofWords (wordsOf s), wordsOf s with
  | some i, _ => some (.instr i)
  | none, [t, "=", "alloca", "ptr"] => (Instr.readTemp t).map .alloca
  | none, _ => none

theorem read_text {l : Line} (h : l.Plain) : read l.text = some l.named := by
  cases l with
  | alloca t =>
    have words : wordsOf ("%" ++ t.text ++ " = alloca ptr") =
        ["%" ++ t.text, "=", "alloca", "ptr"] := by
      rw [wordsOf_opened (by decide), Instr.temp_words]
      rfl
    have other : Instr.ofWords ["%" ++ t.text, "=", "alloca", "ptr"] = none := by
      show (match Instr.readTemp ("%" ++ t.text) with
        | some t => (Rhs.ofWords ["alloca", "ptr"]).map (Instr.assign t)
        | none => _) = _
      rw [Instr.readTemp_text]
      rfl
    show read ("%" ++ t.text ++ " = alloca ptr") = _
    rw [read, words, other]
    show (Instr.readTemp ("%" ++ t.text)).map alloca = _
    rw [Instr.readTemp_text]
    rfl
  | instr i =>
    show read i.text = _
    rw [read, Instr.text_words h, Instr.ofWords_words h]
    rfl

theorem oneLine {l : Line} (h : l.Plain) : OneLine l.text := by
  cases l with
  | alloca t => exact (Operand.oneLine (v := .temp t) trivial).append (by decide)
  | instr i => exact Instr.oneLine h

end Line

namespace Passage

def named (c : Passage) : Passage := ⟨c.label, c.lines.map Line.named⟩

structure Plain (c : Passage) : Prop where
  label : c.label.Plain
  lines : ∀ l ∈ c.lines, l.Plain

/-- The lines before the first label, and the blocks behind it. -/
def readRows : List String → Option (List Line × List Passage)
  | [] => some ([], [])
  | row :: rows => do
    let (lines, blocks) ← readRows rows
    match after "  " row with
    | some l => return ((← Line.read l) :: lines, blocks)
    | none => return ([], ⟨← (labelIn row).bind Label.read, lines⟩ :: blocks)

def rows (c : Passage) : List String :=
  (c.label.text ++ ":") :: c.lines.map fun l => "  " ++ l.text

theorem readRows_lines {ls : List Line} (h : ∀ l ∈ ls, l.Plain) {rows : List String}
    {cs : List Passage} (rest : readRows rows = some ([], cs)) :
    readRows (ls.map (fun l => "  " ++ l.text) ++ rows) = some (ls.map Line.named, cs) := by
  induction ls with
  | nil => exact rest
  | cons l ls ih =>
    rw [List.map_cons, List.cons_append, readRows, ih fun k hk => h k (.tail _ hk)]
    simp only [Option.bind_eq_bind, Option.bind_some, after_mark, Line.read_text (h l (.head _))]
    rfl

theorem readRows_rows {cs : List Passage} (h : ∀ c ∈ cs, c.Plain) :
    readRows (cs.flatMap rows) = some ([], cs.map named) := by
  induction cs with
  | nil => rfl
  | cons c cs ih =>
    have plain := h c (.head _)
    have label := Label.isWord_text plain.label
    have front : after "  " (c.label.text ++ ":") = none := by
      cases chars : c.label.text.toList with
      | nil => simp [isWord, chars] at label
      | cons d ds =>
        have head : (c.label.text ++ ":").toList[0]? = some d := by
          rw [String.toList_append, chars]
          rfl
        refine after_none (c := ' ') rfl head ?_
        rintro rfl
        exact notMem_word label (by decide) (chars ▸ List.mem_cons_self)
    have rest := readRows_lines plain.lines (ih fun d hd => h d (.tail _ hd))
    rw [List.flatMap_cons, rows, List.cons_append, readRows, rest]
    simp only [Option.bind_eq_bind, Option.bind_some, front, labelIn_label label,
      Label.read_text plain.label]
    rfl

theorem oneLine {c : Passage} (h : c.Plain) : ∀ row ∈ c.rows, OneLine row := by
  intro row there
  rcases List.mem_cons.mp there with rfl | there
  · exact (Label.oneLine h.label).append (by decide)
  · obtain ⟨l, hl, rfl⟩ := List.mem_map.mp there
    exact .append (by decide) (Line.oneLine (h.lines l hl))

end Passage

namespace Function

def read (text : String) : Option (List Passage) :=
  (Passage.readRows ((splitLines text).drop 1).dropLast).map (·.2)

theorem read_text {f : Function} (named : isWord f.label = true)
    (h : ∀ c ∈ f.passages, c.Plain) : read f.text = some (f.passages.map Passage.named) := by
  have arguments : OneLine (commas ("ptr %self" ::
      (List.range f.formals).map fun i => "ptr %arg" ++ toString i)) := by
    refine .intercalate (by decide) fun w hw => ?_
    rcases List.mem_cons.mp hw with rfl | hw
    · decide
    · obtain ⟨i, _, rfl⟩ := List.mem_map.mp hw
      exact .append (by decide) (oneLine_word (isWord_numeral i))
  have signature : OneLine f.signature :=
    ((((by decide : OneLine "ptr @").append (oneLine_word named)).append (by decide)).append
      arguments).append (by decide)
  have whole : splitLines f.text =
      ("define " ++ f.signature ++ " \x7b") :: f.passages.flatMap Passage.rows ++ ["\x7d"] := by
    rw [text_eq]
    refine splitLines_join fun row there => ?_
    rcases List.mem_append.mp there with there | last
    · rcases List.mem_cons.mp there with rfl | there
      · exact ((by decide : OneLine "define ").append signature).append (by decide)
      · obtain ⟨c, hc, inside⟩ := List.mem_flatMap.mp there
        exact Passage.oneLine (h c hc) row inside
    · cases List.mem_singleton.mp last
      decide
  rw [read, whole, List.cons_append, List.drop_succ_cons, List.drop_zero, List.dropLast_concat,
    Passage.readRows_rows h]
  rfl

end Function

end Lines

section Units

open GlobalName Lowering

variable {t : ClassTable} {p : Pool} {m : Module}

theorem Assembled.defined_name (h : Assembled t p m) (spelled : t.Spelled) :
    ∀ s ∈ m.defined, isName s = true := by
  intro s there
  obtain ⟨x, hx, rfl⟩ := List.mem_map.mp ((defined_perm h).mem_iff.mp there)
  refine spelled.unitNames (by decide) (fun n hn => ?_) classGlobals_made x hx
  rcases List.mem_append.mp hn with const | hn
  · obtain ⟨c, _, rfl⟩ := List.mem_map.mp const
    exact c.spelled
  · have each : ∀ s ∈ ["str_data", "_case_abort"], isWord s = true ∧ '_' ∈ s.toList := by decide
    rcases List.mem_append.mp hn with bytes | routine
    · obtain ⟨i, _, rfl⟩ := List.mem_map.mp bytes
      exact each _ (.head _)
    · cases List.mem_singleton.mp routine
      exact each _ (.tail _ (.head _))

theorem Hinted.plain {b : Body} (h : Hinted b) {c : Block Label Instr} (hc : c ∈ b.blocks) :
    c.label.Plain := by
  have each : ∀ s ∈ blockHints, isWord s = true ∧ plainEnd s = true := by decide
  cases label : c.label with
  | entry => trivial
  | block n => exact each n.hint (h c hc n label)

theorem Hinted.labels {b : Body} (h : Hinted b) (formed : WellFormed b.blocks)
    {c : Block Label Instr} (hc : c ∈ b.blocks) {i : Instr} (hi : i ∈ c.instrs.toList) :
    ∀ l ∈ i.targets ++ i.incoming.map (·.2), l.Plain := by
  have placed {l : Label} (hl : l ∈ b.blocks.map (·.label)) : l.Plain := by
    obtain ⟨d, hd, rfl⟩ := List.mem_map.mp hl
    exact h.plain hd
  intro l hl
  rcases List.mem_append.mp hl with target | source
  · exact placed (formed.targets c hc l (List.mem_flatMap.mpr ⟨i, hi, target⟩)).2
  · cases i with
    | assign t rhs =>
      cases rhs with
      | phi incoming =>
        obtain ⟨n, found⟩ := List.mem_iff_getElem?.mp hi
        rw [Array.getElem?_toList] at found
        have arms := (formed.phis c hc n t incoming found).2.2
        have inside : l ∈ predecessors b.blocks c.label := arms ▸ source
        exact placed ((List.filter_sublist.map _).subset inside)
      | _ => cases source
    | _ => cases source

theorem Assembled.plain (h : Assembled t p m) (ht : t.Conventional) (spelled : t.Spelled)
    {f : Function} (hf : f ∈ m.functions) (hinted : Hinted f.body)
    (formed : WellFormed f.body.blocks) : ∀ c ∈ f.passages, c.Plain := by
  have named := h.defined_name spelled
  have structs {s : String} (hs : StructName t s) : isWord s = true := by
    rcases hs with rfl | ⟨k, hk, rfl⟩
    · decide
    · exact (spelled k hk).1
  intro c hc
  obtain ⟨b, hb, head, _, rfl⟩ := Certificate.mem_passages hc
  refine ⟨hinted.plain hb, fun l hl => ?_⟩
  rcases List.mem_append.mp hl with slot | code
  · obtain ⟨r, _, rfl⟩ := List.mem_map.mp slot
    trivial
  · obtain ⟨i, hi, rfl⟩ := List.mem_map.mp code
    have there : i ∈ m.functions.flatMap (·.instrs) :=
      List.mem_flatMap.mpr ⟨f, hf, List.mem_flatMap.mpr ⟨b, hb, hi⟩⟩
    obtain ⟨reads, types⟩ := functions_present h ht i there
    refine ⟨fun v hv => ?_, hinted.labels formed hb hi, fun s hs => structs (types s hs)⟩
    cases v with
    | symbol s => exact isWord_of_name (named s (reads _ hv s rfl))
    | _ => trivial

/-- The text of each function of a compiled program is read back as its blocks. -/
theorem compile_functions_read {q : Program} (conventional : q.Conventional) (spelled : q.Spelled)
    {gcTest : Bool} {source text : String} (h : compile q .llvm gcTest source = .ok text) :
    ∃ t m, ClassTable.build q.withBuiltins = .ok t ∧ Module.assemble source t = .ok m ∧
      text = m.text ∧
      ∀ f ∈ m.functions, Function.read f.text = some (f.passages.map Passage.named) := by
  obtain ⟨t, m, built, assembled, same, formed⟩ := compile_wellFormed _ _ _ _ h
  obtain ⟨p, made⟩ := assemble_assembled built assembled
  obtain ⟨s, constants, main, emitted, pooled, found, whole⟩ := assemble_made assembled
  have hinted : ∀ f ∈ m.functions, Hinted f.body := by
    rw [whole]
    exact emitUnit_hinted (Resolved.emitUnit_of_ok built emitted)
  refine ⟨t, m, built, assembled, same, fun f hf => Function.read_text ?_ ?_⟩
  · refine isWord_of_name (made.defined_name (spelled.table built) _ ?_)
    exact List.mem_append_left _ (List.mem_append_right _ (List.mem_map_of_mem hf))
  · exact made.plain (conventional.table built) (spelled.table built) hf (hinted f hf)
      (formed.functions f hf)

end Units

end ClassBackend.Llvm
