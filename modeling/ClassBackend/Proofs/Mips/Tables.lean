import ClassBackend.Proofs.Account.Interning
import ClassBackend.Proofs.Layout.Overriding
import ClassBackend.Proofs.Mips.Emission
import ClassBackend.Proofs.Text.Numeral

/-! The dispatch tables of the data section, and the indirect calls that go through them. The
section is read as an assembler reads it: a symbol stands for the place of its label, and a word is
counted from there. -/
namespace ClassBackend.Mips

open Machine Lowering

namespace Data

def leading : List Line → List Datum
  | .word v :: ls => v :: leading ls
  | _ => []

/-- The words that follow the first label of that name. -/
def wordsAt (symbol : String) : List Line → List Datum
  | [] => []
  | .label s :: ls => if s = symbol then leading ls else wordsAt symbol ls
  | _ :: ls => wordsAt symbol ls

def labels (ls : List Line) : List String :=
  ls.filterMap fun
    | .label s => some s
    | _ => none

@[simp] theorem labels_append (ls rest : List Line) :
    labels (ls ++ rest) = labels ls ++ labels rest :=
  List.filterMap_append ..

@[simp] theorem labels_words {α : Type} (f : α → Datum) (xs : List α) :
    labels (xs.map fun x => .word (f x)) = [] := by
  induction xs with
  | nil => rfl
  | cons x xs ih => exact ih

theorem leading_words (ws : List Datum) (rest : List Line) :
    leading (ws.map .word ++ rest) = ws ++ leading rest := by
  induction ws with
  | nil => rfl
  | cons w ws ih => exact congrArg (w :: ·) ih

theorem wordsAt_skip {symbol : String} {ls : List Line} (absent : symbol ∉ labels ls)
    (rest : List Line) : wordsAt symbol (ls ++ rest) = wordsAt symbol rest := by
  induction ls with
  | nil => rfl
  | cons l ls ih =>
    cases l with
    | label s =>
      obtain ⟨other, absent⟩ := not_or.mp (mt List.mem_cons.mpr absent)
      rw [List.cons_append, wordsAt, if_neg (Ne.symm other)]
      exact ih absent
    | data | align | globl | word | ascii | byte => exact ih absent

def Untabled (symbols : List String) : Prop := ∀ cls, Linkage.dispatchTable cls ∉ symbols

theorem Untabled.append {a b : List String} (ha : Untabled a) (hb : Untabled b) :
    Untabled (a ++ b) := fun cls mem => (List.mem_append.mp mem).elim (ha cls) (hb cls)

theorem labels_asciiFrom (run : List Char) (bytes : List UInt8) :
    labels (asciiFrom run bytes) = [] := by
  have flushed (run : List Char) : labels (flush run) = [] := by
    unfold flush
    split <;> rfl
  induction bytes generalizing run with
  | nil => exact flushed run
  | cons b bs ih =>
    unfold asciiFrom
    split
    · exact ih _
    · split
      · exact ih _
      · rw [labels_append, flushed]
        exact ih []

theorem stringObject_labels {cls : ClassLayout} {k length : Const} {s : String} {ls : List Line}
    (h : stringObject cls k s length = .ok ls) : labels ls = [k.label] := by
  simp only [stringObject, except_bind_ok, except_pure_ok] at h
  obtain ⟨words, _, rfl⟩ := h
  rw [labels_append, labels_append, ascii, labels_asciiFrom]
  rfl

theorem intObject_labels {cls : ClassLayout} {k : Const} {v : Int64} {ls : List Line}
    (h : intObject cls k v = .ok ls) : labels ls = [k.label] := by
  simp only [intObject, except_bind_ok, except_pure_ok] at h
  obtain ⟨word, _, rfl⟩ := h
  rfl

def preamble (gcTest : Bool) (int bool string : ClassLayout) : List Line :=
  [.data, .align] ++ exported.map Line.globl ++ labelled "_int_tag" (.num int.tag) ++
    labelled "_bool_tag" (.num bool.tag) ++ labelled "_string_tag" (.num string.tag) ++
    collector gcTest

theorem preamble_labels (gcTest : Bool) (int bool string : ClassLayout) :
    labels (preamble gcTest int bool string) = ["_int_tag", "_bool_tag", "_string_tag",
      "_MemMgr_INITIALIZER", "_MemMgr_COLLECTOR", "_MemMgr_TEST"] := rfl

def untilPrototypes (gcTest : Bool) (t : ClassTable) (p : Pool) (int bool string : ClassLayout)
    (strings ints : List (List Line)) : List Line :=
  preamble gcTest int bool string ++ (strings.flatten ++ (ints.flatten ++
    (boolObject bool false ++ (boolObject bool true ++
      (.label Linkage.classNames :: classNames t p ++
        (.label Linkage.classObjects :: classObjects t ++ t.classes.flatMap dispatchTable))))))

theorem emit_parts {gcTest : Bool} {t : ClassTable} {p : Pool} {ls : List Line}
    (h : emit gcTest t p = .ok ls) :
    ∃ int bool string strings ints prototypes,
      t.find Builtin.intName = .ok int ∧ t.find Builtin.boolName = .ok bool ∧
      t.find Builtin.stringName = .ok string ∧
      ((complete t p).stringEntries.mapM fun (c, s, length) => stringObject string c s length) =
        .ok strings ∧
      ((complete t p).intEntries.mapM fun (c, v) => intObject int c v) = .ok ints ∧
      t.classes.mapM (prototype (complete t p)) = .ok prototypes ∧
      ls = untilPrototypes gcTest t (complete t p) int bool string strings ints ++
        (prototypes.flatten ++ [.globl "heap_start", .label "heap_start", .word (.num 0)]) := by
  simp only [emit, except_bind_ok, except_pure_ok] at h
  obtain ⟨int, hint, bool, hbool, string, hstring, entries, listed, strings, stringed, ints, inted,
    prototypes, made, rfl⟩ := h
  obtain ⟨_, rfl⟩ := Pool.stringEntries_ok.mp listed
  refine ⟨int, bool, string, strings, ints, prototypes, hint, hbool, hstring, stringed, inted, made,
    ?_⟩
  simp only [untilPrototypes, preamble, List.append_assoc, List.cons_append, List.nil_append]

theorem dispatchTable_labels (k : ClassLayout) :
    labels (dispatchTable k) = [Linkage.dispatchTable k.name] :=
  congrArg (_ :: ·) (labels_words _ _)

end Data

def Datum.value (symbol : String → BitVec 32) : Datum → BitVec 32
  | .num n => BitVec.ofInt 32 n
  | .sym s => symbol s

/-- The memory holds the words of the data section where their symbols say. -/
def Loaded (symbol : String → BitVec 32) (data : List Line) (mem : Memory 32) : Prop :=
  ∀ s i w, (Data.wordsAt s data)[i]? = some w →
    mem (symbol s + BitVec.ofNat 32 (4 * i)) = some (w.value symbol)

end ClassBackend.Mips
