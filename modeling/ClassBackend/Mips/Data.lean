import ClassBackend.Names
import ClassBackend.Lowering.Backend
import ClassBackend.Mips.Frame

/-! Entry points that the MIPS runtime and its collector provide. -/
namespace ClassBackend.Mips

inductive Routine where
  | objectCopy | equalityTest | caseAbort | caseAbort2 | dispatchAbort
  | gcAssign | gcInit | gcCollect
  deriving DecidableEq, Repr

def Routine.symbol : Routine → String
  | .objectCopy => "Object.copy"
  | .equalityTest => "equality_test"
  | .caseAbort => "_case_abort"
  | .caseAbort2 => "_case_abort2"
  | .dispatchAbort => "_dispatch_abort"
  | .gcAssign => "_GenGC_Assign"
  | .gcInit => "_GenGC_Init"
  | .gcCollect => "_GenGC_Collect"

def Routine.ofAbort : AbortKind → Routine
  | .caseNoMatch => .caseAbort
  | .caseOnVoid => .caseAbort2
  | .dispatchOnVoid => .dispatchAbort

end ClassBackend.Mips

/-! The data section: pooled objects, the tables of all classes, dispatch tables, prototypes and the
flags that the runtime and collector read. -/
namespace ClassBackend.Mips

inductive Datum where
  | num (value : Int)
  | sym (name : String)
  deriving DecidableEq, Repr

def Datum.text : Datum → String
  | .num v => toString v
  | .sym s => s

inductive Line where
  | data
  | align
  | globl (symbol : String)
  | label (symbol : String)
  | word (value : Datum)
  /-- Printable characters as they stand between the quotes, escapes included. -/
  | ascii (literal : String)
  | byte (value : UInt8)
  deriving DecidableEq, Repr

def Line.text : Line → String
  | .data => "\t.data"
  | .align => "\t.align\t2"
  | .globl s => "\t.globl\t" ++ s
  | .label s => s ++ ":"
  | .word v => "\t.word\t" ++ v.text
  | .ascii s => "\t.ascii\t\"" ++ s ++ "\""
  | .byte b => "\t.byte\t" ++ toString b.toNat

namespace Data

/-- Marks the word before every object for the collector. -/
def eyeCatcher : Int := -1

def labelled (label : String) (v : Datum) : List Line := [.label label, .word v]

def header (label : String) (cls : ClassLayout) (words : Int) : List Line := [
  .word (.num eyeCatcher),
  .label label,
  .word (.num cls.tag),
  .word (.num words),
  .word (.sym (Linkage.dispatchTable cls.name))]

def flush (run : List Char) : List Line :=
  if run.isEmpty then [] else [.ascii (String.ofList run.reverse)]

/-- The bytes of a text. The run so far is newest first; a byte outside the printable range
ends it. -/
def asciiFrom : List Char → List UInt8 → List Line
  | run, [] => flush run
  | run, b :: bs =>
    if b = 34 ∨ b = 92 then asciiFrom (Char.ofNat b.toNat :: '\\' :: run) bs
    else if 32 ≤ b ∧ b ≤ 126 then asciiFrom (Char.ofNat b.toNat :: run) bs
    else flush run ++ .byte b :: asciiFrom [] bs

def ascii (s : String) : List Line := asciiFrom [] s.toUTF8.toList

/-- Header, length pointer, then the bytes and their terminator in whole words. -/
def stringWords (s : String) : Except Fault Int := do
  let bytes ← Word.sub (← Word.add (← Word.add (Word.low s.utf8ByteSize) 1) wordSize) 1
  Word.add 4 (Int.tdiv bytes wordSize)

def stringObject (cls : ClassLayout) (c : Const) (s : String) (length : Const) :
    Except Fault (List Line) := do
  let words ← stringWords s
  pure (header c.label cls words ++ [.word (.sym length.label)] ++ ascii s ++ [.byte 0, .align])

def intObject (cls : ClassLayout) (c : Const) (v : Int64) : Except Fault (List Line) := do
  let word ← Word.ofLiteral v.toInt
  pure (header c.label cls 4 ++ [.word (.num word)])

def boolObject (cls : ClassLayout) (v : Bool) : List Line :=
  header (Const.bool v).label cls 4 ++ [.word (.num (if v then 1 else 0))]

def dispatchTable (k : ClassLayout) : List Line :=
  .label (Linkage.dispatchTable k.name) :: k.methods.map fun m => .word (.sym m.label)

def fieldDefault (pool : Pool) (ty : String) : Datum :=
  match NativeKind.ofType? ty with
  | some _ => .num 0
  | none =>
    match (pool.initValue ty).1 with
    | some c => .sym c.label
    | none => .num 0

def prototype (pool : Pool) (k : ClassLayout) : Except Fault (List Line) := do
  let words ← Word.add 3 (Word.low k.fields.length)
  pure (header (Linkage.prototype k.name) k words ++
    k.fields.map fun f => .word (fieldDefault pool f.ty))

/-- The pool with everything that the tables point at. -/
def complete (classes : ClassTable) (pool : Pool) : Pool :=
  let pool := classes.classes.foldl (fun p k => (p.string k.name).2) pool
  [Builtin.intName, Builtin.boolName, Builtin.stringName].foldl
    (fun p ty => (p.initValue ty).2) pool

def exported : List String := [
  Linkage.classNames,
  Linkage.prototype Builtin.mainName,
  Linkage.prototype Builtin.intName,
  Linkage.prototype Builtin.stringName,
  (Const.bool false).label,
  (Const.bool true).label,
  "_int_tag",
  "_bool_tag",
  "_string_tag"]

def collector (gcTest : Bool) : List Line := [
  .globl "_MemMgr_INITIALIZER",
  .label "_MemMgr_INITIALIZER",
  .word (.sym Routine.gcInit.symbol),
  .globl "_MemMgr_COLLECTOR",
  .label "_MemMgr_COLLECTOR",
  .word (.sym Routine.gcCollect.symbol),
  .globl "_MemMgr_TEST",
  .label "_MemMgr_TEST",
  .word (.num (if gcTest then 1 else 0))]

/-- The word for each class in `class_nameTab`. -/
def classNames (classes : ClassTable) (pool : Pool) : List Line :=
  classes.classes.map fun k => .word (.sym (pool.string k.name).1.label)

/-- Prototype and initializer of each class, in tag order. -/
def classObjects (classes : ClassTable) : List Line :=
  classes.classes.flatMap fun k =>
    [.word (.sym (Linkage.prototype k.name)), .word (.sym (Linkage.initializer k.name))]

def emit (gcTest : Bool) (classes : ClassTable) (pool : Pool) : Except Fault (List Line) := do
  let pool := complete classes pool
  let int ← classes.find Builtin.intName
  let bool ← classes.find Builtin.boolName
  let string ← classes.find Builtin.stringName
  let entries ← pool.toTables.stringEntries
  let strings ← entries.mapM fun (c, s, length) => stringObject string c s length
  let ints ← pool.intEntries.mapM fun (c, v) => intObject int c v
  let prototypes ← classes.classes.mapM (prototype pool)
  pure <|
    [.data, .align] ++ exported.map Line.globl ++
    labelled "_int_tag" (.num int.tag) ++
    labelled "_bool_tag" (.num bool.tag) ++
    labelled "_string_tag" (.num string.tag) ++
    collector gcTest ++
    strings.flatten ++ ints.flatten ++ boolObject bool false ++ boolObject bool true ++
    .label Linkage.classNames :: classNames classes pool ++
    .label Linkage.classObjects :: classObjects classes ++
    classes.classes.flatMap dispatchTable ++
    prototypes.flatten ++
    [.globl "heap_start", .label "heap_start", .word (.num 0)]

end Data

end ClassBackend.Mips
