import ClassBackend.Fault

/-! Building one function block by block, over any kind of slot name, label and instruction. Stack
slots are kept apart and come out at the head of the entry block, where they dominate every
use. -/
namespace ClassBackend.Llvm

/-- Labels `L` and instructions `ι`, and how they and the names `S` of stack slots are written. -/
class CodeText (S L ι : Type) where
  entry : L
  branch : L → ι
  slotText : S → String
  labelText : L → String
  instrText : ι → String

structure Block (L ι : Type) where
  label : L
  instrs : Array ι := #[]
  terminated : Bool := false

/-- Blocks closed so far, and the one that is being filled. -/
structure Builder (S L ι : Type) where
  allocas : Array S := #[]
  closed : Array (Block L ι) := #[]
  current : Block L ι

namespace Builder

variable {S L ι : Type} [CodeText S L ι]

def new : Builder S L ι := { current := { label := CodeText.entry S ι } }

def blocks (b : Builder S L ι) : List (Block L ι) := b.closed.toList ++ [b.current]

def alloca (b : Builder S L ι) (name : S) : Builder S L ι :=
  { b with allocas := b.allocas.push name }

def emit (b : Builder S L ι) (i : ι) : Except Fault (Builder S L ι) :=
  if b.current.terminated then
    .error (.afterTerminator (CodeText.labelText S ι b.current.label))
  else .ok { b with current := { b.current with instrs := b.current.instrs.push i } }

def terminate (b : Builder S L ι) (i : ι) : Except Fault (Builder S L ι) :=
  match b.emit i with
  | .ok b => .ok { b with current := { b.current with terminated := true } }
  | .error f => .error f

/-- Opens a block. One that is still open branches to it. -/
def startBlock (b : Builder S L ι) (label : L) : Except Fault (Builder S L ι) := do
  let b ← if b.current.terminated then pure b else b.terminate (CodeText.branch S label)
  pure { b with closed := b.closed.push b.current, current := { label } }

/-- A block with the slots that are made at its head. -/
def blockLines (allocas : List S) (b : Block L ι) : List String :=
  (CodeText.labelText S ι b.label ++ ":") ::
    (allocas.map fun name => "  " ++ CodeText.slotText L ι name ++ " = alloca ptr") ++
    b.instrs.toList.map fun i => "  " ++ CodeText.instrText S L i

def bodyLines (b : Builder S L ι) : List String :=
  match b.blocks with
  | [] => []
  | first :: rest => blockLines b.allocas.toList first ++ rest.flatMap (blockLines ([] : List S))

/-- The definition, given what stands between `define` and the brace. -/
def render (b : Builder S L ι) (signature : String) : String :=
  String.join ((("define " ++ signature ++ " \x7b") :: b.bodyLines ++ ["\x7d"]).map (· ++ "\n"))

end Builder

instance : CodeText String String String where
  entry := "entry"
  branch l := "br label %" ++ l
  slotText name := name
  labelText l := l
  instrText i := i

end ClassBackend.Llvm
