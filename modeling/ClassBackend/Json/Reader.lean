/-! Readers of JSON text. A reader takes the text from the front and leaves the rest; the first
problem met, strictly from the left, decides why it stops. -/
namespace ClassBackend.Json

inductive Refusal where
  | truncated
  /-- The text is not JSON, or nests too deeply. -/
  | malformed
  /-- The text is JSON, but not of the expected form. -/
  | mismatch
  deriving DecidableEq, Repr

def Refusal.category : Refusal → String
  | .truncated => "eof"
  | .malformed => "syntax"
  | .mismatch => "data"

abbrev Reader (α : Type) := StateT (List Char) (Except Refusal) α

/-- What a reader may spend. -/
structure Limits where
  /-- How many more arrays and objects may be opened inside each other. -/
  nesting : Nat
  /-- Bounds the length of the whole text, and with it the number of items of a list. -/
  size : Nat
  deriving DecidableEq, Repr

def Limits.enter (l : Limits) : Option Limits :=
  match l.nesting with
  | 0 => none
  | n + 1 => some { l with nesting := n }

/-- A reader for values of one form. -/
abbrev Decoder (α : Type) := Limits → Reader α

variable {α : Type}

def refuse (r : Refusal) : Reader α := fun _ => .error r

def isBlank (c : Char) : Bool := c == ' ' || c == '\t' || c == '\n' || c == '\x0d'

/-- The text from its first character that is not blank. -/
def trim (s : List Char) : List Char := s.dropWhile isBlank

def expect : List Char → Reader Unit
  | [], s => .ok ((), s)
  | _ :: _, [] => .error .truncated
  | c :: cs, d :: s => if d = c then expect cs s else .error .malformed

/-- What follows the first letter of `null`, `true` or `false`. -/
def wordTail : Char → Option (List Char)
  | 'n' => some ['u', 'l', 'l']
  | 't' => some ['r', 'u', 'e']
  | 'f' => some ['a', 'l', 's', 'e']
  | _ => none

end ClassBackend.Json
