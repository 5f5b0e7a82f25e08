import ClassBackend.Json.Reader

/-! String literals, read and written. An escaped surrogate stands for a character only in a
pair. -/
namespace ClassBackend.Json

def hexValue? (c : Char) : Option Nat :=
  if '0' ≤ c ∧ c ≤ '9' then some (c.toNat - 48)
  else if 'a' ≤ c ∧ c ≤ 'f' then some (c.toNat - 87)
  else if 'A' ≤ c ∧ c ≤ 'F' then some (c.toNat - 55)
  else none

/-- What a single letter after a backslash stands for. -/
def unescape? : Char → Option Char
  | '"' => some '"'
  | '\\' => some '\\'
  | '/' => some '/'
  | 'b' => some '\x08'
  | 'f' => some '\x0c'
  | 'n' => some '\n'
  | 'r' => some '\x0d'
  | 't' => some '\t'
  | _ => none

/-- Whether the text is too short for four hexadecimal digits, counted in bytes. -/
def tooShort (s : List Char) : Bool := (s.take 4).foldr (fun c n => c.utf8Size + n) 0 < 4

namespace Text

inductive Mode where
  | plain
  | escape
  /-- Some digits of `\uXXXX` are left; `high` is the surrogate that this one has to complete. -/
  | unit (high : Option Nat) (value left : Nat)
  /-- After a high surrogate, which a second escape has to follow. -/
  | high (unit : Nat)
  | highEscape (unit : Nat)
  deriving DecidableEq, Repr

def isHigh (u : Nat) : Bool := 0xD800 ≤ u && u ≤ 0xDBFF
def isLow (u : Nat) : Bool := 0xDC00 ≤ u && u ≤ 0xDFFF

def pair (high low : Nat) : Char := Char.ofNat (0x10000 + (high - 0xD800) * 0x400 + (low - 0xDC00))

/-- Reads to the closing quote. The characters so far are newest first. -/
def scan : Mode → List Char → List Char → Except Refusal (List Char × List Char)
  | _, _, [] => .error .truncated
  | .plain, done, c :: s =>
    if c = '"' then .ok (done.reverse, s)
    else if c = '\\' then scan .escape done s
    else if c < ' ' then .error .malformed
    else scan .plain (c :: done) s
  | .escape, done, c :: s =>
    if c = 'u' then
      if tooShort s then .error .truncated else scan (.unit none 0 4) done s
    else
      match unescape? c with
      | some d => scan .plain (d :: done) s
      | none => .error .malformed
  | .unit high value left, done, c :: s =>
    match hexValue? c with
    | none => .error .malformed
    | some d =>
      let value := 16 * value + d
      if 1 < left then scan (.unit high value (left - 1)) done s
      else
        match high with
        | some h => if isLow value then scan .plain (pair h value :: done) s else .error .malformed
        | none =>
          if isLow value then .error .malformed
          else if isHigh value then scan (.high value) done s
          else scan .plain (Char.ofNat value :: done) s
  | .high u, done, c :: s => if c = '\\' then scan (.highEscape u) done s else .error .malformed
  | .highEscape u, done, c :: s =>
    if c = 'u' then
      if tooShort s then .error .truncated else scan (.unit (some u) 0 4) done s
    else .error .malformed

def read : Reader String := fun s =>
  match scan .plain [] s with
  | .ok (cs, s) => .ok (String.ofList cs, s)
  | .error r => .error r

def hexDigit (n : Nat) : Char := if n < 10 then Char.ofNat (48 + n) else Char.ofNat (87 + n)

/-- How a character is written. Control characters are escaped, all others stand for themselves. -/
def escape (c : Char) : List Char :=
  if c = '"' then ['\\', '"']
  else if c = '\\' then ['\\', '\\']
  else if c = '\x08' then ['\\', 'b']
  else if c = '\x0c' then ['\\', 'f']
  else if c = '\n' then ['\\', 'n']
  else if c = '\x0d' then ['\\', 'r']
  else if c = '\t' then ['\\', 't']
  else if c < ' ' then ['\\', 'u', '0', '0', hexDigit (c.toNat / 16), hexDigit (c.toNat % 16)]
  else [c]

def quote (s : String) : List Char := '"' :: s.toList.flatMap escape ++ ['"']

end Text

end ClassBackend.Json
