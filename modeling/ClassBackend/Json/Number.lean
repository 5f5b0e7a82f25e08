import ClassBackend.Json.Reader

/-! Numerals. Only a plain integer can have a value; any other numeral is read to its end, and has
to lie in the range of a double. -/
namespace ClassBackend.Json

def isDigit (c : Char) : Bool := '0' ≤ c && c ≤ '9'

def digitValue (c : Char) : Nat := c.toNat - 48

/-- Rounded to 53 significant bits, a tie to the even neighbour. -/
def round53 (n : Nat) : Nat :=
  let unit := Nat.pow 2 (n.log2 - 52)
  let down := n / unit
  let rest := n % unit
  if unit < 2 * rest ∨ (unit = 2 * rest ∧ down % 2 = 1) then (down + 1) * unit else down * unit

/-- The least product that does not round to a double. -/
def doubleLimit : Nat := Nat.pow 2 1024 - Nat.pow 2 970

/-- Whether a decimal is out of range, with both factors rounded before they are multiplied. -/
def outOfRange (significand : Nat) (exponent : Int) : Bool :=
  significand ≠ 0 && 0 ≤ exponent &&
    (308 < exponent || doubleLimit ≤ round53 significand * round53 (Nat.pow 10 exponent.toNat))

/-- Appends digits to a significand for as long as it fits 64 bits; answers how many it took. -/
def appendDigits (significand taken : Nat) : List Char → Nat × Nat
  | [] => (significand, taken)
  | d :: ds =>
    let next := 10 * significand + digitValue d
    if next < 18446744073709551616 then appendDigits next (taken + 1) ds else (significand, taken)

def exponentValue (ds : List Char) : Nat :=
  ds.foldl (fun n d => min (10 * n + digitValue d) 4294967296) 0

inductive Numeral where
  | integer (value : Int)
  /-- Written with a point or an exponent, too large for 64 bits, or `-0`. -/
  | fraction
  deriving DecidableEq, Repr

namespace Numeral

def ranged (significand : Nat) (exponent : Int) (rest : List Char) :
    Except Refusal (Numeral × List Char) :=
  if outOfRange significand exponent then .error .malformed else .ok (.fraction, rest)

def exponentPart (significand : Nat) (exponent : Int) (s : List Char) :
    Except Refusal (Numeral × List Char) :=
  let (negative, s) :=
    match s with
    | '+' :: s => (false, s)
    | '-' :: s => (true, s)
    | s => (false, s)
  match s with
  | [] => .error .truncated
  | c :: _ =>
    if isDigit c then
      let e : Int := exponentValue (s.takeWhile isDigit)
      ranged significand (if negative then exponent - e else exponent + e) (s.dropWhile isDigit)
    else .error .malformed

/-- What follows the digits: an exponent, or nothing. -/
def tail (significand : Nat) (exponent : Int) : List Char → Except Refusal (Numeral × List Char)
  | 'e' :: s => exponentPart significand exponent s
  | 'E' :: s => exponentPart significand exponent s
  | s => ranged significand exponent s

def fractionPart (significand : Nat) (exponent : Int) :
    List Char → Except Refusal (Numeral × List Char)
  | [] => .error .truncated
  | c :: s =>
    if isDigit c then
      let (significand, taken) := appendDigits significand 0 ((c :: s).takeWhile isDigit)
      tail significand (exponent - taken) ((c :: s).dropWhile isDigit)
    else .error .malformed

/-- The value of an integer's digits. A negative one has to fit 64 bits with its sign. -/
def ofInteger (negative : Bool) (significand : Nat) : Numeral :=
  if negative then
    if 0 < significand ∧ significand ≤ 9223372036854775808 then .integer (-significand)
    else .fraction
  else .integer significand

def afterInteger (negative : Bool) (digits : List Char) (s : List Char) :
    Except Refusal (Numeral × List Char) :=
  let (significand, taken) := appendDigits 0 0 digits
  let exponent : Int := digits.length - taken
  match s with
  | '.' :: s => fractionPart significand exponent s
  | 'e' :: _ | 'E' :: _ => tail significand exponent s
  | s =>
    if taken = digits.length then .ok (ofInteger negative significand, s)
    else ranged significand exponent s

/-- A numeral after its sign. A zero is not followed by a digit. -/
def unsigned (negative : Bool) : List Char → Except Refusal (Numeral × List Char)
  | [] => .error .truncated
  | c :: s =>
    if c = '0' then
      match s with
      | [] => afterInteger negative [c] []
      | d :: s => if isDigit d then .error .malformed else afterInteger negative [c] (d :: s)
    else if isDigit c then
      afterInteger negative ((c :: s).takeWhile isDigit) ((c :: s).dropWhile isDigit)
    else .error .malformed

def read : Reader Numeral
  | '-' :: s => unsigned true s
  | s => unsigned false s

end Numeral

end ClassBackend.Json
