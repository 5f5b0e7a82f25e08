import ClassBackend.Json.Number
import ClassBackend.Json.Text

/-! Skipping one value of any form. The value has to be JSON, but its nesting is not limited, its
numbers need not fit anything and its escapes need not pair up. -/
namespace ClassBackend.Json.Skip

inductive Bracket where
  | array | object
  deriving DecidableEq, Repr

/-- What may come next. A literal is a key or a value. -/
inductive Mode where
  | value
  | first (b : Bracket)
  | key
  | colon
  | separator
  | word (left : List Char)
  | minus | zero | digits | point | fraction | exponent | exponentSign | exponentDigits
  | literal (isKey : Bool)
  | escape (isKey : Bool)
  | hex (isKey : Bool) (left : Nat)
  deriving DecidableEq, Repr

inductive Step where
  | fail (r : Refusal)
  | go (stack : List Bracket) (mode : Mode)
  | endBefore
  | endAfter
  deriving DecidableEq, Repr

def ended : List Bracket → Step
  | [] => .endAfter
  | stack => .go stack .separator

def valueStep (stack : List Bracket) (c : Char) : Step :=
  if isBlank c then .go stack .value
  else if c = '"' then .go stack (.literal false)
  else if c = '[' then .go (.array :: stack) (.first .array)
  else if c = '{' then .go (.object :: stack) (.first .object)
  else if c = '-' then .go stack .minus
  else if c = '0' then .go stack .zero
  else if isDigit c then .go stack .digits
  else
    match wordTail c with
    | some left => .go stack (.word left)
    | none => .fail .malformed

def keyStep (stack : List Bracket) (c : Char) : Step :=
  if isBlank c then .go stack .key
  else if c = '"' then .go stack (.literal true)
  else .fail .malformed

def firstStep (stack : List Bracket) (b : Bracket) (c : Char) : Step :=
  if isBlank c then .go stack (.first b)
  else
    match b with
    | .array => if c = ']' then ended stack.tail else valueStep stack c
    | .object => if c = '}' then ended stack.tail else keyStep stack c

/-- After a value: a comma or the bracket that closes the innermost container. -/
def separatorStep (stack : List Bracket) (c : Char) : Step :=
  match stack with
  | [] => .endBefore
  | b :: outer =>
    if isBlank c then .go stack .separator
    else
      match b with
      | .array =>
        if c = ',' then .go stack .value else if c = ']' then ended outer else .fail .malformed
      | .object =>
        if c = ',' then .go stack .key else if c = '}' then ended outer else .fail .malformed

/-- After digits that may be all of a numeral. -/
def numeralStep (stack : List Bracket) (point : Bool) (c : Char) : Step :=
  if c = '.' ∧ point then .go stack .point
  else if c = 'e' ∨ c = 'E' then .go stack .exponent
  else separatorStep stack c

def digitStep (stack : List Bracket) (next : Mode) (c : Char) : Step :=
  if isDigit c then .go stack next else .fail .malformed

def literalEnd (stack : List Bracket) (isKey : Bool) : Step :=
  if isKey then .go stack .colon else ended stack

def literalStep (stack : List Bracket) (isKey : Bool) (c : Char) : Step :=
  if c = '"' then literalEnd stack isKey
  else if c = '\\' then .go stack (.escape isKey)
  else if c < ' ' then .fail .malformed
  else .go stack (.literal isKey)

/-- One character, with the text behind it. -/
def step (stack : List Bracket) (mode : Mode) (c : Char) (s : List Char) : Step :=
  match mode with
  | .value => valueStep stack c
  | .first b => firstStep stack b c
  | .key => keyStep stack c
  | .colon =>
    if isBlank c then .go stack .colon
    else if c = ':' then .go stack .value
    else .fail .malformed
  | .separator => separatorStep stack c
  | .word [] => .fail .malformed
  | .word (d :: left) =>
    if c = d then (if left.isEmpty then ended stack else .go stack (.word left))
    else .fail .malformed
  | .minus => if c = '0' then .go stack .zero else digitStep stack .digits c
  | .zero => if isDigit c then .fail .malformed else numeralStep stack true c
  | .digits => if isDigit c then .go stack .digits else numeralStep stack true c
  | .point => digitStep stack .fraction c
  | .fraction => if isDigit c then .go stack .fraction else numeralStep stack false c
  | .exponent =>
    if c = '+' ∨ c = '-' then .go stack .exponentSign else digitStep stack .exponentDigits c
  | .exponentSign => digitStep stack .exponentDigits c
  | .exponentDigits =>
    if isDigit c then .go stack .exponentDigits else separatorStep stack c
  | .literal isKey => literalStep stack isKey c
  | .escape isKey =>
    if c = 'u' then
      if tooShort s then .fail .truncated else .go stack (.hex isKey 4)
    else if (unescape? c).isSome then .go stack (.literal isKey)
    else .fail .malformed
  | .hex isKey left =>
    if (hexValue? c).isNone then .fail .malformed
    else if left ≤ 1 then .go stack (.literal isKey)
    else .go stack (.hex isKey (left - 1))

/-- Where the text ends. A numeral may be complete; one that is not is malformed. -/
def atEnd (stack : List Bracket) (mode : Mode) : Except Refusal (List Char) :=
  match mode with
  | .zero | .digits | .fraction | .exponentDigits =>
    if stack.isEmpty then .ok [] else .error .truncated
  | .minus | .point | .exponent | .exponentSign => .error .malformed
  | _ => .error .truncated

def run (stack : List Bracket) (mode : Mode) : List Char → Except Refusal (List Char)
  | [] => atEnd stack mode
  | c :: s =>
    match step stack mode c s with
    | .fail r => .error r
    | .go stack mode => run stack mode s
    | .endBefore => .ok (c :: s)
    | .endAfter => .ok s

def value : Reader Unit := fun s =>
  match run [] .value s with
  | .ok s => .ok ((), s)
  | .error r => .error r

end ClassBackend.Json.Skip
