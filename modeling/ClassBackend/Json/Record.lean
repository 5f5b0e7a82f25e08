import ClassBackend.Json.Number
import ClassBackend.Json.Skip
import ClassBackend.Json.Text

/-! Readers for values that are not containers. Integers have to be written plainly and to fit. -/
namespace ClassBackend.Json

variable {α : Type}

/-- Refuses a value of the wrong kind. A scalar is read to its end first, so that a malformed one
counts as malformed. -/
def wrongKind : List Char → Except Refusal α
  | [] => .error .truncated
  | c :: s =>
    if c = '[' ∨ c = '{' then .error .mismatch
    else if c = '"' then
      match Text.read s with
      | .ok _ => .error .mismatch
      | .error r => .error r
    else if c = '-' ∨ isDigit c then
      match Numeral.read (c :: s) with
      | .ok _ => .error .mismatch
      | .error r => .error r
    else
      match wordTail c with
      | none => .error .malformed
      | some cs =>
        match expect cs s with
        | .ok _ => .error .mismatch
        | .error r => .error r

def string : Decoder String := fun _ s =>
  match trim s with
  | '"' :: s => Text.read s
  | s => wrongKind s

def null : Decoder Unit := fun _ s =>
  match trim s with
  | 'n' :: s => expect ['u', 'l', 'l'] s
  | s => wrongKind s

def bool : Decoder Bool := fun _ s =>
  match trim s with
  | 't' :: s => (fun (_, s) => (true, s)) <$> expect ['r', 'u', 'e'] s
  | 'f' :: s => (fun (_, s) => (false, s)) <$> expect ['a', 'l', 's', 'e'] s
  | s => wrongKind s

def integer (lo hi : Int) : Decoder Int := fun _ s =>
  match trim s with
  | [] => .error .truncated
  | c :: s =>
    if c = '-' ∨ isDigit c then
      match Numeral.read (c :: s) with
      | .ok (.integer v, s) => if lo ≤ v ∧ v ≤ hi then .ok (v, s) else .error .mismatch
      | .ok (.fraction, _) => .error .mismatch
      | .error r => .error r
    else wrongKind (c :: s)

def int64 : Decoder Int64 := fun l =>
  Int64.ofInt <$> integer (-9223372036854775808) 9223372036854775807 l

def uint64 : Decoder UInt64 := fun l =>
  (fun v => UInt64.ofNat v.toNat) <$> integer 0 18446744073709551615 l

def nullable (value : Decoder α) : Decoder (Option α) := fun l s =>
  match trim s with
  | 'n' :: s => (fun (_, s) => (none, s)) <$> expect ['u', 'l', 'l'] s
  | s => (fun (a, s) => (some a, s)) <$> value l s

end ClassBackend.Json

/-! Readers for lists, records and variants. A record is an object with its fields in any order and
any further keys, or an array of its fields in order. A variant is its name alone, or an object
with its name as the only key. -/
namespace ClassBackend.Json

variable {α β γ δ ε : Type}

/-- Whether another item follows in an array. A comma has to be followed by one. -/
def moreItems (first : Bool) : Reader Bool := fun s =>
  match trim s with
  | [] => .error .truncated
  | c :: s =>
    if c = ']' then .ok (false, c :: s)
    else if first then .ok (true, c :: s)
    else if c = ',' then
      match trim s with
      | [] => .error .truncated
      | d :: s => if d = ']' then .error .malformed else .ok (true, d :: s)
    else .error .malformed

/-- Whether another key follows in an object. It is entered up to its opening quote. -/
def moreKeys (first : Bool) : Reader Bool := fun s =>
  match trim s with
  | [] => .error .truncated
  | c :: s =>
    if c = '}' then .ok (false, c :: s)
    else if first then (if c = '"' then .ok (true, s) else .error .malformed)
    else if c = ',' then
      match trim s with
      | [] => .error .truncated
      | d :: s => if d = '"' then .ok (true, s) else .error .malformed
    else .error .malformed

/-- One character, blanks in front of it apart. -/
def symbol (c : Char) : Reader Unit := fun s =>
  match trim s with
  | [] => .error .truncated
  | d :: s => if d = c then .ok ((), s) else .error .malformed

/-- The items of an array after its bracket, `n` of them at most. -/
def items (item : Decoder α) (l : Limits) : Nat → Bool → Reader (List α)
  | 0, _ => refuse .malformed
  | n + 1, first => do
    if ← moreItems first then
      let a ← item l
      let rest ← items item l n false
      pure (a :: rest)
    else
      symbol ']'
      pure []

def list (item : Decoder α) : Decoder (List α) := fun l s =>
  match trim s with
  | '[' :: s =>
    match l.enter with
    | none => .error .malformed
    | some l => items item l l.size true s
  | s => wrongKind s

inductive KeyAction (σ : Type) where
  | unknown
  | again
  | value (read : Decoder σ)

/-- How the fields of a record are read. `Slots` holds the values met so far. -/
structure Fields (α : Type) where
  Slots : Type
  empty : Slots
  onKey : String → Slots → KeyAction Slots
  /-- The record, unless a value is missing. -/
  finish : Slots → Option α
  /-- The fields as items of an array; the flag says whether they are its first. -/
  elements : Bool → Decoder α

namespace Fields

def element (value : Decoder α) (first : Bool) : Decoder α := fun l => do
  if ← moreItems first then value l else refuse .mismatch

/-- A field that has to be there. -/
def required (name : String) (value : Decoder α) : Fields α where
  Slots := Option α
  empty := none
  onKey k slot :=
    if k = name then
      match slot with
      | some _ => .again
      | none => .value fun l => some <$> value l
    else .unknown
  finish slot := slot
  elements first := element value first

/-- A field that may be `null`, and in an object also absent. -/
def optional (name : String) (value : Decoder α) : Fields (Option α) where
  Slots := Option (Option α)
  empty := none
  onKey k slot :=
    if k = name then
      match slot with
      | some _ => .again
      | none => .value fun l => some <$> nullable value l
    else .unknown
  finish slot := some (slot.getD none)
  elements first := element (nullable value) first

/-- The fields of both, those of the first one in front. -/
def and (F : Fields α) (G : Fields β) : Fields (α × β) where
  Slots := F.Slots × G.Slots
  empty := (F.empty, G.empty)
  onKey k slots :=
    match F.onKey k slots.1 with
    | .again => .again
    | .value read => .value fun l => (fun s => (s, slots.2)) <$> read l
    | .unknown =>
      match G.onKey k slots.2 with
      | .again => .again
      | .value read => .value fun l => (fun s => (slots.1, s)) <$> read l
      | .unknown => .unknown
  finish slots :=
    match F.finish slots.1, G.finish slots.2 with
    | some a, some b => some (a, b)
    | _, _ => none
  elements first l := do
    let a ← F.elements first l
    let b ← G.elements false l
    pure (a, b)

def map (f : α → β) (F : Fields α) : Fields β where
  Slots := F.Slots
  empty := F.empty
  onKey := F.onKey
  finish slots := (F.finish slots).map f
  elements first l := f <$> F.elements first l

/-- A record of one field, of two, and so on. -/
def build1 (f : α → ε) (A : Fields α) : Fields ε := A.map f

def build2 (f : α → β → ε) (A : Fields α) (B : Fields β) : Fields ε :=
  (A.and B).map fun (a, b) => f a b

def build3 (f : α → β → γ → ε) (A : Fields α) (B : Fields β) (C : Fields γ) : Fields ε :=
  (A.and (B.and C)).map fun (a, b, c) => f a b c

def build4 (f : α → β → γ → δ → ε) (A : Fields α) (B : Fields β) (C : Fields γ)
    (D : Fields δ) : Fields ε :=
  (A.and (B.and (C.and D))).map fun (a, b, c, d) => f a b c d

/-- The members of an object after its bracket, `n` of them at most. -/
def members (F : Fields α) (l : Limits) : Nat → Bool → F.Slots → Reader α
  | 0, _, _ => refuse .malformed
  | n + 1, first, slots => do
    if ← moreKeys first then
      let key ← Text.read
      match F.onKey key slots with
      | .again => refuse .mismatch
      | .unknown =>
        symbol ':'
        Skip.value
        members F l n false slots
      | .value read =>
        symbol ':'
        let slots ← read l
        members F l n false slots
    else
      match F.finish slots with
      | none => refuse .mismatch
      | some a =>
        symbol '}'
        pure a

end Fields

def record (F : Fields α) : Decoder α := fun l s =>
  match trim s with
  | '{' :: s =>
    match l.enter with
    | none => .error .malformed
    | some l => F.members l l.size true F.empty s
  | '[' :: s =>
    match l.enter with
    | none => .error .malformed
    | some l =>
      match F.elements true l s with
      | .error r => .error r
      | .ok (a, s) => (fun (_, s) => (a, s)) <$> symbol ']' s
  | s => wrongKind s

structure Variant (α : Type) where
  name : String
  /-- What the name alone stands for. -/
  alone : Option α
  payload : Decoder α

namespace Variant

def constant (name : String) (a : α) : Variant α := ⟨name, some a, fun l => (fun _ => a) <$> null l⟩

def content (name : String) (payload : Decoder α) : Variant α := ⟨name, none, payload⟩

end Variant

def oneOf (vs : List (Variant α)) : Decoder α := fun l s =>
  match trim s with
  | [] => .error .truncated
  | c :: s =>
    if c = '{' then
      match l.enter with
      | none => .error .malformed
      | some l =>
        (do
          symbol '"'
          let name ← Text.read
          match vs.find? fun v => v.name == name with
          | none => refuse .mismatch
          | some v =>
            symbol ':'
            let a ← v.payload l
            symbol '}'
            pure a : Reader α) s
    else if c = '"' then
      match Text.read s with
      | .error r => .error r
      | .ok (name, s) =>
        match (vs.find? fun v => v.name == name).bind Variant.alone with
        | some a => .ok (a, s)
        | none => .error .mismatch
    else .error .malformed

def decode (value : Decoder α) (nesting : Nat) (text : String) : Except Refusal α :=
  let s := text.toList
  match value ⟨nesting, s.length + 1⟩ s with
  | .error r => .error r
  | .ok (a, s) => if (trim s).isEmpty then .ok a else .error .malformed

end ClassBackend.Json
