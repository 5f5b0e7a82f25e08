import ClassBackend.Json.Text

/-! JSON values and their compact text. -/
namespace ClassBackend.Json

inductive Value where
  | null
  | bool (b : Bool)
  | int (v : Int)
  | str (s : String)
  | arr (items : List Value)
  | obj (members : List (String × Value))

namespace Value

def ofOption {α : Type} (f : α → Value) : Option α → Value
  | none => .null
  | some a => f a

mutual

def render : Value → List Char → List Char
  | .null, rest => 'n' :: 'u' :: 'l' :: 'l' :: rest
  | .bool true, rest => 't' :: 'r' :: 'u' :: 'e' :: rest
  | .bool false, rest => 'f' :: 'a' :: 'l' :: 's' :: 'e' :: rest
  | .int v, rest => (toString v).toList ++ rest
  | .str s, rest => Text.quote s ++ rest
  | .arr vs, rest => '[' :: renderItems true vs (']' :: rest)
  | .obj ms, rest => '{' :: renderMembers true ms ('}' :: rest)

/-- The items with a comma in front of each but the first. -/
def renderItems (first : Bool) : List Value → List Char → List Char
  | [], rest => rest
  | v :: vs, rest =>
    let text := render v (renderItems false vs rest)
    if first then text else ',' :: text

def renderMembers (first : Bool) : List (String × Value) → List Char → List Char
  | [], rest => rest
  | (k, v) :: ms, rest =>
    let text := Text.quote k ++ ':' :: render v (renderMembers false ms rest)
    if first then text else ',' :: text

end

def text (v : Value) : String := String.ofList (v.render [])

end Value

end ClassBackend.Json
