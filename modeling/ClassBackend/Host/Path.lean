/-! Paths as texts with a slash between their segments. The file name is the last segment; slashes
and single dots behind it do not count. -/
namespace ClassBackend.Path

/-- The texts between the slashes, empty ones included. -/
def segmentsFrom : List Char → List (List Char)
  | [] => [[]]
  | c :: cs =>
    if c = '/' then [] :: segmentsFrom cs
    else
      match segmentsFrom cs with
      | s :: ss => (c :: s) :: ss
      | [] => [[c]]

def segments (path : String) : List String := (segmentsFrom path.toList).map String.ofList

/-- A path whose last segment names a file, cut around that name. -/
structure Split where
  /-- Up to and with the slash before the name. -/
  directory : List Char
  name : List Char
  trailing : Bool
  deriving DecidableEq, Repr

/-- A reversed path without the slashes and single dots at its end. -/
def dropTrailing : List Char → List Char
  | '/' :: cs => dropTrailing cs
  | ['.'] => []
  | '.' :: '/' :: cs => dropTrailing cs
  | cs => cs

/-- Absent where the path ends in `..` or has no name at all. -/
def split? (path : String) : Option Split :=
  let whole := path.toList.reverse
  let cs := dropTrailing whole
  let name := (cs.takeWhile (· ≠ '/')).reverse
  if name = [] ∨ name = ['.', '.'] then none
  else some ⟨(cs.dropWhile (· ≠ '/')).reverse, name, cs.length < whole.length⟩

def fileName? (path : String) : Option String := (split? path).map fun s => String.ofList s.name

/-- Cuts a name at its last dot. A dot in front does not start an extension. -/
def stemAndExtension (name : List Char) : List Char × Option (List Char) :=
  let rev := name.reverse
  match rev.dropWhile (· ≠ '.') with
  | _ :: c :: stem => ((c :: stem).reverse, some (rev.takeWhile (· ≠ '.')).reverse)
  | _ => (name, none)

/-- Puts an extension in the place of the present one; the empty one means none. A path without a
file name is left alone, and so is the `..` that is left over of a name such as `..x`. -/
def withExtension (path extension : String) : String :=
  match split? path with
  | none => path
  | some s =>
    let suffix := if extension.isEmpty then [] else '.' :: extension.toList
    match stemAndExtension s.name with
    | (['.'], some _) =>
      if s.trailing then String.ofList (s.directory ++ '.' :: suffix)
      else String.ofList (s.directory ++ ['.', '.'])
    | (stem, _) => String.ofList (s.directory ++ stem ++ suffix)

end ClassBackend.Path
