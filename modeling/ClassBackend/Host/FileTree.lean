import ClassBackend.Host.Basic
import ClassBackend.Host.Path

/-! A system in memory: directories, files and programs that do nothing but exit. -/
namespace ClassBackend

inductive Entry where
  | directory
  | file (content : ByteArray)
  /-- A program in place of a file, and the status that it exits with. -/
  | program (status : Nat)

/-- Entries stand under their segments from the root, which is itself a directory. -/
structure FileTree where
  entries : List (List String × Entry) := []
  /-- The directory that relative paths start in. -/
  working : List String := []
  /-- The directories that tools are looked up in. -/
  toolPath : List (List String) := []

namespace FileTree

def nameMax : Nat := 255
def pathMax : Nat := 4096

def lookup (t : FileTree) (here : List String) : Option Entry :=
  if here.isEmpty then some .directory else t.entries.lookup here

def insert (t : FileTree) (here : List String) (e : Entry) : FileTree :=
  { t with entries := (here, e) :: t.entries.filter fun x => x.1 ≠ here }

def add (t : FileTree) (here : List String) (e : Entry) : FileTree :=
  let above := (List.range here.length).filterMap fun n =>
    let d := here.take n
    if (t.lookup d).isSome then none else some d
  (above.foldl (fun t d => t.insert d .directory) t).insert here e

/-- One step of a walk, which only a directory allows. -/
def step (t : FileTree) (here : List String) (segment : String) : Except OsError (List String) :=
  match t.lookup here with
  | some .directory =>
    if segment = "" ∨ segment = "." then .ok here
    else if segment = ".." then .ok here.dropLast
    else if nameMax < segment.utf8ByteSize then .error .nameTooLong
    else if (t.lookup (here ++ [segment])).isSome then .ok (here ++ [segment])
    else .error .notFound
  | some _ => .error .notADirectory
  | none => .error .notFound

def walk (t : FileTree) : List String → List String → Except OsError (List String)
  | here, [] => .ok here
  | here, s :: ss =>
    match t.step here s with
    | .ok here => t.walk here ss
    | .error e => .error e

def start (t : FileTree) (path : String) : Except OsError (List String × List String) :=
  if path.isEmpty then .error .notFound
  else if pathMax ≤ path.utf8ByteSize then .error .nameTooLong
  else .ok (if path.toList.head? = some '/' then [] else t.working, Path.segments path)

def resolve (t : FileTree) (path : String) : Except OsError (List String) := do
  let (here, segments) ← t.start path
  t.walk here segments

def hasZero (s : String) : Bool := s.toList.contains (Char.ofNat 0)

def readFile (t : FileTree) (path : String) : Except OsError String := do
  if hasZero path then throw .zeroInPath
  match t.lookup (← t.resolve path) with
  | some (.file content) =>
    match String.fromUTF8? content with
    | some s => pure s
    | none => throw .invalidUtf8
  | some .directory => throw .isADirectory
  | some (.program _) => throw .permissionDenied
  | none => throw .notFound

/-- Makes a file, or gives an existing one new content. -/
def writeFile (t : FileTree) (path text : String) : Except OsError FileTree := do
  if hasZero path then throw .zeroInPath
  let (here, segments) ← t.start path
  let here ← t.walk here segments.dropLast
  let name := segments.getLastD ""
  match t.lookup here with
  | some .directory =>
    if name = "" ∨ name = "." ∨ name = ".." then throw .isADirectory
    if nameMax < name.utf8ByteSize then throw .nameTooLong
    match t.lookup (here ++ [name]) with
    | some .directory => throw .isADirectory
    | some (.program _) => throw .permissionDenied
    | some (.file _) | none => pure (t.insert (here ++ [name]) (.file text.toUTF8))
  | some _ => throw .notADirectory
  | none => throw .notFound

def execute : Option Entry → Except OsError Nat
  | some (.program status) => .ok status
  | some _ => .error .permissionDenied
  | none => .error .notFound

/-- The first program of that name in the given directories. What is found but cannot be run does
not end the search. -/
def search (t : FileTree) (tool : String) (denied : Bool) :
    List (List String) → Except OsError Nat
  | [] => .error (if denied then .permissionDenied else .notFound)
  | d :: ds =>
    match t.step d tool with
    | .error .nameTooLong => .error .nameTooLong
    | .error _ => t.search tool denied ds
    | .ok here =>
      match t.lookup here with
      | some (.program status) => .ok status
      | _ => t.search tool true ds

/-- A name without a slash is looked up among the tools. -/
def spawn (t : FileTree) (tool : String) (args : List String) : Except OsError Nat := do
  if hasZero tool || args.any hasZero then throw .zeroInArgument
  if tool.isEmpty then throw .notFound
  if tool.toList.contains '/' then execute (t.lookup (← t.resolve tool))
  else t.search tool false t.toolPath

def host : Host (StateM FileTree) where
  readFile path := fun t => (t.readFile path, t)
  writeFile path text := fun t =>
    match t.writeFile path text with
    | .ok t' => (.ok (), t')
    | .error e => (.error e, t)
  spawn tool args := fun t => (t.spawn tool args, t)
  features := none

end FileTree

end ClassBackend
