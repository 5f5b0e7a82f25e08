/-! The arguments of the command line. Names are written out in full; the first problem from the
left decides. A value given apart is taken up only when the next thing that counts is met, so a
missing or repeated one is noticed there. -/
namespace ClassBackend.CommandLine

inductive UsageError where
  | missingFile
  | unknownArgument
  | invalidValue
  | repeatedOption
  | valueForSwitch
  | helpAsked
  | versionAsked
  deriving DecidableEq, Repr

/-- What takes a value. The file is the one positional argument. -/
inductive Setting where
  | file | output | backend | targetCpu | targetFeatures | runtime
  deriving DecidableEq, Repr

/-- Paths cannot be empty. -/
def Setting.isPath : Setting → Bool
  | .file | .output | .runtime => true
  | .backend | .targetCpu | .targetFeatures => false

inductive Switch where
  | emitOnly | gcTest | traceCodegen
  deriving DecidableEq, Repr

inductive OptionName where
  | setting (s : Setting)
  | switch (s : Switch)
  | help
  | version
  deriving DecidableEq, Repr

def OptionName.ofLong? (name : String) : Option OptionName :=
  [("output", .setting .output), ("backend", .setting .backend),
    ("target-cpu", .setting .targetCpu), ("target-features", .setting .targetFeatures),
    ("runtime", .setting .runtime), ("emit-only", .switch .emitOnly),
    ("gc-test", .switch .gcTest), ("trace-codegen", .switch .traceCodegen),
    ("help", .help), ("version", .version)].lookup name

def OptionName.ofShort? : Char → Option OptionName
  | 'o' => some (.setting .output)
  | 'h' => some .help
  | 'V' => some .version
  | _ => none

structure Arguments where
  settings : List (Setting × String) := []
  switches : List Switch := []
  deriving DecidableEq, Repr

namespace Arguments

def get? (a : Arguments) (s : Setting) : Option String := a.settings.lookup s
def has (a : Arguments) (s : Switch) : Bool := a.switches.contains s

def set (a : Arguments) (s : Setting) (value : String) : Except UsageError Arguments :=
  if (a.get? s).isSome then .error .repeatedOption
  else if s.isPath && value.isEmpty then .error .invalidValue
  else .ok { a with settings := (s, value) :: a.settings }

def turnOn (a : Arguments) (s : Switch) : Except UsageError Arguments :=
  if a.has s then .error .repeatedOption else .ok { a with switches := s :: a.switches }

end Arguments

/-- What has been met but not taken up. -/
inductive Pending where
  | nothing
  /-- An option that waits for its value. -/
  | option (s : Setting)
  | value (s : Setting) (text : String)
  deriving DecidableEq, Repr

structure Scan where
  arguments : Arguments := {}
  pending : Pending := .nothing
  fileSeen : Bool := false
  deriving DecidableEq, Repr

namespace Scan

def settle (s : Scan) : Except UsageError Scan :=
  match s.pending with
  | .nothing => .ok s
  | .option _ => .error .invalidValue
  | .value name text => do
    pure { s with arguments := ← s.arguments.set name text, pending := .nothing }

def set (s : Scan) (name : Setting) (value : String) : Except UsageError Scan := do
  let s ← s.settle
  pure { s with arguments := ← s.arguments.set name value }

def bare (s : Scan) (name : OptionName) : Except UsageError Scan := do
  let s ← s.settle
  match name with
  | .setting name => pure { s with pending := .option name }
  | .switch w => pure { s with arguments := ← s.arguments.turnOn w }
  | .help => throw .helpAsked
  | .version => throw .versionAsked

/-- The name, and the value if an equals sign follows. -/
def splitEquals (cs : List Char) : String × Option String :=
  match cs.dropWhile (· ≠ '=') with
  | [] => (String.ofList cs, none)
  | _ :: value => (String.ofList (cs.takeWhile (· ≠ '=')), some (String.ofList value))

def long (s : Scan) (cs : List Char) : Except UsageError Scan :=
  let (name, value) := splitEquals cs
  match OptionName.ofLong? name, value with
  | none, _ => .error .unknownArgument
  | some name, none => s.bare name
  | some (.setting name), some value => s.set name value
  | some _, some _ => .error .valueForSwitch

/-- The letters after one dash. The first that takes a value takes all that follows. -/
def short (s : Scan) : List Char → Except UsageError Scan
  | [] => .ok s
  | c :: cs =>
    match OptionName.ofShort? c with
    | none => .error .unknownArgument
    | some (.setting name) =>
      match cs with
      | [] => s.bare (.setting name)
      | '=' :: value => s.set name (String.ofList value)
      | value => s.set name (String.ofList value)
    | some name => do short (← s.bare name) cs

def positional (s : Scan) (value : String) : Except UsageError Scan :=
  if s.fileSeen then .error .unknownArgument
  else do
    let s ← s.settle
    pure { s with pending := .value .file value, fileSeen := true }

def plain (s : Scan) (value : String) : Except UsageError Scan :=
  match s.pending with
  | .option name => .ok { s with pending := .value name value }
  | _ => s.positional value

/-- Reads the arguments. After two dashes alone there are no more options. -/
def all (s : Scan) : List String → Except UsageError Scan
  | [] => s.settle
  | a :: rest =>
    match a.toList with
    | ['-', '-'] => do (← rest.foldlM positional s).settle
    | '-' :: '-' :: cs => do (← s.long cs).all rest
    | ['-'] => do (← s.plain a).all rest
    | '-' :: cs => do (← s.short cs).all rest
    | _ => do (← s.plain a).all rest

end Scan

def Arguments.ofList (args : List String) : Except UsageError (String × Arguments) := do
  let s ← ({} : Scan).all args
  match s.arguments.get? .file with
  | some file => pure (file, s.arguments)
  | none => throw .missingFile

end ClassBackend.CommandLine
