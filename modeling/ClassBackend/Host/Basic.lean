import ClassBackend.Json.Reader

/-! What the compiler asks of the system that it runs on, and the failures that it reports to its
user. -/
namespace ClassBackend

inductive OsError where
  | notFound
  | permissionDenied
  | notADirectory
  | isADirectory
  | nameTooLong
  | zeroInPath
  | zeroInArgument
  | invalidUtf8
  | unsupported
  | other (text : String)
  deriving DecidableEq, Repr

def OsError.message : OsError → String
  | .notFound => "No such file or directory (os error 2)"
  | .permissionDenied => "Permission denied (os error 13)"
  | .notADirectory => "Not a directory (os error 20)"
  | .isADirectory => "Is a directory (os error 21)"
  | .nameTooLong => "File name too long (os error 36)"
  | .zeroInPath => "file name contained an unexpected NUL byte"
  | .zeroInArgument => "nul byte found in provided data"
  | .invalidUtf8 => "stream did not contain valid UTF-8"
  | .unsupported => "Operation not supported (os error 95)"
  | .other text => text

/-- The system, as actions of a monad. -/
structure Host (m : Type → Type) where
  readFile (path : String) : m (Except OsError String)
  writeFile (path text : String) : m (Except OsError Unit)
  /-- Runs a tool to its end and answers its exit status. -/
  spawn (tool : String) (args : List String) : m (Except OsError Nat)
  /-- The best vector extension of the machine, as the native code generator names it. -/
  features : Option String

inductive Failure where
  | input (path : String) (cause : OsError)
  | decode (path : String) (cause : Json.Refusal)
  | output (path : String) (cause : OsError)
  | toolMissing (tool : String) (cause : OsError)
  | toolFailed (tool : String) (status : Nat)
  | target (reason : String)
  deriving DecidableEq, Repr

namespace Failure

def kind : Failure → String
  | .input .. => "Input"
  | .decode .. => "Decode"
  | .output .. => "Output"
  | .toolMissing .. => "ToolMissing"
  | .toolFailed .. => "ToolFailed"
  | .target .. => "Target"

/-- What the failure rests on, in words, where something outside the compiler caused it. -/
def cause? : Failure → Option String
  | .input _ e | .output _ e | .toolMissing _ e => some e.message
  | .decode _ r => some r.category
  | .toolFailed .. | .target .. => none

def message : Failure → String
  | .input path e => "unable to read " ++ path ++ ": " ++ e.message
  | .decode path r => "malformed class hierarchy in " ++ path ++ ": " ++ r.category
  | .output path e => "could not open " ++ path ++ " for writing: " ++ e.message
  | .toolMissing tool e => "failed to spawn " ++ tool ++ ": " ++ e.message
  | .toolFailed tool status => tool ++ " exited with exit status: " ++ toString status
  | .target reason => "no usable target: " ++ reason

def chain (f : Failure) : String :=
  match f.cause? with
  | some c => f.message ++ ": " ++ c
  | none => f.message

/-- 2 where the program could not be read, and 3 where its text could not be finished. -/
def exitCode : Failure → Nat
  | .input .. | .decode .. => 2
  | .output .. | .toolMissing .. | .toolFailed .. | .target .. => 3

end Failure

end ClassBackend
