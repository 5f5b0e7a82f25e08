import ClassBackend.CommandLine.Run

/-! The command line. External tools are not run from here: a run that needs one ends with the
failure to start it. -/
namespace ClassBackend.CommandLine

def osError : IO.Error → OsError
  | .noFileOrDirectory .. => .notFound
  | .permissionDenied .. => .permissionDenied
  | .inappropriateType .. => .isADirectory
  | e => .other (toString e)

def systemHost : Host IO where
  readFile path := do
    try
      let content ← IO.FS.readBinFile path
      match String.fromUTF8? content with
      | some text => pure (.ok text)
      | none => pure (.error .invalidUtf8)
    catch e => pure (.error (osError e))
  writeFile path text := do
    try
      IO.FS.writeFile path text
      pure (.ok ())
    catch e => pure (.error (osError e))
  spawn _ _ := pure (.error .unsupported)
  features := none

end ClassBackend.CommandLine

open ClassBackend.CommandLine in
def main (args : List String) : IO UInt32 := do
  let names := [runtimeVariable, codeGeneratorVariable, linkerVariable, assemblerVariable]
  let settings ← names.filterMapM fun name => do
    return (← IO.getEnv name).map fun value => (name, value)
  let outcome ← run systemHost args fun name => settings.lookup name
  IO.eprint outcome.report
  return UInt32.ofNat outcome.exitCode
