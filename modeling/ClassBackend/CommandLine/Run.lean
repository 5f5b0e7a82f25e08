import ClassBackend.CommandLine.Options
import ClassBackend.Program.Decode

/-! A whole run of the compiler, over any system. -/
namespace ClassBackend

def readProgram {m : Type → Type} [Monad m] (h : Host m) (path : String) :
    ExceptT Failure m Program := do
  match ← h.readFile path with
  | .error e => throw (.input path e)
  | .ok text =>
    match Program.ofJson text with
    | .error r => throw (.decode path r)
    | .ok p => pure p

namespace CommandLine

inductive Outcome where
  | done
  | usage (e : UsageError)
  | badBackend
  /-- A failure, with what was going on if more than its message is needed. -/
  | failed (f : Failure) (doing : Option String)
  | broken (f : Fault)
  deriving Repr

namespace Outcome

def exitCode : Outcome → Nat
  | .done | .usage .helpAsked | .usage .versionAsked => 0
  | .usage _ => 2
  | .badBackend => 64
  | .failed f _ => f.exitCode
  | .broken _ => 101

def report : Outcome → String
  | .done => ""
  | .usage .helpAsked | .usage .versionAsked => ""
  | .usage _ => "error: bad arguments\n"
  | .badBackend => "--backend must be one of mips|llvm\n"
  | .failed f none => f.chain ++ "\n"
  | .failed f (some doing) => doing ++ ": " ++ f.chain ++ "\n"
  | .broken f => f.message ++ "\n"

end Outcome

variable {m : Type → Type} [Monad m]

/-- Compiles the file that the options name. The unit takes its name from the file. -/
def runOptions (h : Host m) (o : Options) : m Outcome := do
  match o.backend? with
  | none => pure .badBackend
  | some backend =>
    match ← (readProgram h o.file).run with
    | .error f => pure (.failed f none)
    | .ok p =>
      match compile p backend o.gcTest ((Path.fileName? o.file).getD "") with
      | .error f => pure (.broken f)
      | .ok text =>
        match o.plan h.features backend with
        | .error f => pure (.failed f none)
        | .ok z =>
          match ← (z.run h text).run with
          | .error f => pure (.failed f (some ("finalizing " ++ o.file)))
          | .ok _ => pure .done

def run (h : Host m) (args : List String) (environment : String → Option String) : m Outcome :=
  match Options.parse args environment with
  | .error e => pure (.usage e)
  | .ok o => runOptions h o

end CommandLine

end ClassBackend
