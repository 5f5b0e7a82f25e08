import ClassBackend.Compile
import ClassBackend.Host.Basic
import ClassBackend.Host.Path
import ClassBackend.Text.Unicode

/-! The external tools and how they are called. -/
namespace ClassBackend

structure Command where
  tool : String
  args : List String
  deriving DecidableEq, Repr

structure TargetMachine where
  cpu : String
  features : Option String
  deriving DecidableEq, Repr

/-- Explicit settings win over what the machine offers. -/
def TargetMachine.resolve (detected cpu features : Option String) : Except Failure TargetMachine :=
  let cpu := cpu.getD "native"
  if Text.isAllBlank cpu then .error (.target "empty cpu name")
  else .ok ⟨cpu, features <|> detected⟩

namespace Command

def codeGenerator (tool : String) (target : TargetMachine) (source object : String) : Command :=
  let features :=
    match target.features with
    | some f => ["-mattr=" ++ f]
    | none => []
  ⟨tool, ["-filetype=obj", "-mcpu=" ++ target.cpu] ++ features ++ ["-o", object, source]⟩

def linker (tool object runtime executable : String) : Command :=
  ⟨tool, [object, runtime, "-o", executable]⟩

def assembler (tool source object : String) : Command := ⟨tool, [source, "-o", object]⟩

def run {m : Type → Type} [Monad m] (h : Host m) (c : Command) : ExceptT Failure m Unit := do
  match ← h.spawn c.tool c.args with
  | .error e => throw (.toolMissing c.tool e)
  | .ok status => if status = 0 then pure () else throw (.toolFailed c.tool status)

end Command

end ClassBackend

/-! From the text of a unit to its artifacts: the text itself, an object file and an executable,
each as far as there is a tool for it. -/
namespace ClassBackend

structure BuildPlan where
  backend : BackendKind
  /-- The path that every artifact's path is made from. -/
  outputBase : String
  emitOnly : Bool
  target : TargetMachine
  codeGenerator : String
  linker : String
  assembler : Option String
  runtime : Option String
  deriving DecidableEq, Repr

namespace BuildPlan

def artifact (f : BuildPlan) (extension : String) : String :=
  Path.withExtension f.outputBase extension

def source (f : BuildPlan) : String := f.artifact f.backend.extension
def object (f : BuildPlan) : String := f.artifact "o"

def steps (f : BuildPlan) : List (Command × String) :=
  if f.emitOnly then []
  else
    match f.backend with
    | .mips =>
      match f.assembler with
      | some tool => [(.assembler tool f.source f.object, f.object)]
      | none => []
    | .llvm =>
      (.codeGenerator f.codeGenerator f.target f.source f.object, f.object) ::
        match f.runtime with
        | some runtime => [(.linker f.linker f.object runtime f.outputBase, f.outputBase)]
        | none => []

variable {m : Type → Type} [Monad m]

def runSteps (h : Host m) : List (Command × String) → ExceptT Failure m (List String)
  | [] => pure []
  | (command, product) :: rest => do
    command.run h
    let products ← runSteps h rest
    pure (product :: products)

/-- Writes the text and runs the tools. Answers the artifacts in the order they were made. -/
def run (h : Host m) (f : BuildPlan) (text : String) : ExceptT Failure m (List String) := do
  match ← h.writeFile f.source text with
  | .error e => throw (.output f.source e)
  | .ok () =>
    let products ← runSteps h f.steps
    pure (f.source :: products)

end BuildPlan

end ClassBackend
