import ClassBackend.CommandLine.Arguments
import ClassBackend.BuildPlan

/-! The options of a run: the arguments, and what the environment says about tools. -/
namespace ClassBackend.CommandLine

def runtimeVariable : String := "COOLC_RUNTIME"
def codeGeneratorVariable : String := "COOLC_LLC"
def linkerVariable : String := "COOLC_LINKER"
def assemblerVariable : String := "COOLC_ASSEMBLER"

structure Options where
  file : String
  /-- The path of the output, from which the extension still has to be taken. -/
  output : Option String
  backendName : String
  emitOnly : Bool
  targetCpu : Option String
  targetFeatures : Option String
  /-- The runtime to link with; the argument wins over the environment. -/
  runtime : Option String
  gcTest : Bool
  traceCodegen : Bool
  codeGenerator : String
  linker : String
  /-- Without one, the text of a MIPS unit is all that is made. -/
  assembler : Option String
  deriving DecidableEq, Repr

namespace Options

def ofArguments (file : String) (a : Arguments) (environment : String → Option String) :
    Options where
  file := file
  output := a.get? .output
  backendName := (a.get? .backend).getD BackendKind.mips.name
  emitOnly := a.has .emitOnly
  targetCpu := a.get? .targetCpu
  targetFeatures := a.get? .targetFeatures
  runtime := a.get? .runtime <|> environment runtimeVariable
  gcTest := a.has .gcTest
  traceCodegen := a.has .traceCodegen
  codeGenerator := (environment codeGeneratorVariable).getD "llc"
  linker := (environment linkerVariable).getD "cc"
  assembler := environment assemblerVariable

def parse (args : List String) (environment : String → Option String) :
    Except UsageError Options := do
  let (file, a) ← Arguments.ofList args
  pure (ofArguments file a environment)

def backend? (o : Options) : Option BackendKind := BackendKind.ofName? o.backendName

/-- The output, or else the file, without its extension. -/
def outputBase (o : Options) : String := Path.withExtension (o.output.getD o.file) ""

def plan (o : Options) (detected : Option String) (backend : BackendKind) :
    Except Failure BuildPlan := do
  let target ← TargetMachine.resolve detected o.targetCpu o.targetFeatures
  pure {
    backend
    outputBase := o.outputBase
    emitOnly := o.emitOnly
    target
    codeGenerator := o.codeGenerator
    linker := o.linker
    assembler := o.assembler
    runtime := o.runtime }

end Options

end ClassBackend.CommandLine
