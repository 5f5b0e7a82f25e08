import ClassBackend.Mips.Target
import ClassBackend.Llvm.Target

/-! From a program to the text of its compilation unit. -/
namespace ClassBackend

inductive BackendKind where
  | mips | llvm
  deriving DecidableEq, Repr

namespace BackendKind

def name : BackendKind → String
  | .mips => "mips"
  | .llvm => "llvm"

def ofName? (s : String) : Option BackendKind :=
  if s = "mips" then some .mips else if s = "llvm" then some .llvm else none

/-- The extension of the text that the backend writes. -/
def extension : BackendKind → String
  | .mips => "s"
  | .llvm => "ll"

end BackendKind

/-- The unit of a program and of the built-in classes that it does not declare. -/
def compile (p : Program) (kind : BackendKind) (gcTest : Bool) (sourceName : String) :
    Except Fault String := do
  let classes ← ClassTable.build p.withBuiltins
  match kind with
  | .mips => return (← Mips.assemble gcTest classes).text
  | .llvm => return (← Llvm.Module.assemble sourceName classes).text

end ClassBackend
