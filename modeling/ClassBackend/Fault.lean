/-! Broken promises inside the compiler. The hierarchy handed over by the analyzer is trusted, so
a missing class, an unbound name or an unbalanced stack is a fault and not a diagnostic. Each
cause is a constructor; the wording stands in one function. -/
namespace ClassBackend

inductive Overflow where
  | add | subtract | multiply
  deriving DecidableEq, Repr

inductive Fault where
  | declaredTwice (cls : String)
  | unresolvedParent (parent cls : String)
  | inheritanceCycle
  | rootCount
  | unreachableClass
  | unknownClass (name : String)
  | noField (cls field : String)
  | noMethod (cls method : String)
  | tagOutOfRange
  | noEntry
  | unresolvedIdentifier (name : String)
  | unresolvedSymbol
  | selfHasNoBinding
  | bindingOutsideScope
  | popWithoutPush
  | scopesDisagree
  | unbalancedScopes
  | missingBody (cls method : String)
  | wordRange (value : Int)
  | outsideMethod
  | outsideFunction
  | endWithoutBegin
  | formalCountChanged
  | argumentsNotOnTop
  | equalityClobbered
  | unterminatedMethod
  | unterminatedFunction
  | formalOutOfRange (index : Nat)
  | calleePoppedTooMuch
  | releasedOutOfOrder
  | stackNotBalanced
  | afterTerminator (label : String)
  | overflow (op : Overflow)
  deriving DecidableEq, Repr

def Overflow.message : Overflow → String
  | .add => "attempt to add with overflow"
  | .subtract => "attempt to subtract with overflow"
  | .multiply => "attempt to multiply with overflow"

namespace Fault

def message : Fault → String
  | .declaredTwice c => "impl bug: class " ++ c ++ " declared twice"
  | .unresolvedParent p c => "impl bug: unresolved parent " ++ p ++ " of " ++ c
  | .inheritanceCycle => "impl bug: inheritance graph has a cycle"
  | .rootCount => "impl bug: expected exactly one root class"
  | .unreachableClass => "impl bug: class unreachable from the root"
  | .unknownClass c => "impl bug: unknown class " ++ c
  | .noField c f => "impl bug: class " ++ c ++ " has no field " ++ f
  | .noMethod c m => "impl bug: class " ++ c ++ " has no method " ++ m
  | .tagOutOfRange => "index out of bounds"
  | .noEntry => "no entry found for key"
  | .unresolvedIdentifier x => "impl bug: unresolved identifier " ++ x
  | .unresolvedSymbol => "impl bug: unresolved symbol"
  | .selfHasNoBinding => "impl bug: self has no binding"
  | .bindingOutsideScope => "impl bug: add_symbol outside of any scope"
  | .popWithoutPush => "impl bug: pop_scope without a matching push_scope"
  | .scopesDisagree => "impl bug: scope stack and symbol table disagree"
  | .unbalancedScopes => "impl bug: unbalanced scopes"
  | .missingBody c m => "impl bug: method " ++ c ++ "." ++ m ++ " has no body"
  | .wordRange v => "impl bug: " ++ toString v ++ " does not fit in a machine word"
  | .outsideMethod => "impl bug: code emitted outside of a method"
  | .outsideFunction => "impl bug: code emitted outside of a function"
  | .endWithoutBegin => "impl bug: end_function without begin_function"
  | .formalCountChanged => "impl bug: formal count changed"
  | .argumentsNotOnTop => "impl bug: arguments are not on top of the stack"
  | .equalityClobbered => "impl bug: equality operand would be clobbered"
  | .unterminatedMethod => "impl bug: unterminated method"
  | .unterminatedFunction => "impl bug: unterminated function"
  | .formalOutOfRange i => "impl bug: formal " ++ toString i ++ " out of range"
  | .calleePoppedTooMuch => "impl bug: callee popped more than was pushed"
  | .releasedOutOfOrder => "impl bug: stack slots released out of order"
  | .stackNotBalanced => "impl bug: stack not balanced at method exit"
  | .afterTerminator l => "impl bug: instruction after terminator in " ++ l
  | .overflow op => op.message

end Fault

abbrev Emit (σ α : Type) := StateT σ (Except Fault) α

end ClassBackend
