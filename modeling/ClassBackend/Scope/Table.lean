import ClassBackend.Fault

/-! Interned identifiers: names of attributes, formals, let variables and case variables, numbered
in the order in which they are first met. -/
namespace ClassBackend

structure Symbol where
  index : Nat
  deriving DecidableEq, Repr

structure Interner where
  names : List String := []
  deriving Repr

namespace Interner

def get? (i : Interner) (name : String) : Option Symbol := (i.names.idxOf? name).map Symbol.mk

def intern (i : Interner) (name : String) : Symbol × Interner :=
  match i.get? name with
  | some s => (s, i)
  | none => (⟨i.names.length⟩, ⟨i.names ++ [name]⟩)

def resolve? (i : Interner) (s : Symbol) : Option String := i.names[s.index]?

end Interner

/-! Scoped bindings. Each symbol has a stack of bindings, so that an inner one hides an outer one
of the same name; a second stack records which symbols each open scope has entered. -/

/-- An entry of the scope stack: where a scope opens, or a symbol entered since. -/
inductive Mark where
  | scope
  | symbol (s : Symbol)
  deriving DecidableEq, Repr

/-- Both stacks are newest first. -/
structure SymbolTable (β : Type) where
  bindings : List (Symbol × List β) := []
  marks : List Mark := []

namespace SymbolTable

variable {β : Type}

def bindingsOf (t : SymbolTable β) (s : Symbol) : List β := (t.bindings.lookup s).getD []

def setBindings (s : Symbol) (bs : List β) : List (Symbol × List β) → List (Symbol × List β)
  | [] => [(s, bs)]
  | (r, cs) :: rest => if r = s then (s, bs) :: rest else (r, cs) :: setBindings s bs rest

def pushScope (t : SymbolTable β) : SymbolTable β := { t with marks := .scope :: t.marks }

/-- Drops the newest binding of each symbol down to the innermost scope marker. -/
def unwind (bindings : List (Symbol × List β)) : List Mark → Except Fault (SymbolTable β)
  | [] => .error .popWithoutPush
  | .scope :: marks => .ok ⟨bindings, marks⟩
  | .symbol s :: marks =>
    match (bindings.lookup s).getD [] with
    | [] => .error .scopesDisagree
    | _ :: bs => unwind (setBindings s bs bindings) marks

def popScope (t : SymbolTable β) : Except Fault (SymbolTable β) := unwind t.bindings t.marks

def addSymbol (t : SymbolTable β) (s : Symbol) (b : β) : Except Fault (SymbolTable β) :=
  if t.marks.isEmpty then .error .bindingOutsideScope
  else .ok ⟨setBindings s (b :: t.bindingsOf s) t.bindings, .symbol s :: t.marks⟩

/-- The innermost visible binding, if any. -/
def look (t : SymbolTable β) (s : Symbol) : Option β := (t.bindingsOf s).head?

def lookup (t : SymbolTable β) (s : Symbol) : Except Fault β :=
  match t.look s with
  | some b => .ok b
  | none => .error .unresolvedSymbol

def depth (t : SymbolTable β) : Nat := t.marks.count .scope

end SymbolTable

end ClassBackend
