import ClassBackend.Fault
import ClassBackend.Program.Basic

/-! Rose trees, for the inheritance hierarchy: a class and the trees of its children. -/
namespace ClassBackend

inductive Tree (α : Type) where
  | node (value : α) (children : List (Tree α))

namespace Tree

variable {α : Type}

def value : Tree α → α
  | .node a _ => a

def children : Tree α → List (Tree α)
  | .node _ ts => ts

mutual

def size : Tree α → Nat
  | .node _ ts => sizes ts + 1

def sizes : List (Tree α) → Nat
  | [] => 0
  | t :: ts => size t + sizes ts

end

mutual

/-- The values, each before those of its children. -/
def preorder : Tree α → List α
  | .node a ts => a :: preorders ts

def preorders : List (Tree α) → List α
  | [] => []
  | t :: ts => preorder t ++ preorders ts

end

end Tree

end ClassBackend

/-! The inheritance tree of a list of declarations. Names must be distinct, parents declared, no
class may be its own ancestor and one class has no parent; the checks are made in this order. -/
namespace ClassBackend.Hierarchy

def firstRepeated : List String → List String → Option String
  | _, [] => none
  | seen, c :: cs => if c ∈ seen then some c else firstRepeated (c :: seen) cs

/-- The first declared parent that is not itself declared, with the class that names it. -/
def firstOrphan (decls : List ClassDecl) : Option (String × String) :=
  decls.findSome? fun c =>
    match c.parent with
    | some p => if decls.any (·.name == p) then none else some (p, c.name)
    | none => none

def parentOf (decls : List ClassDecl) (name : String) : Option String :=
  (decls.find? fun c => c.name == name).bind (·.parent)

/-- Whether the walk up from `name` meets a class without a parent within `n` classes. -/
def climbs (decls : List ClassDecl) : Nat → String → Bool
  | 0, _ => false
  | n + 1, name =>
    match parentOf decls name with
    | none => true
    | some p => climbs decls n p

/-- A walk longer than the list of classes has met some class twice. -/
def acyclic (decls : List ClassDecl) : Bool :=
  decls.all fun c => climbs decls decls.length c.name

def roots (decls : List ClassDecl) : List ClassDecl := decls.filter (·.parent.isNone)

/-- The classes that name this one as parent, in declaration order. -/
def childrenOf (decls : List ClassDecl) (name : String) : List ClassDecl :=
  decls.filter fun c => c.parent == some name

/-- The tree below a class, cut off `n` generations down. -/
def descend (decls : List ClassDecl) : Nat → ClassDecl → Tree ClassDecl
  | 0, c => .node c []
  | n + 1, c => .node c ((childrenOf decls c.name).map (descend decls n))

def tree (decls : List ClassDecl) : Except Fault (Tree ClassDecl) :=
  match firstRepeated [] (decls.map (·.name)) with
  | some c => .error (.declaredTwice c)
  | none =>
    match firstOrphan decls with
    | some (p, c) => .error (.unresolvedParent p c)
    | none =>
      if acyclic decls then
        match roots decls with
        | [root] => .ok (descend decls decls.length root)
        | _ => .error .rootCount
      else .error .inheritanceCycle

end ClassBackend.Hierarchy
