import ClassBackend.Program.Builtin
import ClassBackend.Layout.Hierarchy

/-! Class layout: tags, field slots and dispatch slots. Tags number the inheritance tree in
preorder, so a class and its descendants own the range from `tag` to `lastTag`, and a subtype
test is two comparisons. -/
namespace ClassBackend

structure Field where
  name : String
  ty : String
  owner : String
  deriving DecidableEq, Repr

structure Method where
  name : String
  /-- The class whose body fills the slot. -/
  owner : String
  formals : Nat
  deriving DecidableEq, Repr

def Method.label (m : Method) : String := m.owner ++ "." ++ m.name

structure ClassLayout where
  decl : ClassDecl
  tag : Nat
  lastTag : Nat
  inherited : List Field
  ownFields : List Field
  methods : List Method

namespace ClassLayout

def name (k : ClassLayout) : String := k.decl.name
def parent (k : ClassLayout) : Option String := k.decl.parent
def fileName (k : ClassLayout) : String := k.decl.fileName
def isBuiltin (k : ClassLayout) : Bool := Builtin.isBuiltin k.name

/-- Inherited fields in the parent's order, then the class's own. -/
def fields (k : ClassLayout) : List Field := k.inherited ++ k.ownFields

def ownStart (k : ClassLayout) : Nat := k.inherited.length

/-- Where the last field of that name stands. -/
def fieldSlot (k : ClassLayout) (name : String) : Except Fault Nat :=
  match k.fields.reverse.findIdx? (fun f => f.name == name) with
  | some i => .ok (k.fields.length - 1 - i)
  | none => .error (.noField k.name name)

def methodSlot (k : ClassLayout) (name : String) : Except Fault Nat :=
  match k.methods.findIdx? (fun m => m.name == name) with
  | some i => .ok i
  | none => .error (.noMethod k.name name)

/-- `Owner.method` as this class sees it, overrides applied. -/
def methodLabel (k : ClassLayout) (name : String) : Except Fault String :=
  match k.methods.find? (fun m => m.name == name) with
  | some m => .ok m.label
  | none => .error (.noMethod k.name name)

def covers (k : ClassLayout) (tag : Nat) : Bool := k.tag ≤ tag && tag ≤ k.lastTag

end ClassLayout

namespace Layout

/-- An override takes the slot of the method it overrides; a new method goes to the end. -/
def placeMethod (m : Method) : List Method → List Method
  | [] => [m]
  | n :: ns => if n.name = m.name then m :: ns else n :: placeMethod m ns

def ownFields (c : ClassDecl) : List Field := c.attributes.map fun a => ⟨a.name, a.ty, c.name⟩

def ownMethods (c : ClassDecl) : List Method :=
  c.methods.map fun m => ⟨m.name, c.name, m.formals.length⟩

def extendMethods (inherited : List Method) (c : ClassDecl) : List Method :=
  (ownMethods c).foldl (fun ms m => placeMethod m ms) inherited

mutual

/-- Lays out a class and its descendants, numbering from `tag`. -/
def tree (fields : List Field) (methods : List Method) (tag : Nat) :
    Tree ClassDecl → Tree ClassLayout
  | .node c ts =>
    let own := ownFields c
    let table := extendMethods methods c
    .node ⟨c, tag, tag + Tree.sizes ts, fields, own, table⟩
      (trees (fields ++ own) table (tag + 1) ts)

def trees (fields : List Field) (methods : List Method) (tag : Nat) :
    List (Tree ClassDecl) → List (Tree ClassLayout)
  | [] => []
  | t :: ts => tree fields methods tag t :: trees fields methods (tag + Tree.size t) ts

end

end Layout

/-- The layouts of a whole program: as a tree, and as a list in tag order. -/
structure ClassTable where
  tree : Tree ClassLayout
  classes : List ClassLayout := tree.preorder
  classes_eq : classes = tree.preorder := by rfl

namespace ClassTable

def build (p : Program) : Except Fault ClassTable :=
  match Hierarchy.tree p.classes with
  | .error f => .error f
  | .ok t =>
    if Tree.size t = p.classes.length then .ok { tree := Layout.tree [] [] 0 t }
    else .error .unreachableClass

def find (t : ClassTable) (name : String) : Except Fault ClassLayout :=
  match t.classes.find? (fun k => k.name == name) with
  | some k => .ok k
  | none => .error (.unknownClass name)

def atTag (t : ClassTable) (tag : Nat) : Except Fault ClassLayout :=
  match t.classes[tag]? with
  | some k => .ok k
  | none => .error .tagOutOfRange

/-- `SELF_TYPE` is the class whose code is being generated. -/
def resolve (t : ClassTable) (ty : String) (current : ClassLayout) : Except Fault ClassLayout :=
  if ty = selfType then .ok current else t.find ty

end ClassTable

end ClassBackend
