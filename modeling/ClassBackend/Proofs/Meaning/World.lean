import ClassBackend.Layout.ClassTable
import ClassBackend.Names
import ClassBackend.Lowering.Backend

/-! What a program computes with, apart from any machine: values, objects, the names in scope, and
the trace of what a run shows to its surroundings. Methods, initializers and polymorphic equality
are not interpreted; an oracle answers for them. -/
namespace ClassBackend.Meaning

inductive Val where
  | void
  /-- The object at this position of the heap. -/
  | obj (position : Nat)
  deriving DecidableEq, Repr, Inhabited

inductive Cell where
  | unset
  | ref (v : Val)
  /-- An unboxed Int or Bool. -/
  | word (n : Int)
  | text (s : String)
  deriving DecidableEq, Repr

def Cell.isPointer : Cell → Bool
  | .unset | .ref _ => true
  | .word _ | .text _ => false

structure Obj where
  tag : Nat
  cells : List Cell
  deriving DecidableEq, Repr, Inhabited

inductive Event where
  | branch (taken : Bool)
  | allocate (tag : Nat)
  /-- A method or an initializer. -/
  | call (label : String) (recv : Val) (args : List Val)
  | equality (a b : Val)
  | barrier (obj : Val) (slot : Nat)
  | abort (kind : AbortKind) (file : String) (line : UInt64)
  deriving DecidableEq, Repr

/-- The objects, and the events so far, oldest first. -/
structure Store where
  heap : List Obj
  trace : List Event

namespace Store

def log (σ : Store) (e : Event) : Store := { σ with trace := σ.trace ++ [e] }

def add (σ : Store) (o : Obj) : Store := { σ with heap := σ.heap ++ [o] }

def setCell (σ : Store) (position slot : Nat) (d : Cell) : Store :=
  { σ with heap := σ.heap.modify position fun o => { o with cells := o.cells.set slot d } }

def setField (σ : Store) (position slot : Nat) (v : Val) : Store :=
  σ.setCell position slot (.ref v)

@[simp] theorem log_heap (σ : Store) (e : Event) : (σ.log e).heap = σ.heap := rfl
@[simp] theorem log_trace (σ : Store) (e : Event) : (σ.log e).trace = σ.trace ++ [e] := rfl
@[simp] theorem add_heap (σ : Store) (o : Obj) : (σ.add o).heap = σ.heap ++ [o] := rfl
@[simp] theorem add_trace (σ : Store) (o : Obj) : (σ.add o).trace = σ.trace := rfl

theorem add_setCell (σ : Store) (o : Obj) (slot : Nat) (d : Cell) :
    (σ.add o).setCell σ.heap.length slot d = σ.add { o with cells := o.cells.set slot d } := by
  simp only [setCell, add]
  congr 1
  induction σ.heap with
  | nil => rfl
  | cons a as ih => simp [ih]

@[simp] theorem setField_trace (σ : Store) (position slot : Nat) (v : Val) :
    (σ.setField position slot v).trace = σ.trace := rfl

end Store

/-- What a name stands for: an attribute of `self`, or a local variable with its value. -/
inductive Var where
  | field (slot : Nat)
  | stack (v : Val)
  deriving DecidableEq, Repr

abbrev Env := List (String × Var)

def rebind (name : String) (v : Val) : Env → Env
  | [] => []
  | (n, x) :: env => if n = name then (n, .stack v) :: env else (n, x) :: rebind name v env

structure World where
  env : Env
  store : Store

inductive Stop where
  /-- The last call of the trace does not return. -/
  | halted (trace : List Event)
  /-- An arithmetic operation raised an exception. -/
  | trapped (trace : List Event)
  /-- A loop went through more rounds than were granted. -/
  | exhausted (trace : List Event)
  /-- An operation met a value that it is not defined on. -/
  | wrong

abbrev Eval (α : Type) := StateT World (Except Stop) α

inductive Literal where
  | int (v : Int64)
  | str (s : String)
  | bool (b : Bool)
  deriving DecidableEq, Repr

inductive Calc where
  | result (n : Int)
  | trap
  | undefined
  deriving DecidableEq, Repr

/-- The answers of code that is not part of the expression. -/
structure Oracle where
  /-- Result and heap after a call; absent where the callee does not return. -/
  call : String → Val → List Val → Store → Option (Val × List Obj)
  equal : Val → Val → Store → Bool

/-- What the value of an expression depends on, apart from the world. -/
structure Setting where
  classes : ClassTable
  /-- The class whose code it is. -/
  current : ClassLayout
  /-- The position of `self`. -/
  self : Nat
  oracle : Oracle
  /-- The position of the pooled object of a literal. -/
  literal : Literal → Nat
  compute : ArithOp → Int → Int → Calc

/-- The label is that of a method with so many formals, or of an initializer. -/
def Setting.takes (S : Setting) (label : String) (arguments : Nat) : Bool :=
  S.classes.classes.any fun k =>
    (label == Linkage.initializer k.name && arguments == 0) ||
      k.methods.any fun m => m.label == label && m.formals == arguments

theorem Setting.takes_label {S : Setting} {label : String} {arguments : Nat}
    (h : S.takes label arguments = true) :
    ∃ k ∈ S.classes.classes, label ∈ Linkage.initializer k.name :: k.methods.map Method.label := by
  simp only [Setting.takes, List.any_eq_true, Bool.or_eq_true, Bool.and_eq_true,
    beq_iff_eq] at h
  obtain ⟨k, hk, ⟨rfl, _⟩ | ⟨m, hm, rfl, _⟩⟩ := h
  · exact ⟨k, hk, List.mem_cons_self⟩
  · exact ⟨k, hk, List.mem_cons_of_mem _ (List.mem_map_of_mem hm)⟩

def Setting.after (S : Setting) (e : Event) (σ : Store) : Option Store :=
  match e with
  | .allocate tag =>
    match S.classes.atTag tag with
    | .ok k => some ((σ.log e).add ⟨tag, List.replicate k.fields.length .unset⟩)
    | .error _ => none
  | .call label recv args =>
    (S.oracle.call label recv args (σ.log e)).map fun p => { σ.log e with heap := p.2 }
  | .branch _ | .equality .. | .barrier .. => some (σ.log e)
  | .abort .. => none

theorem Setting.after_allocate {S : Setting} {tag : Nat} {k : ClassLayout}
    (h : S.classes.classes[tag]? = some k) (σ : Store) : S.after (.allocate tag) σ =
      some ((σ.log (.allocate tag)).add ⟨tag, List.replicate k.fields.length .unset⟩) := by
  simp only [Setting.after, ClassTable.atTag, h]

theorem Setting.after_trace {S : Setting} {e : Event} {σ σ' : Store} (h : S.after e σ = some σ') :
    σ'.trace = σ.trace ++ [e] := by
  unfold Setting.after at h
  cases e with
  | branch b => cases h; rfl
  | allocate tag =>
    dsimp only at h
    split at h
    · cases h
      rfl
    · contradiction
  | call label recv args =>
    obtain ⟨p, _, rfl⟩ := Option.map_eq_some_iff.mp h
    rfl
  | equality a b => cases h; rfl
  | barrier o i => cases h; rfl
  | abort kind file line => contradiction

end ClassBackend.Meaning
