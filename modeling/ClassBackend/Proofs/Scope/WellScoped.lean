import Mathlib.Data.Set.Insert
import ClassBackend.Layout.ClassTable
import ClassBackend.Proofs.Meaning.World

/-! What an expression may refer to where it stands, read off the expression and its surroundings
alone. -/
namespace ClassBackend

/-- The classes that an expression can name, the methods that they have, and the class that it
stands in. -/
structure Surroundings where
  declared : String → Prop
  answers (cls method : String) : Prop
  current : String

/-- `SELF_TYPE` is the class that the expression stands in. -/
def Surroundings.resolve (S : Surroundings) (ty : String) : String :=
  if ty = selfType then S.current else ty

variable (S : Surroundings)

mutual

/-- With these variables in scope, the expression refers to nothing that is not there. -/
def Expr.Scoped (vars : Set String) : Expr → Prop
  | .bool .. | .int .. | .str .. => True
  | .ident _ name => name = selfName ∨ name ∈ vars
  | .binary _ _ lhs rhs => lhs.Scoped vars ∧ rhs.Scoped vars
  | .unary _ _ e => e.Scoped vars
  | .new _ ty => ty = selfType ∨ S.declared ty
  | .caseOf _ e branches => e.Scoped vars ∧ scopedBranches vars branches
  | .letIn _ name _ none body => body.Scoped (insert name vars)
  | .letIn _ name _ (some init) body => init.Scoped vars ∧ body.Scoped (insert name vars)
  | .block _ es => scopedAll vars es
  | .loop _ pred body => pred.Scoped vars ∧ body.Scoped vars
  | .cond _ pred onTrue onFalse => pred.Scoped vars ∧ onTrue.Scoped vars ∧ onFalse.Scoped vars
  | .dispatch _ recv none method args =>
    scopedAll vars args ∧ recv.Scoped vars ∧ S.answers (S.resolve recv.ty) method
  | .dispatch _ recv (some ty) method args =>
    scopedAll vars args ∧ recv.Scoped vars ∧ S.answers ty method
  | .assign _ name e => e.Scoped vars ∧ name ≠ selfName ∧ name ∈ vars

def Expr.scopedAll (vars : Set String) : List Expr → Prop
  | [] => True
  | e :: es => e.Scoped vars ∧ scopedAll vars es

/-- A branch names a declared class, and its variable is in scope in that branch alone. -/
def Expr.scopedBranches (vars : Set String) : List (Branch Expr) → Prop
  | [] => True
  | ⟨name, ty, body⟩ :: bs =>
    (S.declared ty ∧ body.Scoped (insert name vars)) ∧ scopedBranches vars bs

end

theorem Expr.scopedAll_iff {vars : Set String} {es : List Expr} :
    Expr.scopedAll S vars es ↔ ∀ e ∈ es, e.Scoped S vars := by
  induction es with
  | nil => simp [Expr.scopedAll]
  | cons e es ih => simp [Expr.scopedAll, ih]

theorem Expr.scopedBranches_iff {vars : Set String} {bs : List (Branch Expr)} :
    Expr.scopedBranches S vars bs ↔
      ∀ b ∈ bs, S.declared b.ty ∧ b.body.Scoped S (insert b.name vars) := by
  induction bs with
  | nil => simp [Expr.scopedBranches]
  | cons b bs ih => simp [Expr.scopedBranches, ih]

open Meaning

mutual

def Expr.literals : Expr → List Literal
  | .int _ v => [.int v]
  | .str _ s => [.str s]
  | .bool .. | .ident .. | .new .. => []
  | .binary _ _ lhs rhs => lhs.literals ++ rhs.literals
  | .unary _ _ e => e.literals
  | .caseOf _ e branches => e.literals ++ branchLiterals branches
  | .letIn _ _ _ none body => body.literals
  | .letIn _ _ _ (some init) body => init.literals ++ body.literals
  | .block _ es => allLiterals es
  | .loop _ pred body => pred.literals ++ body.literals
  | .cond _ pred onTrue onFalse => pred.literals ++ onTrue.literals ++ onFalse.literals
  | .dispatch _ recv _ _ args => allLiterals args ++ recv.literals
  | .assign _ _ e => e.literals

def Expr.allLiterals : List Expr → List Literal
  | [] => []
  | e :: es => e.literals ++ allLiterals es

def Expr.branchLiterals : List (Branch Expr) → List Literal
  | [] => []
  | ⟨_, _, body⟩ :: bs => body.literals ++ branchLiterals bs

end

theorem Expr.allLiterals_eq (es : List Expr) : Expr.allLiterals es = es.flatMap Expr.literals := by
  induction es with
  | nil => rfl
  | cons e es ih => rw [Expr.allLiterals, ih, List.flatMap_cons]

theorem Expr.branchLiterals_eq (bs : List (Branch Expr)) :
    Expr.branchLiterals bs = bs.flatMap (·.body.literals) := by
  induction bs with
  | nil => rfl
  | cons b bs ih => rw [Expr.branchLiterals, ih, List.flatMap_cons]

/-- There is a body, and in it the formals are in scope beside these variables. -/
def MethodDecl.Scoped (vars : Set String) (m : MethodDecl) : Prop :=
  ∃ body, m.body = some body ∧ body.Scoped S (vars ∪ {x | x ∈ m.formals.map (·.name)})

namespace ClassDecl

def initializers (c : ClassDecl) : List Expr := c.attributes.filterMap (·.init)

/-- The methods that are compiled; those of a built-in class are not. -/
def compiled (c : ClassDecl) : List MethodDecl := if Builtin.isBuiltin c.name then [] else c.methods

/-- The expressions of a class that code is emitted for. -/
def code (c : ClassDecl) : List Expr := c.initializers ++ c.compiled.filterMap (·.body)

/-- All that is compiled refers to what is there, with the attributes `vars` in scope. -/
structure Scoped (vars : Set String) (c : ClassDecl) : Prop where
  initializers : ∀ e ∈ c.initializers, e.Scoped S vars
  methods : ∀ m ∈ c.compiled, m.Scoped S vars

end ClassDecl

end ClassBackend
