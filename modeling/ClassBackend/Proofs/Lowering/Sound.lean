import ClassBackend.Proofs.Lowering.Cases
import ClassBackend.Proofs.Lowering.Dispatch

/-! Every expression: what `lower` emits computes what the expression means, on every machine that
is a model of the backend. -/
namespace ClassBackend.Lowering

open Meaning

mutual

/-- How many slots the evaluation of an expression has in use at once, at most. -/
def depth : Expr → Nat
  | .bool .. | .int .. | .str .. | .ident .. => 0
  | .binary _ _ lhs rhs => max (depth lhs) (depth rhs + 1)
  | .unary _ _ e => depth e
  | .new .. => 1
  | .caseOf _ e branches => max (depth e) (depthBranches branches + 1)
  | .letIn _ _ _ none body => depth body + 1
  | .letIn _ _ _ (some init) body => max (depth init) (depth body + 1)
  | .block _ es => depthAll es
  | .loop _ pred body => max (depth pred) (depth body)
  | .cond _ pred onTrue onFalse => max (depth pred) (max (depth onTrue) (depth onFalse))
  | .dispatch _ recv _ _ args => max (depth recv) (depthAll args) + args.length
  | .assign _ _ e => depth e

def depthAll : List Expr → Nat
  | [] => 0
  | e :: es => max (depth e) (depthAll es)

def depthBranches : List (Branch Expr) → Nat
  | [] => 0
  | ⟨_, _, body⟩ :: bs => max (depth body) (depthBranches bs)

end

variable {B : Backend} {M : Model B} {S : Setting} (rounds : Nat)

theorem length_lowerAll (cx : Context) (es : List Expr) :
    (lowerAll B cx es).length = es.length := by
  induction es with
  | nil => rfl
  | cons e es ih => simp [lowerAll, ih]

mutual

theorem lower_realizes (law : M.Lawful S) (plain : M.Lives → S.Plain) (built : S.Built) (e : Expr) :
    Realizes M (lower B S.context e) (depth e) (evaluate S rounds e) := by
  match e with
  | .bool _ b => exact bool_realizes law b
  | .int _ v => exact literal_realizes law (int_pooled v)
  | .str _ s => exact literal_realizes law (string_pooled s)
  | .ident _ name => exact identifier_realizes law name
  | .binary _ op lhs rhs =>
    exact binary_realizes law plain op (lower_realizes law plain built lhs)
      (lower_realizes law plain built rhs)
  | .unary _ op e => exact unary_realizes law plain op (lower_realizes law plain built e)
  | .new _ ty => exact newObject_realizes law (fun _ _ => built.tagged) ty
  | .caseOf _ e branches =>
    exact caseOf_realizes law built e.line (lower_realizes law plain built e)
      (lowerBranches_realize law plain built branches (Nat.le_refl _))
  | .letIn _ name ty none body =>
    exact (letIn_realizes law name (defaultValue_realizes law ty)
      (lower_realizes law plain built body)).mono (by simp [depth])
  | .letIn _ name ty (some init) body =>
    exact letIn_realizes law name (lower_realizes law plain built init)
      (lower_realizes law plain built body)
  | .block _ es =>
    exact sequence_realizes law (lowerAll_realize law plain built es (Nat.le_refl _))
  | .loop _ pred body =>
    exact loop_realizes law plain rounds
      ((lower_realizes law plain built pred).mono (Nat.le_max_left ..))
      ((lower_realizes law plain built body).mono (Nat.le_max_right ..))
  | .cond _ pred onTrue onFalse =>
    have hp := lower_realizes law plain built pred
    have ht := lower_realizes law plain built onTrue
    have hf := lower_realizes law plain built onFalse
    exact cond_realizes law plain (hp.mono (by simp only [depth]; omega))
      (ht.mono (by simp only [depth]; omega)) (hf.mono (by simp only [depth]; omega))
  | .dispatch _ recv staticType method args =>
    have hr := lower_realizes law plain built recv
    have ha := lowerAll_realize law plain built args (d := max (depth recv) (depthAll args))
      (Nat.le_max_right ..)
    have sim := dispatch_realizes law built recv.line recv.ty staticType method
      (hr.mono (Nat.le_max_left ..)) ha
    rw [length_lowerAll] at sim
    exact sim
  | .assign _ name e => exact assign_realizes law name (lower_realizes law plain built e)

theorem lowerAll_realize (law : M.Lawful S) (plain : M.Lives → S.Plain) (built : S.Built)
    (es : List Expr) {d : Nat} (room : depthAll es ≤ d) :
    List.Forall₂ (fun l ε => Realizes M l d ε) (lowerAll B S.context es)
      (evaluateAll S rounds es) := by
  match es with
  | [] => exact .nil
  | e :: es =>
    simp only [depthAll] at room
    exact .cons ((lower_realizes law plain built e).mono (by omega))
      (lowerAll_realize law plain built es (by omega))

theorem lowerBranches_realize (law : M.Lawful S) (plain : M.Lives → S.Plain) (built : S.Built)
    (bs : List (Branch Expr)) {d : Nat} (room : depthBranches bs ≤ d) :
    List.Forall₂ (fun b e => b.name = e.name ∧ b.ty = e.ty ∧ Realizes M b.body d e.body)
      (lowerBranches B S.context bs) (evaluateBranches S rounds bs) := by
  match bs with
  | [] => exact .nil
  | ⟨name, ty, body⟩ :: bs =>
    simp only [depthBranches] at room
    exact .cons ⟨rfl, rfl, (lower_realizes law plain built body).mono (by omega)⟩
      (lowerBranches_realize law plain built bs (by omega))

end

/-- The same for one run, from names and slots to the value. -/
theorem lower_arrives (law : M.Lawful S) (plain : M.Lives → S.Plain) (built : S.Built) (e : Expr)
    {s s' : Session B} {v : B.Value} (lowered : lower B S.context e s = .ok (v, s'))
    (placed : M.Placed s s') {names : List (String × Binding B.Local)} {K : List (Slot B)}
    {H : List (B.Saved × Val)} {w : World} {c : M.Config} {n : Nat} (room : depth e ≤ n)
    (scope : ∃ marks, s.scopes.Shows s.names names marks)
    (shape : ∃ O, M.shape s.target K O) (live : Live names K H)
    (stands : M.Stands n names K H .here [] [] s w c) :
    Outcome M.ends (evaluate S rounds e w) fun x w' =>
      ∃ c', M.Stands n names K H .here [(v, x)] [] s' w' c' := by
  obtain ⟨marks, shows⟩ := scope
  obtain ⟨O, shape⟩ := shape
  let Z : Scene B := ⟨names, K, marks, O, [], []⟩
  have sets : M.Sets Z s := ⟨shows, shape, by simp [Z], by simp [Z], List.Pairwise.nil⟩
  exact (lower_realizes rounds law plain built e (Z := Z) live room).runs lowered sets placed stands

end ClassBackend.Lowering
