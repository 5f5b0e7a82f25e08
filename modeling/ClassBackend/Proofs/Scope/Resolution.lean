import ClassBackend.Proofs.Emission.Expressions
import ClassBackend.Proofs.Scope.Resolved

/-! Expressions under the symbol table and without it. Where the table shows the variables in front
of the fields of the class, both lowerings have the same outcome, and the table shows the same
names again afterwards. -/
namespace ClassBackend.Resolved

open Lowering

/-- What a symbol table shows: names, innermost first, and the marks of the open scopes. -/
structure Scopes (B : Backend) where
  names : List (String × Binding B.Local)
  marks : List (Option String)

variable {B : Backend} {α β ι : Type}

def Scopes.In (σ : Scopes B) (s : Session B) : Prop := s.scopes.Shows s.names σ.names σ.marks

/-- Two outcomes with the same result, pool and state of the backend; or two faults. -/
inductive Matches (σ : Scopes B) :
    Except Fault (α × Session B) → Except Fault (α × Session B) → Prop
  | ok {a s s'} : σ.In s → s'.pool = s.pool → s'.target = s.target →
    Matches σ (.ok (a, s)) (.ok (a, s'))
  | error {f f'} : Matches σ (.error f) (.error f')

/-- The first emission looks at the symbol table, which goes from the one view to the other; the
second one does not. -/
def Agrees (σ σ' : Scopes B) (m m' : Lowering B α) : Prop :=
  ∀ s s' : Session B, σ.In s → s'.pool = s.pool → s'.target = s.target →
    Matches σ' (m s) (m' s')

variable {σ σ' σ'' : Scopes B} {m m' : Lowering B α} {f f' : α → Lowering B β}

section Steps

theorem Agrees.ret {a : α} : Agrees σ σ (pure a) (pure a) := fun _ _ => .ok

theorem Agrees.bind (h : Agrees σ σ' m m') (k : ∀ a, Agrees σ' σ'' (f a) (f' a)) :
    Agrees σ σ'' (m >>= f) (m' >>= f') := by
  intro s s' there pool state
  have first := h s s' there pool state
  simp only [Bind.bind, StateT.bind, Except.bind]
  revert first
  generalize m s = r
  generalize m' s' = r'
  rintro (⟨there, pool, state⟩ | -)
  · exact k _ _ _ there pool state
  · exact .error

theorem Agrees.step {x : Emit B.State α} : Agrees σ σ (target x) (target x) := by
  rintro ⟨pool, names, scopes, t⟩ ⟨pool', names', scopes', t'⟩ there same state
  cases same
  cases state
  simp only [target]
  cases x t with
  | ok r => exact .ok there rfl rfl
  | error e => exact .error

theorem Agrees.pool {g : Pool → α × Pool} : Agrees σ σ (pooled g) (pooled g) := by
  rintro ⟨pool, names, scopes, t⟩ ⟨pool', names', scopes', t'⟩ there same state
  cases same
  exact .ok there rfl state

theorem Agrees.found {x : Except Fault α} :
    Agrees σ σ (Lowering.ofExcept x) (Lowering.ofExcept x) := by
  intro s s' there pool state
  cases x with
  | ok a => exact .ok there pool state
  | error e => exact .error

theorem Agrees.fault {e : Fault} : Agrees σ σ' (fault e : Lowering B α) (fault e) :=
  fun _ _ _ _ _ => .error

theorem Agrees.choose {p : Prop} [Decidable p] {n n' : Lowering B α} (h : Agrees σ σ' m m')
    (h' : Agrees σ σ' n n') : Agrees σ σ' (if p then m else n) (if p then m' else n') := by
  split
  · exact h
  · exact h'

theorem Agrees.scope {x : Lowering B Unit} (h : Agrees σ' σ'' m m')
    (step : ∀ s, σ.In s → ∃ s', x s = .ok ((), s') ∧ σ'.In s' ∧ s'.pool = s.pool ∧
      s'.target = s.target) : Agrees σ σ'' (x >>= fun _ => m) m' := by
  intro s s' there pool state
  obtain ⟨s₁, run, shows, pool₁, state₁⟩ := step s there
  simp only [Bind.bind, StateT.bind, run, Except.bind]
  exact h s₁ s' shows (pool.trans pool₁.symm) (state.trans state₁.symm)

theorem Agrees.push (h : Agrees ⟨σ.names, none :: σ.marks⟩ σ' m m') :
    Agrees σ σ' (pushScope >>= fun _ => m) m' :=
  h.scope fun _ there => ⟨_, rfl, SymbolTable.Shows.pushScope there, rfl, rfl⟩

theorem Agrees.enter {name : String} {b : Binding B.Local} (inside : σ.marks ≠ [])
    (h : Agrees ⟨(name, b) :: σ.names, some name :: σ.marks⟩ σ' m m') :
    Agrees σ σ' (bindName name b >>= fun _ => m) m' := by
  refine h.scope fun s there => ?_
  obtain ⟨t, added⟩ := there.enter inside (s.names.intern name).1 b
  refine ⟨{ s with names := (s.names.intern name).2, scopes := t }, ?_, there.addSymbol added, rfl,
    rfl⟩
  unfold bindName
  simp only [added]

theorem Agrees.pop {names d : List (String × Binding B.Local)} {k : List (Option String)}
    (h : Agrees ⟨names, k⟩ σ' m m') :
    Agrees ⟨d ++ names, d.map (some ·.1) ++ none :: k⟩ σ' (popScope >>= fun _ => m) m' := by
  refine h.scope fun s there => ?_
  obtain ⟨t, popped, shows⟩ := SymbolTable.Shows.closeScope there
  refine ⟨{ s with scopes := t }, ?_, shows, rfl, rfl⟩
  unfold popScope
  simp only [popped]

end Steps

section Names

def bound (vars : Vars B) : List (String × Binding B.Local) := vars.map fun e => (e.1, .stack e.2)

/-- These names are the fields of the class, each with its slot in the layout. -/
def ShowsFields (k : ClassLayout) (fields : List (String × Binding B.Local)) : Prop :=
  ∀ name, fields.lookup name = (k.fieldSlot name).toOption.map .field

theorem lookup_bound (vars : Vars B) (fields : List (String × Binding B.Local)) (name : String) :
    (bound vars ++ fields).lookup name =
      match vars.lookup name with
      | some access => some (.stack access)
      | none => fields.lookup name := by
  induction vars with
  | nil => rfl
  | cons e vars ih =>
    obtain ⟨n, access⟩ := e
    by_cases same : name = n
    · subst same
      simp [bound]
    · have other : (name == n) = false := by simpa using same
      simpa [bound, List.lookup_cons, other] using ih

/-- A name leads to the innermost of those that the table shows. -/
theorem binding_shown {s : Session B} (there : σ.In s) (name : String) :
    (binding name s).toOption =
      if name = selfName then none else (σ.names.lookup name).map fun b => (b, s) := by
  unfold binding
  by_cases self : name = selfName
  · simp [self, Except.toOption]
  · rw [if_neg self, if_neg self]
    cases named : s.names.get? name with
    | none =>
      have absent : σ.names.lookup name = none := by
        rw [List.lookup_eq_none_iff]
        rintro e he
        rw [bne_iff_ne]
        rintro rfl
        obtain ⟨i, hi⟩ := List.getElem?_of_mem (there.known e he)
        rw [(Interner.get?_eq_some (s := ⟨i⟩) there.distinct).mpr hi] at named
        cases named
      rw [absent]
      rfl
    | some sym =>
      simp only [SymbolTable.lookup, there.look named]
      cases σ.names.lookup name <;> rfl

theorem binding_value {s : Session B} (there : σ.In s) (name : String) :
    (binding name s).toOption.map Prod.fst =
      if name = selfName then none else σ.names.lookup name := by
  rw [binding_shown there]
  split
  · rfl
  · cases σ.names.lookup name <;> rfl

theorem binding_eq {k : ClassLayout} {fields : List (String × Binding B.Local)}
    (shows : ShowsFields k fields) (vars : Vars B) {marks : List (Option String)} {s : Session B}
    (there : Scopes.In ⟨bound vars ++ fields, marks⟩ s) (name : String) :
    (binding name s).toOption = (resolve B k vars name).toOption.map fun b => (b, s) := by
  rw [binding_shown there, resolve, lookup_bound, shows name]
  split
  · rfl
  · cases vars.lookup name with
    | some access => rfl
    | none => cases k.fieldSlot name <;> rfl

theorem Agrees.binding {k : ClassLayout} {fields : List (String × Binding B.Local)}
    {marks : List (Option String)} (shows : ShowsFields k fields) (vars : Vars B) (name : String) :
    Agrees ⟨bound vars ++ fields, marks⟩ ⟨bound vars ++ fields, marks⟩
      (Lowering.binding name) (Lowering.ofExcept (resolve B k vars name)) := by
  intro s s' there pool state
  have same := binding_eq shows vars there name
  cases found : Lowering.binding name s with
  | ok r =>
    rw [found] at same
    cases known : resolve B k vars name with
    | ok b =>
      rw [known] at same
      cases same
      exact .ok there pool state
    | error e =>
      rw [known] at same
      cases same
  | error e =>
    rw [found] at same
    cases known : resolve B k vars name with
    | ok b =>
      rw [known] at same
      cases same
    | error e => exact .error

end Names

section Forms

variable {cx : Context} {l l' e e' r r' : Lowering B B.Value}
variable {is : List ι} {g g' : ι → Lowering B B.Value}

theorem defaultValue_agrees (ty : String) :
    Agrees σ σ (defaultValue B ty) (defaultValue B ty) := by
  refine .bind .pool fun c => ?_
  cases c with
  | some c => exact .step
  | none => exact .ret

theorem operands_agree (hl : Agrees σ σ l l') (hr : Agrees σ σ r r') :
    Agrees σ σ (operands B l r) (operands B l' r') :=
  .bind hl fun _ => .bind .step fun _ => .bind hr fun _ => .bind .step fun _ => .ret

theorem boolBlocks_agree : Agrees σ σ (boolBlocks B) (boolBlocks B) :=
  .bind .step fun _ => .bind .step fun _ => .ret

theorem selectBool_agrees (yes no : BlockName) :
    Agrees σ σ (selectBool B yes no) (selectBool B yes no) :=
  .bind .step fun _ => .bind .step fun _ => .bind .step fun _ => .bind .step fun _ =>
    .bind .step fun _ => .bind .step fun _ => .bind .step fun _ => .step

theorem binary_agrees (op : BinOp) (hl : Agrees σ σ l l') (hr : Agrees σ σ r r') :
    Agrees σ σ (binary B cx op l r) (binary B cx op l' r') := by
  have sides := operands_agree hl hr
  have arith (op : ArithOp) : Agrees σ σ (arithmetic B cx op l r) (arithmetic B cx op l' r') :=
    .bind .found fun _ => .bind sides fun _ => .bind .step fun _ => .bind .step fun _ =>
      .bind .step fun _ => .step
  have compare (op : Relop) : Agrees σ σ (comparison B cx op l r) (comparison B cx op l' r') :=
    .bind .found fun _ => .bind sides fun _ => .bind .step fun _ => .bind .step fun _ =>
      .bind boolBlocks_agree fun _ => .bind .step fun _ => selectBool_agrees _ _
  cases op with
  | plus => exact arith .add
  | minus => exact arith .sub
  | mul => exact arith .mul
  | div => exact arith .div
  | lt => exact compare .lt
  | le => exact compare .le
  | eq =>
    exact .bind sides fun _ => .bind boolBlocks_agree fun _ => .bind .step fun _ =>
      .bind .step fun _ => .bind .step fun _ => .bind .step fun _ => .bind .step fun _ =>
        .bind .step fun _ => selectBool_agrees _ _

theorem unary_agrees (op : UnOp) (he : Agrees σ σ e e') :
    Agrees σ σ (unary B cx op e) (unary B cx op e') := by
  cases op with
  | isVoid =>
    exact .bind he fun _ => .bind boolBlocks_agree fun _ => .bind .step fun _ =>
      selectBool_agrees _ _
  | not =>
    exact .bind he fun _ => .bind .found fun _ => .bind .step fun _ => .bind .step fun _ =>
      .bind boolBlocks_agree fun _ => .bind .step fun _ => selectBool_agrees _ _
  | neg =>
    exact .bind he fun _ => .bind .found fun _ => .bind .step fun _ => .bind .step fun _ => .step

theorem newObject_agrees (ty : String) : Agrees σ σ (newObject B cx ty) (newObject B cx ty) :=
  .choose .step (.bind .found fun _ => .bind .step fun _ => .step)

theorem loop_agrees (hl : Agrees σ σ l l') (he : Agrees σ σ e e') :
    Agrees σ σ (loop B cx l e) (loop B cx l' e') :=
  .bind .step fun _ => .bind .step fun _ => .bind .step fun _ => .bind .step fun _ =>
    .bind .step fun _ => .bind hl fun _ => .bind .found fun _ => .bind .step fun _ =>
      .bind .step fun _ => .bind .step fun _ => .bind .step fun _ => .bind he fun _ =>
        .bind .step fun _ => .bind .step fun _ => .ret

theorem cond_agrees (he : Agrees σ σ e e') (hl : Agrees σ σ l l') (hr : Agrees σ σ r r') :
    Agrees σ σ (cond B cx e l r) (cond B cx e' l' r') :=
  .bind he fun _ => .bind .found fun _ => .bind .step fun _ => .bind .step fun _ =>
    .bind .step fun _ => .bind .step fun _ => .bind .step fun _ => .bind .step fun _ =>
      .bind .step fun _ => .bind hl fun _ => .bind .step fun _ => .bind .step fun _ =>
        .bind hr fun _ => .bind .step fun _ => .step

theorem sequence_agrees (h : ∀ i ∈ is, Agrees σ σ (g i) (g' i)) :
    Agrees σ σ (sequence B (is.map g)) (sequence B (is.map g')) := by
  induction is with
  | nil => exact .ret
  | cons i is ih =>
    cases is with
    | nil => exact h i (by simp)
    | cons j is => exact .bind (h i (by simp)) fun _ => ih fun k hk => h k (.tail _ hk)

theorem arguments_agree (h : ∀ i ∈ is, Agrees σ σ (g i) (g' i)) :
    Agrees σ σ (arguments B (is.map g)) (arguments B (is.map g')) := by
  induction is with
  | nil => exact .ret
  | cons i is ih =>
    exact .bind (h i (by simp)) fun _ => .bind .step fun _ =>
      .bind (ih fun k hk => h k (.tail _ hk)) fun _ => .ret

theorem dispatch_agrees (line : UInt64) (ty : String) (static : Option String) (method : String)
    (he : Agrees σ σ e e') (h : ∀ i ∈ is, Agrees σ σ (g i) (g' i)) :
    Agrees σ σ (dispatch B cx line ty e static method (is.map g))
      (dispatch B cx line ty e' static method (is.map g')) := by
  refine .bind .pool fun _ => .bind (arguments_agree h) fun _ => .bind he fun _ =>
    .bind .step fun _ => .bind .step fun _ => .bind .step fun _ => .bind .step fun _ =>
      .bind .step fun _ => .bind .step fun _ => ?_
  cases static with
  | some cls => exact .bind .found fun _ => .bind .found fun _ => .step
  | none => exact .bind .found fun _ => .bind .found fun _ => .step

end Forms

section Variables

variable {cx : Context} {fields : List (String × Binding B.Local)} {marks : List (Option String)}
variable {vars : Vars B} {l l' e e' : Lowering B B.Value}
variable {body : B.Local → Lowering B B.Value} {name : String}

theorem identifier_agrees (shows : ShowsFields cx.current fields) (name : String) :
    Agrees ⟨bound vars ++ fields, marks⟩ ⟨bound vars ++ fields, marks⟩
      (Lowering.identifier B cx name) (identifier B cx vars name) := by
  refine .choose .ret (.bind (.binding shows vars name) fun b => ?_)
  cases b with
  | field slot => exact .step
  | stack access => exact .step

theorem assign_agrees (shows : ShowsFields cx.current fields) (name : String)
    (he : Agrees ⟨bound vars ++ fields, marks⟩ ⟨bound vars ++ fields, marks⟩ e e') :
    Agrees ⟨bound vars ++ fields, marks⟩ ⟨bound vars ++ fields, marks⟩
      (Lowering.assign B cx name e) (assign B cx vars name e') := by
  refine .bind he fun v => .bind (.binding shows vars name) fun b => ?_
  cases b with
  | field slot => exact .bind .step fun _ => .bind .step fun _ => .ret
  | stack access => exact .bind .step fun _ => .ret

theorem inScope_agrees (v : B.Value)
    (h : ∀ access, Agrees ⟨bound ((name, access) :: vars) ++ fields, some name :: none :: marks⟩
      ⟨bound ((name, access) :: vars) ++ fields, some name :: none :: marks⟩ e (body access)) :
    Agrees ⟨bound vars ++ fields, marks⟩ ⟨bound vars ++ fields, marks⟩
      (inScope B name v e) (hold B v body) := by
  refine .bind .step fun access => .push (.enter (by simp) ?_)
  refine .bind (h access) fun x => ?_
  exact Agrees.pop (d := [(name, .stack access)]) (.bind .step fun _ => .ret)

theorem letIn_agrees
    (hl : Agrees ⟨bound vars ++ fields, marks⟩ ⟨bound vars ++ fields, marks⟩ l l')
    (h : ∀ access, Agrees ⟨bound ((name, access) :: vars) ++ fields, some name :: none :: marks⟩
      ⟨bound ((name, access) :: vars) ++ fields, some name :: none :: marks⟩ e (body access)) :
    Agrees ⟨bound vars ++ fields, marks⟩ ⟨bound vars ++ fields, marks⟩
      (Lowering.letIn B name l e) (letIn B l' body) :=
  .bind hl fun v => inScope_agrees v h

end Variables

section Cases

variable {cx : Context} {e e' : Lowering B B.Value} {is : List ι}
variable {br : ι → Branch (Lowering B B.Value)} {br' : ι → Branch (B.Local → Lowering B B.Value)}

/-- Entering the branch binds its variable; entering the other is told of it. -/
structure EntersAlike (σ : Scopes B) (b : Branch (Lowering B B.Value))
    (b' : Branch (B.Local → Lowering B B.Value)) : Prop where
  ty : b.ty = b'.ty
  body : ∀ v, Agrees σ σ (inScope B b.name v b.body) (enter B v b')

theorem branchClasses_agree
    {f : List (ClassLayout × Branch (Lowering B B.Value)) → Lowering B α}
    {f' : List (ClassLayout × Branch (B.Local → Lowering B B.Value)) → Lowering B α}
    (h : ∀ i ∈ is, (br i).ty = (br' i).ty)
    (k : ∀ ks : List (ClassLayout × ι), (∀ p ∈ ks, p.2 ∈ is) →
      Agrees σ σ' (f (ks.map fun p => (p.1, br p.2))) (f' (ks.map fun p => (p.1, br' p.2)))) :
    Agrees σ σ' (Lowering.branchClasses B cx (is.map br) >>= f)
      (branchClasses B cx (is.map br') >>= f') := by
  induction is generalizing f f' with
  | nil => exact k [] (by simp)
  | cons i is ih =>
    simp only [List.map_cons, Lowering.branchClasses, branchClasses, bind_assoc, pure_bind]
    rw [h i (by simp)]
    refine .bind .found fun cls => ?_
    refine ih (fun j hj => h j (.tail _ hj)) fun ks hks => ?_
    refine k ((cls, i) :: ks) fun p hp => ?_
    rcases List.mem_cons.mp hp with rfl | hp
    · exact .head _
    · exact .tail _ (hks p hp)

theorem caseArm_agrees {tag : B.Raw} {v : B.Value} {join : BlockName} {cls : ClassLayout}
    {b : Branch (Lowering B B.Value)} {b' : Branch (B.Local → Lowering B B.Value)}
    (h : EntersAlike σ b b') :
    Agrees σ σ (Lowering.caseArm B tag v join cls b) (caseArm B tag join cls (enter B v b')) :=
  .bind .step fun _ => .bind .step fun _ => .bind .step fun _ => .bind .step fun _ =>
    .bind .step fun _ => .bind .step fun _ => .bind .step fun _ => .bind .step fun _ =>
      .bind .step fun _ => .bind (h.body v) fun _ => .bind .step fun _ => .bind .step fun _ => .ret

theorem caseArms_agree {tag : B.Raw} {v : B.Value} {join : BlockName}
    {ks : List (ClassLayout × ι)} (h : ∀ p ∈ ks, EntersAlike σ (br p.2) (br' p.2)) :
    Agrees σ σ (Lowering.caseArms B tag v join (ks.map fun p => (p.1, br p.2)))
      (caseArms B (enter B v) tag join (ks.map fun p => (p.1, br' p.2))) := by
  induction ks with
  | nil => exact .ret
  | cons p ks ih =>
    exact .bind (caseArm_agrees (h p (by simp))) fun _ =>
      .bind (ih fun q hq => h q (.tail _ hq)) fun _ => .ret

theorem testOrder_pairs {γ δ : Type} (f : γ → δ) (ks : List (ClassLayout × γ)) :
    testOrder (ks.map fun p => (p.1, f p.2)) = (testOrder ks).map fun p => (p.1, f p.2) := by
  have place (k : ClassLayout × γ) (ks : List (ClassLayout × γ)) :
      placeByTag (k.1, f k.2) (ks.map fun p => (p.1, f p.2)) =
        (placeByTag k ks).map fun p => (p.1, f p.2) := by
    induction ks with
    | nil => rfl
    | cons j ks ih =>
      simp only [List.map_cons, placeByTag]
      split
      · rfl
      · rw [ih, List.map_cons]
  induction ks with
  | nil => rfl
  | cons k ks ih =>
    change placeByTag _ (testOrder _) = (placeByTag k (testOrder ks)).map _
    rw [ih, place]

theorem caseOf_agrees (line : UInt64) (he : Agrees σ σ e e')
    (h : ∀ i ∈ is, EntersAlike σ (br i) (br' i)) :
    Agrees σ σ (Lowering.caseOf B cx line e (is.map br))
      (caseOf B cx (enter B) line e' (is.map br')) := by
  refine .bind .pool fun _ => .bind he fun _ => .bind .step fun _ => .bind .step fun _ =>
    .bind .step fun _ => .bind .step fun _ => .bind .step fun _ => .bind .step fun _ =>
      .bind .step fun _ => .bind .step fun _ => ?_
  refine branchClasses_agree (fun i hi => (h i hi).ty) fun ks hks => ?_
  rw [testOrder_pairs, testOrder_pairs]
  refine .bind (caseArms_agree fun p hp => h _ (hks p ?_)) fun _ => ?_
  · exact (testOrder_perm ks).mem_iff.mp hp
  · exact .bind .step fun _ => .step

end Cases

section Expressions

def lowerBranch (B : Backend) (cx : Context) (vars : Vars B) (b : Branch Expr) :
    Branch (B.Local → Lowering B B.Value) :=
  ⟨b.name, b.ty, fun access => lower B cx ((b.name, access) :: vars) b.body⟩

theorem lowerAll_map (cx : Context) (vars : Vars B) (es : List Expr) :
    lowerAll B cx vars es = es.map (lower B cx vars) := by
  induction es with
  | nil => rfl
  | cons e es ih => rw [lowerAll, ih, List.map_cons]

theorem lowerBranches_map (cx : Context) (vars : Vars B) (bs : List (Branch Expr)) :
    lowerBranches B cx vars bs = bs.map (lowerBranch B cx vars) := by
  induction bs with
  | nil => rfl
  | cons b bs ih => rw [lowerBranches, ih, List.map_cons, lowerBranch]

variable {cx : Context} {fields : List (String × Binding B.Local)}

mutual

/-- An expression in which the variables are in scope, in front of the fields of the class. -/
theorem lower_agrees (shows : ShowsFields cx.current fields) (vars : Vars B)
    (marks : List (Option String)) (e : Expr) :
    Agrees ⟨bound vars ++ fields, marks⟩ ⟨bound vars ++ fields, marks⟩
      (ClassBackend.lower B cx e) (lower B cx vars e) := by
  match e with
  | .bool _ b => exact .step
  | .int _ v => exact .bind .pool fun _ => .step
  | .str _ s => exact .bind .pool fun _ => .step
  | .ident _ name => exact identifier_agrees shows name
  | .binary _ op lhs rhs =>
    exact binary_agrees op (lower_agrees shows vars marks lhs) (lower_agrees shows vars marks rhs)
  | .unary _ op e => exact unary_agrees op (lower_agrees shows vars marks e)
  | .new _ ty => exact newObject_agrees ty
  | .caseOf _ e branches =>
    rw [ClassBackend.lower, lower, Emission.lowerBranches_eq, lowerBranches_map]
    exact caseOf_agrees e.line (lower_agrees shows vars marks e)
      (lowerBranches_agree shows vars marks branches)
  | .letIn _ name ty none body =>
    exact letIn_agrees (defaultValue_agrees ty) fun access =>
      lower_agrees shows ((name, access) :: vars) _ body
  | .letIn _ name _ (some init) body =>
    exact letIn_agrees (lower_agrees shows vars marks init) fun access =>
      lower_agrees shows ((name, access) :: vars) _ body
  | .block _ es =>
    rw [ClassBackend.lower, lower, Emission.lowerAll_eq, lowerAll_map]
    exact sequence_agrees (lowerAll_agrees shows vars marks es)
  | .loop _ pred body =>
    exact loop_agrees (lower_agrees shows vars marks pred) (lower_agrees shows vars marks body)
  | .cond _ pred onTrue onFalse =>
    exact cond_agrees (lower_agrees shows vars marks pred) (lower_agrees shows vars marks onTrue)
      (lower_agrees shows vars marks onFalse)
  | .dispatch _ recv static method args =>
    rw [ClassBackend.lower, lower, Emission.lowerAll_eq, lowerAll_map]
    exact dispatch_agrees recv.line recv.ty static method (lower_agrees shows vars marks recv)
      (lowerAll_agrees shows vars marks args)
  | .assign _ name e => exact assign_agrees shows name (lower_agrees shows vars marks e)

theorem lowerAll_agrees (shows : ShowsFields cx.current fields) (vars : Vars B)
    (marks : List (Option String)) (es : List Expr) : ∀ e ∈ es,
    Agrees ⟨bound vars ++ fields, marks⟩ ⟨bound vars ++ fields, marks⟩
      (ClassBackend.lower B cx e) (lower B cx vars e) := by
  match es with
  | [] => simp
  | e :: es =>
    rintro e' (_ | ⟨_, he⟩)
    · exact lower_agrees shows vars marks e
    · exact lowerAll_agrees shows vars marks es e' he

theorem lowerBranches_agree (shows : ShowsFields cx.current fields) (vars : Vars B)
    (marks : List (Option String)) (bs : List (Branch Expr)) : ∀ b ∈ bs,
    EntersAlike ⟨bound vars ++ fields, marks⟩ (Emission.lowerBranch B cx b)
      (lowerBranch B cx vars b) := by
  match bs with
  | [] => simp
  | ⟨name, _, body⟩ :: bs =>
    rintro b (_ | ⟨_, hb⟩)
    · exact ⟨rfl, fun v => inScope_agrees v fun access =>
        lower_agrees shows ((name, access) :: vars) _ body⟩
    · exact lowerBranches_agree shows vars marks bs b hb

end

end Expressions

end ClassBackend.Resolved
