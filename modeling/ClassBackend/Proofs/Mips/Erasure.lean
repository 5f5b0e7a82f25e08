import ClassBackend.Proofs.Emission.Expressions
import ClassBackend.Proofs.Mips.Annotated

/-! Leaving out the notes of an annotated emission leaves the emission of the backend. -/
namespace ClassBackend.Mips

open Lowering Emission

section Mirrors

variable {σ τ α β : Type} {view : σ → τ}

/-- The same outcome, seen through a view of the state. -/
def Mirrors (view : σ → τ) (m : Emit σ α) (n : Emit τ α) : Prop :=
  ∀ s, (m s).map (Prod.map id view) = n (view s)

variable {m : Emit σ α} {n : Emit τ α} {f : α → Emit σ β} {g : α → Emit τ β}

theorem Mirrors.ret {a : α} : Mirrors view (pure a) (pure a) := fun _ => rfl

theorem Mirrors.bind (h : Mirrors view m n) (k : ∀ a, Mirrors view (f a) (g a)) :
    Mirrors view (m >>= f) (n >>= g) := by
  intro s
  have first := h s
  simp only [Bind.bind, StateT.bind, Except.bind]
  cases hm : m s with
  | ok p =>
    rw [hm] at first
    rw [← first]
    exact k p.1 p.2
  | error e =>
    rw [hm] at first
    rw [← first]
    rfl

theorem Mirrors.choose {p : Prop} [Decidable p] {m' : Emit σ α} {n' : Emit τ α}
    (h : Mirrors view m n) (h' : Mirrors view m' n') :
    Mirrors view (if p then m else m') (if p then n else n') := by
  split
  · exact h
  · exact h'

end Mirrors

namespace Record

variable {α : Type} {m : Asm α} {k : Nat}

theorem noted_mirrors : Mirrors Record.plain (noted k m) m := by
  intro s
  unfold noted
  cases m s.plain <;> rfl

theorem aside_mirrors {mark : Record → Record} (h : ∀ s, (mark s).plain = s.plain) :
    Mirrors Record.plain (aside m mark) m := by
  intro s
  unfold aside
  cases m s.plain with
  | ok p => simp [Except.map, h]
  | error e => rfl

theorem endFunction_mirrors {v : Reg} {formals : Nat} :
    Mirrors Record.plain (endFunction v formals) (Asm.endFunction v formals) := by
  refine noted_mirrors.bind fun _ => ?_
  refine .bind (aside_mirrors fun _ => rfl) fun f => ?_
  exact aside_mirrors fun _ => rfl

theorem newSelfType_mirrors : Mirrors Record.plain newSelfType Asm.newSelfType :=
  noted_mirrors.bind fun _ => noted_mirrors.bind fun _ => noted_mirrors.bind fun _ =>
    noted_mirrors.bind fun _ => noted_mirrors.bind fun _ => noted_mirrors.bind fun _ =>
      noted_mirrors.bind fun _ => noted_mirrors.bind fun _ => noted_mirrors.bind fun _ =>
        noted_mirrors.bind fun _ => noted_mirrors.bind fun _ => .ret

end Record

attribute [local irreducible] Record.noted Record.aside

def unannotated (s : Session annotated) : Session backend :=
  ⟨s.pool, s.names, s.scopes, s.target.plain⟩

/-- Leaving out the notes of the first emission leaves the second. -/
abbrev Erases {α : Type} (m : Lowering annotated α) (n : Lowering backend α) : Prop :=
  Mirrors unannotated m n

section Steps

variable {α : Type}

theorem Mirrors.op {m : Emit Record α} {n : Asm α} (h : Mirrors Record.plain m n) :
    Erases (target m) (target n) := by
  rintro ⟨pool, names, scopes, t⟩
  have step := h t
  simp only [target, unannotated]
  rw [← step]
  cases m t <;> rfl

theorem Mirrors.step {k : Nat} {m : Asm α} :
    Erases (target (B := annotated) (Record.noted k m)) (target (B := backend) m) :=
  .op Record.noted_mirrors

theorem Mirrors.pool {f : Pool → α × Pool} : Erases (pooled f) (pooled f) := fun _ => rfl

theorem Mirrors.fault {f : Fault} : Erases (fault f : Lowering annotated α) (fault f) :=
  fun _ => rfl

theorem Mirrors.found {x : Except Fault α} :
    Erases (Lowering.ofExcept x) (Lowering.ofExcept x) := by
  intro s
  cases x <;> rfl

theorem Mirrors.pushScope : Erases pushScope pushScope := fun _ => rfl

theorem Mirrors.popScope : Erases popScope popScope := by
  intro s
  simp only [Lowering.popScope, unannotated]
  cases s.scopes.popScope <;> rfl

theorem Mirrors.bindName {name : String} {b : Binding Int} :
    Erases (bindName (B := annotated) name b) (bindName (B := backend) name b) := by
  intro s
  simp only [Lowering.bindName, unannotated]
  cases s.scopes.addSymbol (s.names.intern name).1 b <;> rfl

theorem Mirrors.binding {name : String} :
    Erases (binding (B := annotated) name) (binding (B := backend) name) := by
  intro s
  simp only [Lowering.binding, unannotated]
  split
  · rfl
  · cases s.names.get? name with
    | none => rfl
    | some sym =>
      dsimp only
      cases s.scopes.lookup sym <;> rfl

end Steps

section Forms

variable {cx : Context} {l l' e e' : Lowering annotated Reg} {r r' n n' : Lowering backend Reg}
variable {ι : Type} {is : List ι} {m : ι → Lowering annotated Reg} {w : ι → Lowering backend Reg}

theorem defaultValue_erases (ty : String) :
    Erases (defaultValue annotated ty) (defaultValue backend ty) := by
  refine .bind .pool fun c => ?_
  cases c with
  | some c => exact .step
  | none => exact .ret

theorem identifier_erases (name : String) :
    Erases (identifier annotated cx name) (identifier backend cx name) := by
  refine .choose .ret (.bind .binding fun b => ?_)
  cases b with
  | field slot => exact .step
  | stack a => exact .step

theorem operands_erases (hl : Erases l r) (hr : Erases e n) :
    Erases (operands annotated l e) (operands backend r n) :=
  .bind hl fun _ => .bind .step fun _ => .bind hr fun _ => .bind .step fun _ => .ret

theorem boolBlocks_erases : Erases (boolBlocks annotated) (boolBlocks backend) :=
  .bind .step fun _ => .bind .step fun _ => .ret

theorem selectBool_erases (yes no : BlockName) :
    Erases (selectBool annotated yes no) (selectBool backend yes no) :=
  .bind .step fun _ => .bind .step fun _ => .bind .step fun _ =>
    .bind .step fun _ => .bind .step fun _ => .bind .step fun _ =>
      .bind .step fun _ => .step

theorem binary_erases (op : BinOp) (hl : Erases l r) (hr : Erases e n) :
    Erases (Lowering.binary annotated cx op l e) (Lowering.binary backend cx op r n) := by
  have sides := operands_erases hl hr
  have arith (op : ArithOp) :
      Erases (arithmetic annotated cx op l e) (arithmetic backend cx op r n) :=
    .bind .found fun _ => .bind sides fun _ => .bind .step fun _ =>
      .bind .step fun _ => .bind .step fun _ => .step
  have compare (op : Relop) :
      Erases (comparison annotated cx op l e) (comparison backend cx op r n) :=
    .bind .found fun _ => .bind sides fun _ => .bind .step fun _ =>
      .bind .step fun _ => .bind boolBlocks_erases fun _ => .bind .step fun _ =>
        selectBool_erases _ _
  cases op with
  | plus => exact arith .add
  | minus => exact arith .sub
  | mul => exact arith .mul
  | div => exact arith .div
  | lt => exact compare .lt
  | le => exact compare .le
  | eq =>
    exact .bind sides fun _ => .bind boolBlocks_erases fun _ => .bind .step fun _ =>
      .bind .step fun _ => .bind .step fun _ => .bind .step fun _ =>
        .bind .step fun _ => .bind .step fun _ => selectBool_erases _ _

theorem unary_erases (op : UnOp) (he : Erases e n) :
    Erases (Lowering.unary annotated cx op e) (Lowering.unary backend cx op n) := by
  cases op with
  | isVoid =>
    exact .bind he fun _ => .bind boolBlocks_erases fun _ => .bind .step fun _ =>
      selectBool_erases _ _
  | not =>
    exact .bind he fun _ => .bind .found fun _ => .bind .step fun _ =>
      .bind .step fun _ => .bind boolBlocks_erases fun _ => .bind .step fun _ =>
        selectBool_erases _ _
  | neg =>
    exact .bind he fun _ => .bind .found fun _ => .bind .step fun _ =>
      .bind .step fun _ => .step

theorem newObject_erases (ty : String) :
    Erases (newObject annotated cx ty) (newObject backend cx ty) :=
  .choose (.op Record.newSelfType_mirrors)
    (.bind .found fun _ => .bind .step fun _ => .step)

theorem inScope_erases (name : String) (v : Reg) (he : Erases e n) :
    Erases (inScope annotated name v e) (inScope backend name v n) :=
  .bind .step fun _ => .bind .pushScope fun _ => .bind .bindName fun _ =>
    .bind he fun _ => .bind .popScope fun _ => .bind .step fun _ => .ret

theorem letIn_erases (name : String) (hl : Erases l r) (he : Erases e n) :
    Erases (Lowering.letIn annotated name l e) (Lowering.letIn backend name r n) :=
  .bind hl fun _ => inScope_erases name _ he

theorem assign_erases (name : String) (he : Erases e n) :
    Erases (Lowering.assign annotated cx name e) (Lowering.assign backend cx name n) := by
  refine .bind he fun v => .bind .binding fun b => ?_
  cases b with
  | field slot => exact .bind .step fun _ => .bind .step fun _ => .ret
  | stack a => exact .bind .step fun _ => .ret

theorem loop_erases (hl : Erases l r) (he : Erases e n) :
    Erases (Lowering.loop annotated cx l e) (Lowering.loop backend cx r n) :=
  .bind .step fun _ => .bind .step fun _ => .bind .step fun _ =>
    .bind .step fun _ => .bind .step fun _ => .bind hl fun _ =>
      .bind .found fun _ => .bind .step fun _ => .bind .step fun _ =>
        .bind .step fun _ => .bind .step fun _ => .bind he fun _ =>
          .bind .step fun _ => .bind .step fun _ => .ret

theorem cond_erases (hp : Erases e n) (hl : Erases l r) (hr : Erases l' r') :
    Erases (Lowering.cond annotated cx e l l') (Lowering.cond backend cx n r r') :=
  .bind hp fun _ => .bind .found fun _ => .bind .step fun _ => .bind .step fun _ =>
    .bind .step fun _ => .bind .step fun _ => .bind .step fun _ =>
      .bind .step fun _ => .bind .step fun _ => .bind hl fun _ =>
        .bind .step fun _ => .bind .step fun _ => .bind hr fun _ =>
          .bind .step fun _ => .step

theorem sequence_erases (h : ∀ i ∈ is, Erases (m i) (w i)) :
    Erases (sequence annotated (is.map m)) (sequence backend (is.map w)) := by
  induction is with
  | nil => exact .ret
  | cons i is ih =>
    cases is with
    | nil => exact h i (by simp)
    | cons j is =>
      exact .bind (h i (by simp)) fun _ => ih fun k hk => h k (List.mem_cons_of_mem _ hk)

theorem arguments_erases (h : ∀ i ∈ is, Erases (m i) (w i)) :
    Erases (arguments annotated (is.map m)) (arguments backend (is.map w)) := by
  induction is with
  | nil => exact .ret
  | cons i is ih =>
    exact .bind (h i (by simp)) fun _ => .bind .step fun _ =>
      .bind (ih fun k hk => h k (List.mem_cons_of_mem _ hk)) fun _ => .ret

theorem dispatch_erases (line : UInt64) (ty : String) (static : Option String) (method : String)
    (he : Erases e n) (h : ∀ i ∈ is, Erases (m i) (w i)) :
    Erases (Lowering.dispatch annotated cx line ty e static method (is.map m))
      (Lowering.dispatch backend cx line ty n static method (is.map w)) := by
  refine .bind .pool fun _ => .bind (arguments_erases h) fun _ => .bind he fun _ =>
    .bind .step fun _ => .bind .step fun _ => .bind .step fun _ =>
      .bind .step fun _ => .bind .step fun _ => .bind .step fun _ => ?_
  cases static with
  | some cls => exact .bind .found fun _ => .bind .found fun _ => .step
  | none => exact .bind .found fun _ => .bind .found fun _ => .step

end Forms

section Cases

variable {cx : Context} {ι : Type} {is : List ι} {e : Lowering annotated Reg}
variable {n : Lowering backend Reg}
variable {br : ι → Branch (Lowering annotated Reg)} {bw : ι → Branch (Lowering backend Reg)}

structure ErasesBranch (b : Branch (Lowering annotated Reg)) (c : Branch (Lowering backend Reg)) :
    Prop where
  name : b.name = c.name
  ty : b.ty = c.ty
  body : Erases b.body c.body

theorem branchClasses_erases {α : Type}
    {f : List (ClassLayout × Branch (Lowering annotated Reg)) → Lowering annotated α}
    {g : List (ClassLayout × Branch (Lowering backend Reg)) → Lowering backend α}
    (h : ∀ i ∈ is, ErasesBranch (br i) (bw i))
    (k : ∀ ks : List (ClassLayout × ι), (∀ p ∈ ks, p.2 ∈ is) →
      Erases (f (ks.map fun p => (p.1, br p.2))) (g (ks.map fun p => (p.1, bw p.2)))) :
    Erases (branchClasses annotated cx (is.map br) >>= f)
      (branchClasses backend cx (is.map bw) >>= g) := by
  induction is generalizing f g with
  | nil => exact k [] (by simp)
  | cons i is ih =>
    simp only [List.map_cons, branchClasses, bind_assoc, pure_bind]
    rw [(h i (by simp)).ty]
    refine .bind .found fun cls => ?_
    refine ih (fun j hj => h j (List.mem_cons_of_mem _ hj)) fun ks hks => ?_
    refine k ((cls, i) :: ks) fun p hp => ?_
    rcases List.mem_cons.mp hp with rfl | hp
    · exact List.mem_cons_self ..
    · exact List.mem_cons_of_mem _ (hks p hp)

theorem caseArm_erases {tag : Operand} {v : Reg} {join : BlockName} {cls : ClassLayout}
    {b : Branch (Lowering annotated Reg)} {c : Branch (Lowering backend Reg)}
    (h : ErasesBranch b c) :
    Erases (caseArm annotated tag v join cls b) (caseArm backend tag v join cls c) := by
  unfold caseArm
  rw [h.name]
  exact .bind .step fun _ => .bind .step fun _ => .bind .step fun _ =>
    .bind .step fun _ => .bind .step fun _ => .bind .step fun _ =>
      .bind .step fun _ => .bind .step fun _ => .bind .step fun _ =>
        .bind (inScope_erases _ v h.body) fun _ => .bind .step fun _ =>
          .bind .step fun _ => .ret

theorem caseArms_erases {tag : Operand} {v : Reg} {join : BlockName}
    {ks : List (ClassLayout × ι)} (h : ∀ p ∈ ks, ErasesBranch (br p.2) (bw p.2)) :
    Erases (caseArms annotated tag v join (ks.map fun p => (p.1, br p.2)))
      (caseArms backend tag v join (ks.map fun p => (p.1, bw p.2))) := by
  induction ks with
  | nil => exact .ret
  | cons p ks ih =>
    exact (caseArm_erases (h p (by simp))).bind fun _ =>
      .bind (ih fun q hq => h q (List.mem_cons_of_mem _ hq)) fun _ => .ret

theorem caseOf_erases (line : UInt64) (he : Erases e n)
    (h : ∀ i ∈ is, ErasesBranch (br i) (bw i)) :
    Erases (Lowering.caseOf annotated cx line e (is.map br))
      (Lowering.caseOf backend cx line n (is.map bw)) := by
  refine .bind .pool fun _ => .bind he fun _ => .bind .step fun _ =>
    .bind .step fun _ => .bind .step fun _ => .bind .step fun _ =>
      .bind .step fun _ => .bind .step fun _ => .bind .step fun _ =>
        .bind .step fun _ => ?_
  refine branchClasses_erases h fun ks hks => ?_
  rw [testOrder_map, testOrder_map]
  refine Mirrors.bind (caseArms_erases fun p hp => h _ (hks p ?_)) fun _ => ?_
  · exact (testOrder_perm ks).mem_iff.mp hp
  · exact .bind .step fun _ => .step

end Cases

section Expressions

variable (cx : Context)

mutual

theorem lower_erases (e : Expr) : Erases (lower annotated cx e) (lower backend cx e) := by
  match e with
  | .bool _ b => exact .step
  | .int _ v => exact .bind .pool fun _ => .step
  | .str _ s => exact .bind .pool fun _ => .step
  | .ident _ name => exact identifier_erases name
  | .binary _ op lhs rhs => exact binary_erases op (lower_erases lhs) (lower_erases rhs)
  | .unary _ op e => exact unary_erases op (lower_erases e)
  | .new _ ty => exact newObject_erases ty
  | .caseOf _ e branches =>
    rw [lower, lower, lowerBranches_eq, lowerBranches_eq]
    exact caseOf_erases e.line (lower_erases e) (lowerBranches_erases branches)
  | .letIn _ name ty none body =>
    exact letIn_erases name (defaultValue_erases ty) (lower_erases body)
  | .letIn _ name _ (some init) body =>
    exact letIn_erases name (lower_erases init) (lower_erases body)
  | .block _ es =>
    rw [lower, lower, lowerAll_eq, lowerAll_eq]
    exact sequence_erases (lowerAll_erases es)
  | .loop _ pred body => exact loop_erases (lower_erases pred) (lower_erases body)
  | .cond _ pred onTrue onFalse =>
    exact cond_erases (lower_erases pred) (lower_erases onTrue) (lower_erases onFalse)
  | .dispatch _ recv static method args =>
    rw [lower, lower, lowerAll_eq, lowerAll_eq]
    exact dispatch_erases recv.line recv.ty static method (lower_erases recv) (lowerAll_erases args)
  | .assign _ name e => exact assign_erases name (lower_erases e)

theorem lowerAll_erases (es : List Expr) :
    ∀ e ∈ es, Erases (lower annotated cx e) (lower backend cx e) := by
  match es with
  | [] => simp
  | e :: es =>
    rintro e' (_ | ⟨_, he⟩)
    · exact lower_erases e
    · exact lowerAll_erases es e' he

theorem lowerBranches_erases (bs : List (Branch Expr)) :
    ∀ b ∈ bs, ErasesBranch (lowerBranch annotated cx b) (lowerBranch backend cx b) := by
  match bs with
  | [] => simp
  | ⟨name, _, body⟩ :: bs =>
    rintro b (_ | ⟨_, hb⟩)
    · exact ⟨rfl, rfl, lower_erases body⟩
    · exact lowerBranches_erases bs b hb

end

end Expressions

section Units

variable {cx : Context} {t : ClassTable}

theorem bindFields_erases (slot : Nat) (fs : List Field) :
    Erases (bindFields annotated slot fs) (bindFields backend slot fs) := by
  induction fs generalizing slot with
  | nil => exact .ret
  | cons f fs ih => exact .bind .bindName fun _ => ih (slot + 1)

theorem storeDefaults_erases (slot : Nat) (fs : List Field) :
    Erases (storeDefaults annotated cx slot fs) (storeDefaults backend cx slot fs) := by
  induction fs generalizing slot with
  | nil => exact .ret
  | cons f fs ih =>
    unfold storeDefaults
    cases NativeKind.ofType? f.ty with
    | some kind => exact .bind .step fun _ => ih (slot + 1)
    | none =>
      exact .bind (defaultValue_erases f.ty) fun _ => .bind .step fun _ => ih (slot + 1)

theorem storeInits_erases (cx : Context) (slot : Nat) (as : List Attribute) :
    Erases (storeInits annotated cx slot as) (storeInits backend cx slot as) := by
  induction as generalizing slot with
  | nil => exact .ret
  | cons a as ih =>
    unfold storeInits
    cases a.init with
    | none => exact ih (slot + 1)
    | some e =>
      exact .bind (lower_erases cx e) fun _ => .bind .step fun _ =>
        .bind .step fun _ => ih (slot + 1)

theorem beginFunction_erases (label : String) (n : Nat) :
    Erases (target (annotated.beginFunction label n)) (target (backend.beginFunction label n)) :=
  .op (Record.aside_mirrors fun _ => rfl)

theorem endFunction_erases (v : Reg) (n : Nat) :
    Erases (target (annotated.endFunction v n)) (target (backend.endFunction v n)) :=
  .op Record.endFunction_mirrors

theorem emitInit_erases : Erases (emitInit annotated cx) (emitInit backend cx) := by
  refine .bind (beginFunction_erases _ _) fun _ => .bind (storeDefaults_erases _ _) fun _ => ?_
  have rest := (storeInits_erases cx cx.current.ownStart cx.current.decl.attributes).bind
    fun _ => endFunction_erases .s0 0
  cases cx.current.parent with
  | none => exact rest
  | some q => exact .bind .found fun _ => .bind .step fun _ => rest

theorem bindFormals_erases (index count : Nat) (fs : List Formal) :
    Erases (bindFormals annotated index count fs) (bindFormals backend index count fs) := by
  induction fs generalizing index with
  | nil => exact .ret
  | cons f fs ih =>
    exact .bind .step fun _ => .bind .bindName fun _ => ih (index + 1)

theorem emitMethods_erases (methods : List MethodDecl) :
    Erases (emitMethods annotated cx methods) (emitMethods backend cx methods) := by
  induction methods with
  | nil => exact .ret
  | cons m methods ih =>
    unfold emitMethods
    cases m.body with
    | none => exact .bind .fault fun _ => ih
    | some e =>
      refine Mirrors.bind ?_ fun _ => ih
      exact .bind (beginFunction_erases _ _) fun _ => .bind .pushScope fun _ =>
        .bind (bindFormals_erases _ _ _) fun _ => .bind (lower_erases cx e) fun _ =>
          .bind .popScope fun _ => endFunction_erases _ _

theorem emitClass_erases : Erases (emitClass annotated cx) (emitClass backend cx) :=
  .bind emitInit_erases fun _ => .choose .ret (emitMethods_erases _)

mutual

theorem emitTree_erases (tr : Tree ClassLayout) :
    Erases (emitTree annotated t tr) (emitTree backend t tr) := by
  match tr with
  | .node k ss =>
    exact .bind .pushScope fun _ => .bind (bindFields_erases _ _) fun _ =>
      .bind emitClass_erases fun _ => .bind (emitTrees_erases ss) fun _ => .popScope

theorem emitTrees_erases (ts : List (Tree ClassLayout)) :
    Erases (emitTrees annotated t ts) (emitTrees backend t ts) := by
  match ts with
  | [] => exact .ret
  | tr :: ts => exact .bind (emitTree_erases tr) fun _ => emitTrees_erases ts

end

/-- The emission of a unit is the annotated one without its notes. -/
theorem emitUnit_unannotated (t : ClassTable) :
    (emitUnit annotated t).map unannotated = emitUnit backend t := by
  have whole := emitTree_erases (t := t) t.tree { target := {} }
  have start : unannotated { target := {} } = ({ target := {} } : Session backend) := rfl
  rw [start] at whole
  simp only [emitUnit, Bind.bind, Except.bind]
  rw [← whole]
  cases emitTree annotated t t.tree { target := {} } with
  | error e => rfl
  | ok p =>
    simp only [Except.map, Prod.map, unannotated]
    by_cases closed : p.2.scopes.depth = 0
    · rw [if_pos closed, if_pos closed]
      rfl
    · rw [if_neg closed, if_neg closed]

end Units

end ClassBackend.Mips
