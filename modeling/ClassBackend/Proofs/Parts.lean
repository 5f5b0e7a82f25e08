import ClassBackend.Proofs.Initializer.Transcript

/-! Where the expressions of a class are in its code. Every expression, however deep it stands in a
method or in an initializer, is lowered somewhere in one function, and what its lowering writes is a
stretch of that function. -/
namespace ClassBackend

open Lowering

namespace Expr

mutual

/-- The expressions inside of an expression, at any depth. -/
def inside : Expr → List Expr
  | .bool .. | .int .. | .str .. | .ident .. | .new .. => []
  | .binary _ _ lhs rhs => (lhs :: inside lhs) ++ (rhs :: inside rhs)
  | .unary _ _ e => e :: inside e
  | .caseOf _ e branches => (e :: inside e) ++ insideBranches branches
  | .letIn _ _ _ none body => body :: inside body
  | .letIn _ _ _ (some init) body => (init :: inside init) ++ (body :: inside body)
  | .block _ es => insideAll es
  | .loop _ pred body => (pred :: inside pred) ++ (body :: inside body)
  | .cond _ pred onTrue onFalse =>
    (pred :: inside pred) ++ ((onTrue :: inside onTrue) ++ (onFalse :: inside onFalse))
  | .dispatch _ recv _ _ args => insideAll args ++ (recv :: inside recv)
  | .assign _ _ e => e :: inside e

def insideAll : List Expr → List Expr
  | [] => []
  | e :: es => (e :: inside e) ++ insideAll es

def insideBranches : List (Branch Expr) → List Expr
  | [] => []
  | ⟨_, _, body⟩ :: bs => (body :: inside body) ++ insideBranches bs

end

/-- An expression and all that is inside of it. -/
def parts (e : Expr) : List Expr := e :: e.inside

theorem insideAll_eq (es : List Expr) : insideAll es = (es.map parts).flatten := by
  induction es with
  | nil => rfl
  | cons e es ih =>
    rw [insideAll, ih]
    rfl

theorem insideBranches_eq (bs : List (Branch Expr)) :
    insideBranches bs = (bs.map fun b => b.body.parts).flatten := by
  induction bs with
  | nil => rfl
  | cons b bs ih =>
    rw [insideBranches, ih]
    rfl

end Expr

/-- The expressions that there is code for: those of initializers, and the bodies of methods. The
methods of a class that comes with the language have none. -/
def ClassLayout.bodies (k : ClassLayout) : List Expr :=
  k.decl.attributes.filterMap (·.init) ++
    if k.isBuiltin then [] else k.decl.methods.filterMap (·.body)

/-- The expressions in the code of a class, at any depth. -/
def ClassLayout.expressions (k : ClassLayout) : List Expr := k.bodies.flatMap Expr.parts

namespace Transcript

variable {B : Backend} {ι α β : Type} (T : Transcript B ι)

/-- From one state to another this code is written in the open function. -/
def Written (s : B.State) (is : List ι) (s' : B.State) : Prop :=
  ∃ fs before, T.inside fs before s ∧ T.inside fs (before ++ is) s'

/-- Between the two sessions the expression is lowered to this code, which leaves this value. -/
def Lowered (cx : Context) (vars : Resolved.Vars B) (e : Expr) (s : Session B) (v : B.Value)
    (is : List ι) (s' : Session B) : Prop :=
  Resolved.lower B cx vars e s = .ok (v, s') ∧ T.Written s.target is s'.target

/-- The code that an expression is lowered to, and the value that it leaves. The pool has all that
the code refers to. -/
def Emits (cx : Context) (p : Pool) (e : Expr) (v : B.Value) (is : List ι) : Prop :=
  ∃ vars s s', T.Lowered cx vars e s v is s' ∧ PoolLe s'.pool p

/-- The code has a stretch that the expression is lowered to. -/
def Has (cx : Context) (p : Pool) (is : List ι) (e : Expr) : Prop :=
  ∃ v js, js <:+: is ∧ T.Emits cx p e v js

def Visits (cx : Context) (es : List Expr) (m : Lowering B α) : Prop :=
  ∀ fs is s a s', T.inside fs is s.target → m s = .ok (a, s') → ∃ js,
    T.inside fs (is ++ js) s'.target ∧ PoolLe s.pool s'.pool ∧ ∀ e ∈ es, T.Has cx s'.pool js e

variable {T} {cx : Context} {m : Lowering B α} {f : α → Lowering B β} {x : Emit B.State α}
variable {es es' : List Expr} {e : Expr} {p q : Pool} {is js : List ι}

theorem Emits.mono {v : B.Value} (h : T.Emits cx p e v is) (grown : PoolLe p q) :
    T.Emits cx q e v is := by
  obtain ⟨vars, s, s', lowered, pool⟩ := h
  exact ⟨vars, s, s', lowered, pool.trans grown⟩

theorem Has.mono (h : T.Has cx p is e) (within : is <:+: js) (grown : PoolLe p q) :
    T.Has cx q js e := by
  obtain ⟨v, ks, inner, emits⟩ := h
  exact ⟨v, ks, inner.trans within, emits.mono grown⟩

section Rules

theorem writes_of_keeps {R : Place ι → Place ι → α → Prop}
    (h : ∀ w, T.account.Keeps w x (R w)) : T.Writes x := by
  intro fs is s a s' there run
  obtain ⟨⟨_, _, _⟩, ⟨same, ⟨js, rfl⟩, _⟩, ⟨_, there'⟩, _⟩ :=
    h ⟨fs, is, {}⟩ {} s a s' ⟨rfl, there⟩ run
  cases same
  exact ⟨js, there'⟩

theorem writes_of_opens {R : Place ι → Place ι → α → Prop}
    (h : ∀ w, T.account.Opens w w x (R w)) : T.Writes x :=
  writes_of_keeps fun w p t a t' there run => by
    obtain ⟨w', later, _, there', ha⟩ := h w p t a t' there run
    exact ⟨w', later, there', ha⟩

theorem Visits.ret {a : α} : T.Visits cx [] (pure a) := by
  intro fs is s b s' there run
  obtain ⟨_, rfl⟩ := pure_ok.mp run
  exact ⟨[], by rwa [List.append_nil], .refl _, by simp⟩

theorem Visits.bind (h : T.Visits cx es m) (k : ∀ a, T.Visits cx es' (f a)) :
    T.Visits cx (es ++ es') (m >>= f) := by
  intro fs is s b s' there run
  obtain ⟨a, t, first, second⟩ := bind_ok.mp run
  obtain ⟨js, there₁, grown₁, met₁⟩ := h fs is s a t there first
  obtain ⟨ks, there₂, grown₂, met₂⟩ := k a fs _ t b s' there₁ second
  refine ⟨js ++ ks, by rwa [← List.append_assoc], grown₁.trans grown₂, fun e he => ?_⟩
  rcases List.mem_append.mp he with he | he
  · exact (met₁ e he).mono (List.prefix_append ..).isInfix grown₂
  · exact (met₂ e he).mono (List.suffix_append ..).isInfix (.refl _)

theorem Visits.before (h : T.Visits cx es m) (k : ∀ a, T.Visits cx [] (f a)) :
    T.Visits cx es (m >>= f) := by
  have both := h.bind k
  rwa [List.append_nil] at both

theorem Visits.op (h : T.Writes x) : T.Visits cx [] (target x) := by
  intro fs is s a s' there run
  obtain ⟨t, done, rfl⟩ := target_ok.mp run
  obtain ⟨js, there'⟩ := h fs is _ _ _ there done
  exact ⟨js, there', .refl _, by simp⟩

theorem Visits.step {R : Place ι → Place ι → α → Prop} (h : ∀ w, T.account.Keeps w x (R w))
    (k : ∀ a, T.Visits cx es (f a)) : T.Visits cx es (target x >>= f) :=
  (Visits.op (writes_of_keeps h)).bind k

theorem Visits.open {R : Place ι → Place ι → α → Prop} (h : ∀ w, T.account.Opens w w x (R w))
    (k : ∀ a, T.Visits cx es (f a)) : T.Visits cx es (target x >>= f) :=
  (Visits.op (writes_of_opens h)).bind k

theorem Visits.block (law : T.account.Lawful) {hint : String} (hinted : hint ∈ blockHints)
    {g : BlockName → Lowering B β} (k : ∀ b, T.Visits cx es (g b)) :
    T.Visits cx es (target (B.newBlock hint) >>= g) :=
  .step (fun w => law.newBlock hinted (law.refl w)) k

theorem Visits.found {y : Except Fault α} {f : α → Lowering B β}
    (k : ∀ a, T.Visits cx es (f a)) : T.Visits cx es (Lowering.ofExcept y >>= f) := by
  intro fs is s b s' there run
  obtain ⟨a, t, first, second⟩ := bind_ok.mp run
  obtain ⟨_, rfl⟩ := ofExcept_ok.mp first
  exact k a fs is _ b s' there second

theorem Visits.pooled {g : Pool → α × Pool} (grows : ∀ p, PoolLe p (g p).2)
    (k : ∀ a, T.Visits cx es (f a)) : T.Visits cx es (pooled g >>= f) := by
  intro fs is s b s' there run
  obtain ⟨a, t, first, second⟩ := bind_ok.mp run
  cases first
  obtain ⟨js, there', grown, met⟩ :=
    k _ fs is ⟨(g s.pool).2, s.names, s.scopes, s.target⟩ b s' there second
  exact ⟨js, there', (grows s.pool).trans grown, met⟩

theorem Visits.plain {R : Place ι → α → Prop} (h : ∀ w, T.account.Does w m R) :
    T.Visits cx [] m := by
  intro fs is s a s' there run
  obtain ⟨js, there', grown⟩ := does_writes h there run
  exact ⟨js, there', grown, by simp⟩

end Rules

section Forms

variable {l r e : Lowering B B.Value} {ls : List (Lowering B B.Value)} {as bs cs : List Expr}
variable {ess : List (List Expr)}

theorem operands_visits (law : T.account.Lawful) (hl : T.Visits cx as l) (hr : T.Visits cx bs r) :
    T.Visits cx (as ++ bs) (operands B l r) :=
  hl.bind fun _ => .step (fun _ => law.preserve trivial) fun _ => hr.before fun _ =>
    .step (fun _ => law.restore trivial) fun _ => .ret

theorem arithmetic_visits (law : T.account.Lawful) (op : ArithOp) (hl : T.Visits cx as l)
    (hr : T.Visits cx bs r) : T.Visits cx (as ++ bs) (arithmetic B cx op l r) :=
  .found fun _ => (operands_visits law hl hr).before fun _ =>
    .step (fun _ => law.unbox trivial trivial) fun _ =>
    .step (fun _ => law.unbox trivial trivial) fun _ =>
    .step (fun _ => law.arith trivial trivial) fun _ =>
    .op (writes_of_keeps fun _ => law.boxInt trivial trivial)

theorem boolBlocks_visits (law : T.account.Lawful) : T.Visits cx [] (boolBlocks B) :=
  .block law (by decide) fun _ => .block law (by decide) fun _ => .ret

theorem selectBool_visits (law : T.account.Lawful) (yes no : BlockName) :
    T.Visits cx [] (selectBool B yes no) :=
  .block law (by decide) fun _ => .open (fun w => law.switchTo (.refl w)) fun _ =>
    .step (fun _ => law.constant trivial) fun _ =>
    .step (fun w => law.closeArm trivial (.refl w) (.refl w)) fun _ =>
    .open (fun w => law.switchTo (.refl w)) fun _ =>
    .step (fun _ => law.constant trivial) fun _ =>
    .step (fun w => law.closeArm trivial (.refl w) (.refl w)) fun _ =>
    .op (writes_of_opens fun w => law.merge (.refl w) fun _ _ => trivial)

theorem tested_visits (law : T.account.Lawful) {op : Relop} {a b : B.Raw} {yes no : BlockName}
    {f : Unit → Lowering B β} (k : T.Visits cx es (f ())) :
    T.Visits cx es (target (B.branchRaw op a b yes no) >>= f) :=
  .step (fun w => law.branchRaw trivial trivial (.refl w) (.refl w) (.refl w) (.refl w)) fun _ => k

theorem comparison_visits (law : T.account.Lawful) (op : Relop) (hl : T.Visits cx as l)
    (hr : T.Visits cx bs r) : T.Visits cx (as ++ bs) (comparison B cx op l r) :=
  .found fun _ => (operands_visits law hl hr).before fun _ =>
    .step (fun _ => law.unbox trivial trivial) fun _ =>
    .step (fun _ => law.unbox trivial trivial) fun _ =>
    (boolBlocks_visits law).bind fun _ => tested_visits law (selectBool_visits law _ _)

theorem equality_visits (law : T.account.Lawful) (hl : T.Visits cx as l) (hr : T.Visits cx bs r) :
    T.Visits cx (as ++ bs) (equality B l r) :=
  (operands_visits law hl hr).before fun _ => (boolBlocks_visits law).bind fun _ =>
    .block law (by decide) fun _ =>
    .step (fun w => law.branchSame trivial trivial (.refl w) (.refl w) (.refl w) (.refl w))
      fun _ =>
    .open (fun w => law.switchTo (.refl w)) fun _ =>
    .step (fun _ => law.callEquality trivial trivial) fun _ =>
    .step (fun _ => law.rawWord) fun _ => tested_visits law (selectBool_visits law _ _)

theorem binary_visits (law : T.account.Lawful) (op : BinOp) (hl : T.Visits cx as l)
    (hr : T.Visits cx bs r) : T.Visits cx (as ++ bs) (Lowering.binary B cx op l r) := by
  cases op with
  | plus | minus | mul | div => exact arithmetic_visits law _ hl hr
  | lt | le => exact comparison_visits law _ hl hr
  | eq => exact equality_visits law hl hr

theorem unary_visits (law : T.account.Lawful) (op : UnOp) (he : T.Visits cx as e) :
    T.Visits cx as (Lowering.unary B cx op e) := by
  cases op with
  | isVoid =>
    exact he.before fun _ => (boolBlocks_visits law).bind fun _ =>
      .step (fun w => law.branchVoid trivial (.refl w) (.refl w) (.refl w) (.refl w)) fun _ =>
      selectBool_visits law _ _
  | not =>
    exact he.before fun _ => .found fun _ => .step (fun _ => law.unbox trivial trivial) fun _ =>
      .step (fun _ => law.rawWord) fun _ => (boolBlocks_visits law).bind fun _ =>
      tested_visits law (selectBool_visits law _ _)
  | neg =>
    exact he.before fun _ => .found fun _ => .step (fun _ => law.unbox trivial trivial) fun _ =>
      .step (fun _ => law.negate trivial) fun _ =>
      .op (writes_of_keeps fun _ => law.boxInt trivial trivial)

theorem loop_visits (law : T.account.Lawful) (hp : T.Visits cx as l) (hb : T.Visits cx bs e) :
    T.Visits cx (as ++ bs) (Lowering.loop B cx l e) :=
  .block law (by decide) fun _ => .block law (by decide) fun _ => .block law (by decide) fun _ =>
    .step (fun w => law.jump (.refl w) (.refl w)) fun _ =>
    .open (fun w => law.switchTo (.refl w)) fun _ => hp.bind fun _ => .found fun _ =>
    .step (fun _ => law.unbox trivial trivial) fun _ => .step (fun _ => law.rawWord) fun _ =>
    tested_visits law (.open (fun w => law.switchTo (.refl w)) fun _ => hb.before fun _ =>
    .step (fun w => law.jump (.refl w) (.refl w)) fun _ =>
    .open (fun w => law.switchTo (.refl w)) fun _ => .ret)

theorem cond_visits (law : T.account.Lawful) (hp : T.Visits cx as l) (ht : T.Visits cx bs r)
    (hf : T.Visits cx cs e) : T.Visits cx (as ++ (bs ++ cs)) (Lowering.cond B cx l r e) :=
  hp.bind fun _ => .found fun _ => .step (fun _ => law.unbox trivial trivial) fun _ =>
    .step (fun _ => law.rawWord) fun _ => .block law (by decide) fun _ =>
    .block law (by decide) fun _ => .block law (by decide) fun _ =>
    tested_visits law (.open (fun w => law.switchTo (.refl w)) fun _ => ht.bind fun _ =>
    .step (fun w => law.closeArm trivial (.refl w) (.refl w)) fun _ =>
    .open (fun w => law.switchTo (.refl w)) fun _ => hf.before fun _ =>
    .step (fun w => law.closeArm trivial (.refl w) (.refl w)) fun _ =>
    .op (writes_of_opens fun w => law.merge (.refl w) fun _ _ => trivial))

theorem sequence_visits (h : List.Forall₂ (T.Visits cx) ess ls) :
    T.Visits cx ess.flatten (sequence B ls) := by
  induction h with
  | nil => exact .ret
  | @cons es l ess ls first rest ih =>
    cases rest with
    | nil => simpa [Lowering.sequence] using first
    | cons _ _ =>
      rw [List.flatten_cons]
      exact first.bind fun _ => ih

theorem arguments_visits (law : T.account.Lawful) (h : List.Forall₂ (T.Visits cx) ess ls) :
    T.Visits cx ess.flatten (arguments B ls) := by
  induction h with
  | nil => exact .ret
  | cons first _ ih =>
    rw [List.flatten_cons]
    exact first.bind fun _ => .step (fun _ => law.preserve trivial) fun _ => ih.before fun _ => .ret

theorem guard_visits (law : T.account.Lawful) {hint hint' : String} (hinted : hint ∈ blockHints)
    (hinted' : hint' ∈ blockHints) {v : B.Value} {kind : AbortKind} {file : Const} {line : UInt64}
    (k : T.Visits cx es m) : T.Visits cx es (do
      let onVoid ← target (B.newBlock hint)
      let onward ← target (B.newBlock hint')
      target (B.branchVoid v onVoid onward)
      target (B.switchTo onVoid)
      target (B.abort kind file line)
      target (B.switchTo onward)
      m) :=
  .block law hinted fun _ => .block law hinted' fun _ =>
    .step (fun w => law.branchVoid trivial (.refl w) (.refl w) (.refl w) (.refl w)) fun _ =>
    .open (fun w => law.switchTo (.refl w)) fun _ => .step (fun _ => law.abort trivial) fun _ =>
    .open (fun w => law.switchTo (.refl w)) fun _ => k

theorem dispatch_visits (law : T.account.Lawful) (line : UInt64) (ty : String)
    (static : Option String) (method : String) (he : T.Visits cx as e)
    (h : List.Forall₂ (T.Visits cx) ess ls) :
    T.Visits cx (ess.flatten ++ as) (Lowering.dispatch B cx line ty e static method ls) := by
  refine .pooled (fun p => (string_pooled _ p).1) fun file => (arguments_visits law h).bind
    fun saved => he.before fun recv => guard_visits law (by decide) (by decide) ?_
  cases static with
  | some name =>
    exact .found fun _ => .found fun _ =>
      .op (writes_of_keeps fun _ => law.callDirect trivial trivial fun _ _ => trivial)
  | none =>
    exact .found fun _ => .found fun _ =>
      .op (writes_of_keeps fun _ => law.callDynamic trivial trivial fun _ _ => trivial)

end Forms

section Variables

variable {value : Lowering B B.Value} {as bs : List Expr}

theorem assign_visits (law : T.account.Lawful) (vars : Resolved.Vars B) (name : String)
    (hv : T.Visits cx as value) : T.Visits cx as (Resolved.assign B cx vars name value) := by
  refine hv.before fun v => .found fun b => ?_
  cases b with
  | field slot =>
    exact .step (fun _ => law.storeField trivial trivial trivial) fun _ =>
      .step (fun _ => law.writeBarrier trivial trivial) fun _ => .ret
  | stack access => exact .step (fun _ => law.storeLocal trivial trivial) fun _ => .ret

theorem hold_visits (law : T.account.Lawful) {v : B.Value} {body : B.Local → Lowering B B.Value}
    (hb : ∀ a, T.Visits cx bs (body a)) : T.Visits cx bs (Resolved.hold B v body) :=
  .step (fun _ => law.allocLocal trivial) fun a => (hb a).before fun _ =>
    .step (fun _ => law.freeLocal trivial) fun _ => .ret

theorem letIn_visits (law : T.account.Lawful) {body : B.Local → Lowering B B.Value}
    (hv : T.Visits cx as value) (hb : ∀ a, T.Visits cx bs (body a)) :
    T.Visits cx (as ++ bs) (Resolved.letIn B value body) :=
  hv.bind fun _ => hold_visits law hb

end Variables

section Cases

variable {ε : Type} {e : Lowering B B.Value} {as : List Expr} {ess : List (List Expr)}
variable {enter : B.Value → Branch ε → Lowering B B.Value} {cs : List (ClassLayout × Branch ε)}

theorem caseArm_visits (law : T.account.Lawful) {tag : B.Raw} {join : BlockName} {k : ClassLayout}
    (he : T.Visits cx as e) : T.Visits cx as (Resolved.caseArm B tag join k e) :=
  .block law (by decide) fun _ => .block law (by decide) fun _ => .block law (by decide) fun _ =>
    .step (fun _ => law.rawWord) fun _ => tested_visits law <|
    .open (fun w => law.switchTo (.refl w)) fun _ => .step (fun _ => law.rawWord) fun _ =>
    tested_visits law <| .open (fun w => law.switchTo (.refl w)) fun _ => he.before fun _ =>
    .step (fun w => law.closeArm trivial (.refl w) (.refl w)) fun _ =>
    .open (fun w => law.switchTo (.refl w)) fun _ => .ret

theorem caseArms_visits (law : T.account.Lawful) {tag : B.Raw} {join : BlockName} {v : B.Value}
    (h : List.Forall₂ (fun es c => T.Visits cx es (enter v c.2)) ess cs) :
    T.Visits cx ess.flatten (Resolved.caseArms B (enter v) tag join cs) := by
  induction h with
  | nil => exact .ret
  | cons first _ ih =>
    rw [List.flatten_cons]
    exact (caseArm_visits law first).bind fun _ => ih.before fun _ => .ret

theorem branchClasses_visits {bs : List (Branch ε)}
    {f : List (ClassLayout × Branch ε) → Lowering B β}
    (k : ∀ cs, cs.map Prod.snd = bs → T.Visits cx es (f cs)) :
    T.Visits cx es (Resolved.branchClasses B cx bs >>= f) := by
  induction bs generalizing f with
  | nil =>
    rw [Resolved.branchClasses, pure_bind]
    exact k [] rfl
  | cons b bs ih =>
    simp only [Resolved.branchClasses, bind_assoc, pure_bind]
    refine .found fun c => ih fun cs names => k _ ?_
    rw [List.map_cons, names]

theorem caseOf_visits (law : T.account.Lawful) (line : UInt64) {bs : List (Branch ε)}
    (he : T.Visits cx as e)
    (h : ∀ v, List.Forall₂ (fun es b => T.Visits cx es (enter v b)) ess bs) :
    T.Visits cx (as ++ ess.flatten) (Resolved.caseOf B cx enter line e bs) := by
  refine .pooled (fun p => (string_pooled _ p).1) fun file => he.bind fun v => ?_
  refine guard_visits law (by decide) (by decide) ?_
  refine .step (fun _ => law.loadTag trivial) fun tag => .block law (by decide) fun join => ?_
  refine branchClasses_visits fun cs names => ?_
  have branches : List.Forall₂ (fun c es => T.Visits cx es (enter v c.2)) cs ess := by
    have each := h v
    rw [← names, List.forall₂_map_right_iff] at each
    exact each.flip
  obtain ⟨fss, tested, perm⟩ := List.perm_comp_forall₂ (testOrder_perm cs) branches
  have arms : T.Visits cx fss.flatten (do
      let arms ← Resolved.caseArms B (enter v) tag join (testOrder cs)
      target (B.abort .caseNoMatch file line)
      target (B.merge arms join)) :=
    (caseArms_visits law tested.flip).before fun _ => .step (fun _ => law.abort trivial) fun _ =>
      .op (writes_of_opens fun w => law.merge (.refl w) fun _ _ => trivial)
  intro fs is s u s' there run
  obtain ⟨js, there', grown, met⟩ := arms fs is s u s' there run
  exact ⟨js, there', grown, fun e he => met e (perm.flatten.mem_iff.mpr he)⟩

end Cases

section Expressions

theorem Visits.whole {vars : Resolved.Vars B}
    (h : T.Visits cx e.inside (Resolved.lower B cx vars e)) :
    T.Visits cx e.parts (Resolved.lower B cx vars e) := by
  intro fs is s v s' there run
  obtain ⟨js, there', grown, met⟩ := h fs is s v s' there run
  refine ⟨js, there', grown, ?_⟩
  rintro d (_ | ⟨_, hd⟩)
  · exact ⟨v, js, List.infix_refl js, vars, s, s', ⟨run, fs, is, there, there'⟩, .refl _⟩
  · exact met d hd

theorem leaf_visits (law : T.account.Lawful) (vars : Resolved.Vars B) (e : Expr) :
    T.Visits cx [] (Resolved.lower B cx vars e) :=
  .plain fun _ => (Account.lower_fits law (knows cx) (fun _ _ => trivial) e).does law

theorem defaultValue_visits (law : T.account.Lawful) (ty : String) :
    T.Visits cx [] (defaultValue B ty) :=
  .plain fun _ => (Account.defaultValue_fits law ty).does law

mutual

theorem lower_visits (law : T.account.Lawful) (vars : Resolved.Vars B) (e : Expr) :
    T.Visits cx e.parts (Resolved.lower B cx vars e) := by
  refine .whole ?_
  match e with
  | .bool .. | .int .. | .str .. | .ident .. | .new .. => exact leaf_visits law vars _
  | .binary _ op lhs rhs =>
    exact binary_visits law op (lower_visits law vars lhs) (lower_visits law vars rhs)
  | .unary _ op e => exact unary_visits law op (lower_visits law vars e)
  | .caseOf _ e branches =>
    rw [Expr.inside, Expr.insideBranches_eq]
    exact caseOf_visits law e.line (lower_visits law vars e) (lowerBranches_visit law vars branches)
  | .letIn _ _ ty none body =>
    exact letIn_visits law (defaultValue_visits law ty) fun _ => lower_visits law _ body
  | .letIn _ _ _ (some init) body =>
    exact letIn_visits law (lower_visits law vars init) fun _ => lower_visits law _ body
  | .block _ es =>
    rw [Expr.inside, Expr.insideAll_eq]
    exact sequence_visits (lowerAll_visit law vars es)
  | .loop _ pred body =>
    exact loop_visits law (lower_visits law vars pred) (lower_visits law vars body)
  | .cond _ pred onTrue onFalse =>
    exact cond_visits law (lower_visits law vars pred) (lower_visits law vars onTrue)
      (lower_visits law vars onFalse)
  | .dispatch _ recv static method args =>
    rw [Expr.inside, Expr.insideAll_eq]
    exact dispatch_visits law recv.line recv.ty static method (lower_visits law vars recv)
      (lowerAll_visit law vars args)
  | .assign _ name e => exact assign_visits law vars name (lower_visits law vars e)

theorem lowerAll_visit (law : T.account.Lawful) (vars : Resolved.Vars B) (es : List Expr) :
    List.Forall₂ (T.Visits cx) (es.map Expr.parts) (Resolved.lowerAll B cx vars es) := by
  match es with
  | [] => exact .nil
  | e :: es => exact .cons (lower_visits law vars e) (lowerAll_visit law vars es)

theorem lowerBranches_visit (law : T.account.Lawful) (vars : Resolved.Vars B)
    (bs : List (Branch Expr)) (v : B.Value) :
    List.Forall₂ (fun es b => T.Visits cx es (Resolved.enter B v b))
      (bs.map fun b => b.body.parts) (Resolved.lowerBranches B cx vars bs) := by
  match bs with
  | [] => exact .nil
  | ⟨_, _, body⟩ :: bs =>
    exact .cons (hold_visits law fun _ => lower_visits law _ body)
      (lowerBranches_visit law vars bs v)

end

end Expressions

section Functions

/-- Emission of functions in which these expressions are lowered. -/
def Fills (T : Transcript B ι) (cx : Context) (es : List Expr) (m : Lowering B Unit) : Prop :=
  ∀ fs s s', T.idle fs s.target → m s = .ok ((), s') → ∃ gs,
    T.idle (fs ++ gs) s'.target ∧ PoolLe s.pool s'.pool ∧ ∀ e ∈ es, ∃ g ∈ gs, T.Has cx s'.pool g e

theorem Fills.nothing : T.Fills cx [] (pure ()) := by
  intro fs s s' there run
  obtain ⟨_, rfl⟩ := pure_ok.mp run
  exact ⟨[], by rwa [List.append_nil], .refl _, by simp⟩

theorem Fills.seq {m m' : Lowering B Unit} (h : T.Fills cx es m) (h' : T.Fills cx es' m') :
    T.Fills cx (es ++ es') (m >>= fun _ => m') := by
  intro fs s s' there run
  obtain ⟨_, t, first, second⟩ := bind_ok.mp run
  obtain ⟨gs, there₁, grown₁, met₁⟩ := h fs s t there first
  obtain ⟨gs', there₂, grown₂, met₂⟩ := h' _ t s' there₁ second
  refine ⟨gs ++ gs', by rwa [← List.append_assoc], grown₁.trans grown₂, fun e he => ?_⟩
  rcases List.mem_append.mp he with he | he
  · obtain ⟨g, hg, has⟩ := met₁ e he
    exact ⟨g, List.mem_append_left _ hg, has.mono (List.infix_refl g) grown₂⟩
  · obtain ⟨g, hg, has⟩ := met₂ e he
    exact ⟨g, List.mem_append_right _ hg, has⟩

theorem Fills.function (bounds : T.Bounds) (label : String) (n : Nat) (result : α → B.Value)
    {body : Lowering B α} (h : T.Visits cx es body) : T.Fills cx es (do
      target (B.beginFunction label n)
      let a ← body
      target (B.endFunction (result a) n)) := by
  intro fs s s' there run
  obtain ⟨_, s₁, began, run⟩ := bind_ok.mp run
  obtain ⟨t₁, first, rfl⟩ := target_ok.mp began
  obtain ⟨a, s₂, filled, ended⟩ := bind_ok.mp run
  obtain ⟨t₂, last, rfl⟩ := target_ok.mp ended
  obtain ⟨is, there₁⟩ := bounds.begin_ there first
  obtain ⟨js, there₂, grown, met⟩ := h fs is _ a s₂ there₁ filled
  obtain ⟨ks, there₃⟩ := bounds.end_ there₂ last
  refine ⟨[is ++ js ++ ks], there₃, grown, fun e he => ?_⟩
  exact ⟨_, List.mem_singleton_self _, (met e he).mono (List.infix_append is js ks) (.refl _)⟩

theorem storeInits_visits (law : T.account.Lawful) (slot : Nat) (as : List Attribute) :
    T.Visits cx ((as.filterMap (·.init)).flatMap Expr.parts)
      (Resolved.storeInits B cx slot as) := by
  induction as generalizing slot with
  | nil => exact .ret
  | cons a as ih =>
    unfold Resolved.storeInits
    cases init : a.init with
    | none => simpa [init] using ih (slot + 1)
    | some e =>
      rw [List.filterMap_cons_some init, List.flatMap_cons]
      exact (lower_visits law [] e).bind fun _ =>
        .step (fun _ => law.storeField trivial trivial trivial) fun _ =>
        .step (fun _ => law.writeBarrier trivial trivial) fun _ => ih (slot + 1)

theorem callParent_visits (law : T.account.Lawful) : T.Visits cx [] (callParent B cx) := by
  unfold callParent
  cases cx.current.parent with
  | none => exact .ret
  | some p => exact .found fun _ => .step (fun _ => law.callInit trivial trivial) fun _ => .ret

theorem initializer_fills (law : T.account.Lawful) (bounds : T.Bounds) :
    T.Fills cx ((cx.current.decl.attributes.filterMap (·.init)).flatMap Expr.parts)
      (Resolved.initializer B cx) := by
  rw [initializer_eq]
  refine .function bounds _ 0 (fun _ => B.selfObject) ?_
  have defaults : T.Visits cx [] (storeDefaults B cx cx.current.ownStart cx.current.ownFields) :=
    .plain fun _ => Account.storeDefaults_does law (knows cx) _ _
  exact defaults.bind fun _ => (callParent_visits law).bind fun _ => storeInits_visits law _ _

theorem formals_visits (bounds : T.Bounds) (i n : Nat) (vars : Resolved.Vars B)
    (fs : List Formal) : T.Visits cx [] (Resolved.formals B i n vars fs) := by
  induction fs generalizing i vars with
  | nil => exact .ret
  | cons f fs ih => exact (Visits.op bounds.formal).bind fun a => ih (i + 1) _

theorem method_fills (law : T.account.Lawful) (bounds : T.Bounds) (name : String)
    (fs : List Formal) (body : Expr) :
    T.Fills cx body.parts (Resolved.method B cx name fs body) := by
  have code : T.Visits cx body.parts (do
      let vars ← Resolved.formals B 0 fs.length [] fs
      Resolved.lower B cx vars body) :=
    (formals_visits bounds 0 fs.length [] fs).bind fun vars => lower_visits law vars body
  have whole := Fills.function bounds (Linkage.method cx.current.name name) fs.length (fun v => v)
    code
  simpa only [Resolved.method, bind_assoc] using whole

theorem methods_fill (law : T.account.Lawful) (bounds : T.Bounds) (ms : List MethodDecl) :
    T.Fills cx ((ms.filterMap (·.body)).flatMap Expr.parts) (Resolved.methods B cx ms) := by
  induction ms with
  | nil => exact .nothing
  | cons m ms ih =>
    unfold Resolved.methods
    cases body : m.body with
    | none =>
      intro fs s s' there run
      cases run
    | some e =>
      rw [List.filterMap_cons_some body, List.flatMap_cons]
      exact (method_fills law bounds m.name m.formals e).seq ih

theorem classCode_fills (law : T.account.Lawful) (bounds : T.Bounds) :
    T.Fills cx cx.current.expressions (Resolved.classCode B cx) := by
  unfold ClassLayout.expressions ClassLayout.bodies Resolved.classCode
  rw [List.flatMap_append]
  refine (initializer_fills law bounds).seq ?_
  split
  · exact .nothing
  · exact methods_fill law bounds _

end Functions

section Unit

/-- Each expression in the code of a class is lowered in one of the functions. -/
def Covers (T : Transcript B ι) (t : ClassTable) (p : Pool) (functions : List (List ι)) : Prop :=
  ∀ k ∈ t.classes, ∀ e ∈ k.expressions, ∃ f ∈ functions, T.Has ⟨t, k⟩ p f e

theorem classCodes_cover (law : T.account.Lawful) (bounds : T.Bounds) {t : ClassTable}
    {ks : List ClassLayout} {fs : List (List ι)} {s s' : Session B} (there : T.idle fs s.target)
    (run : Resolved.classCodes B t ks s = .ok ((), s')) : ∃ gs,
      T.idle (fs ++ gs) s'.target ∧ PoolLe s.pool s'.pool ∧
      ∀ k ∈ ks, ∀ e ∈ k.expressions, ∃ g ∈ gs, T.Has ⟨t, k⟩ s'.pool g e := by
  induction ks generalizing fs s with
  | nil =>
    obtain ⟨_, rfl⟩ := pure_ok.mp run
    exact ⟨[], by rwa [List.append_nil], .refl _, by simp⟩
  | cons k ks ih =>
    obtain ⟨_, t₁, first, rest⟩ := bind_ok.mp run
    obtain ⟨gs, there₁, grown₁, met₁⟩ := classCode_fills law bounds fs s t₁ there first
    obtain ⟨gs', there₂, grown₂, met₂⟩ := ih there₁ rest
    refine ⟨gs ++ gs', by rwa [← List.append_assoc], grown₁.trans grown₂, ?_⟩
    rintro j (_ | ⟨_, hj⟩) e he
    · obtain ⟨g, hg, has⟩ := met₁ e he
      exact ⟨g, List.mem_append_left _ hg, has.mono (List.infix_refl g) grown₂⟩
    · obtain ⟨g, hg, has⟩ := met₂ j hj e he
      exact ⟨g, List.mem_append_right _ hg, has⟩

theorem emitUnit_covers (law : T.account.Lawful) (bounds : T.Bounds) {p : Program}
    {t : ClassTable} (h : ClassTable.build p = .ok t) {s : Session B}
    (emitted : Lowering.emitUnit B t = .ok s) :
    ∃ functions, T.idle functions s.target ∧ T.Covers t s.pool functions := by
  have resolved := Resolved.emitUnit_of_ok h emitted
  unfold Resolved.emitUnit at resolved
  obtain ⟨⟨_, s'⟩, run, same⟩ := except_bind_ok.mp resolved
  obtain ⟨functions, there, _, met⟩ := classCodes_cover law bounds bounds.start run
  obtain ⟨pool, state⟩ := Prod.mk.inj (except_pure_ok.mp same)
  rw [state, List.nil_append] at there
  rw [pool] at met
  exact ⟨functions, there, met⟩

end Unit

end Transcript

end ClassBackend
