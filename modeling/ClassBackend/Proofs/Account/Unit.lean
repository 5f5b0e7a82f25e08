import ClassBackend.Proofs.Account.Forms
import ClassBackend.Proofs.Scope.ResolvedUnit

/-! Functions in an account, and with them a whole unit: one function after the other, each from a
point where nothing but its formals is known. -/
namespace ClassBackend

open Lowering

/-- The labels of the functions that are emitted for the class. -/
def ClassLayout.functions (k : ClassLayout) : List String :=
  Linkage.initializer k.name ::
    if k.isBuiltin then [] else k.decl.methods.map fun m => Linkage.method k.name m.name

def ClassTable.functions (t : ClassTable) : List String :=
  t.classes.flatMap ClassLayout.functions

namespace Account

variable {B : Backend} {α : Type} {A : Account B} {w w' : A.World} {cx : Context}
variable {L L' : List String}

def Adds (A : Account B) (L' : List String) (m : Lowering B Unit) : Prop :=
  ∀ L, Leads (A.idle L) m fun _ => A.idle (L ++ L')

section Rules

theorem Adds.nothing : A.Adds [] (pure ()) := by
  intro L s a s' there run
  obtain ⟨_, rfl⟩ := pure_ok.mp run
  rwa [List.append_nil]

theorem Adds.seq {m m' : Lowering B Unit} (h : A.Adds L m) (h' : A.Adds L' m') :
    A.Adds (L ++ L') (m >>= fun _ => m') := by
  intro L₀ s a s' there run
  obtain ⟨_, s₁, first, second⟩ := bind_ok.mp run
  rw [← List.append_assoc]
  exact h' _ _ _ _ (h _ _ _ _ there first) second

theorem leads_bind {L : List String} {R : A.World → α → Prop} {m : Lowering B α}
    {f : α → Lowering B Unit} (h : A.Does w m R)
    (k : ∀ a w', A.le w w' → R w' a → Leads (A.inside w') (f a) fun _ => A.idle L) :
    Leads (A.inside w) (m >>= f) fun _ => A.idle L := by
  intro s b s' there run
  obtain ⟨a, s₁, first, second⟩ := bind_ok.mp run
  obtain ⟨w₁, grown, there₁, ha⟩ := h s a s₁ there first
  exact k a w₁ grown ha s₁ b s' there₁ second

theorem leads_end (framed : A.Framed) {v : B.Value} {n : Nat} (frame : A.frame w L n)
    (hv : A.value w v) : Leads (A.inside w) (target (B.endFunction v n)) fun _ => A.idle L := by
  intro s a s' there run
  obtain ⟨t, op, rfl⟩ := target_ok.mp run
  exact framed.endFunction there frame hv op

theorem Adds.function (framed : A.Framed) {label : String} {n : Nat} {body : Lowering B Unit}
    (h : ∀ w L, A.frame w L n → Leads (A.inside w) body fun _ => A.idle L) :
    A.Adds [label] (target (B.beginFunction label n) >>= fun _ => body) := by
  intro L s a s' there run
  obtain ⟨_, s₁, first, rest⟩ := bind_ok.mp run
  obtain ⟨t, op, rfl⟩ := target_ok.mp first
  obtain ⟨w, inside, frame⟩ := framed.beginFunction there op
  exact h w _ frame _ a s' inside rest

end Rules

section Functions

theorem storeDefaults_does (law : A.Lawful) (knows : A.Knows cx) (slot : Nat)
    (fs : List Field) : A.Does w (storeDefaults B cx slot fs) A.whatever := by
  induction fs generalizing slot w with
  | nil => exact .ret law trivial
  | cons f fs ih =>
    unfold storeDefaults
    cases NativeKind.ofType? f.ty with
    | some kind =>
      refine (law.storeNative law.self knows.current).does.bind law fun _ _ _ _ => ?_
      exact ih (slot + 1)
    | none =>
      refine (defaultValue_fits law f.ty w (law.refl w)).bind law fun v w₁ _ hv => ?_
      refine (law.storeField law.self knows.current hv).does.bind law fun _ _ _ _ => ?_
      exact ih (slot + 1)

theorem storeInits_does (law : A.Lawful) (knows : A.Knows cx) (slot : Nat)
    (as : List Attribute) : A.Does w (Resolved.storeInits B cx slot as) A.whatever := by
  induction as generalizing slot w with
  | nil => exact .ret law trivial
  | cons a as ih =>
    unfold Resolved.storeInits
    cases a.init with
    | none => exact ih (slot + 1)
    | some init =>
      have value := lower_fits law knows (w := w)
        (show ∀ v ∈ ([] : Resolved.Vars B), A.slot w v.2 by simp) init
      refine (value.does law).bind law fun v w₁ _ hv => ?_
      refine (law.storeField law.self knows.current hv).does.bind law fun _ w₂ _ _ => ?_
      refine (law.writeBarrier law.self knows.current).does.bind law fun _ w₃ _ _ => ?_
      exact ih (slot + 1)

theorem initializer_adds (framed : A.Framed) (law : A.Lawful) (knows : A.Knows cx) :
    A.Adds [Linkage.initializer cx.current.name] (Resolved.initializer B cx) := by
  refine .function framed fun w L frame => ?_
  refine leads_bind (storeDefaults_does law knows _ _) fun _ w₁ g₁ _ => ?_
  have rest {w' : A.World} (grown : A.le w w') : Leads (A.inside w') (do
      Resolved.storeInits B cx cx.current.ownStart cx.current.decl.attributes
      target (B.endFunction B.selfObject 0)) fun _ => A.idle L := by
    refine leads_bind (storeInits_does law knows _ _) fun _ w₂ g₂ _ => ?_
    exact leads_end framed (law.frame (law.later (law.trans grown g₂)) frame) law.self
  cases cx.current.parent with
  | none => exact rest g₁
  | some p =>
    refine leads_bind (Does.found law) fun k w₂ g₂ found => ?_
    refine leads_bind (law.callInit (knows.find found) law.self).does fun _ w₃ g₃ _ => ?_
    exact rest (law.trans g₁ (law.trans g₂ g₃))

theorem formals_does (framed : A.Framed) (law : A.Lawful) {n i : Nat} {vars : Resolved.Vars B}
    {fs : List Formal} (frame : A.frame w L n) (count : i + fs.length = n)
    (hvars : ∀ v ∈ vars, A.slot w v.2) :
    A.Does w (Resolved.formals B i n vars fs) fun w vars => ∀ v ∈ vars, A.slot w v.2 := by
  induction fs generalizing i vars w with
  | nil => exact .ret law hvars
  | cons f fs ih =>
    rw [List.length_cons] at count
    refine (framed.formal frame (i := i) (by omega)).does.bind law fun a w₁ g₁ ha => ?_
    exact ih (law.frame (law.later g₁) frame) (by omega) (vars_held law hvars g₁ ha)

theorem method_adds (framed : A.Framed) (law : A.Lawful) (knows : A.Knows cx) (name : String)
    (fs : List Formal) (body : Expr) :
    A.Adds [Linkage.method cx.current.name name] (Resolved.method B cx name fs body) := by
  refine .function framed fun w L frame => ?_
  refine leads_bind (formals_does framed law frame (by omega) (by simp))
    fun vars w₁ g₁ hvars => ?_
  refine leads_bind ((lower_fits law knows hvars body).does law) fun v w₂ g₂ hv => ?_
  exact leads_end framed (law.frame (law.later (law.trans g₁ g₂)) frame) hv

theorem methods_adds (framed : A.Framed) (law : A.Lawful) (knows : A.Knows cx)
    (ms : List MethodDecl) :
    A.Adds (ms.map fun m => Linkage.method cx.current.name m.name) (Resolved.methods B cx ms) := by
  induction ms with
  | nil => exact .nothing
  | cons m ms ih =>
    unfold Resolved.methods
    cases m.body with
    | none =>
      intro _ _ _ _ _ run
      cases run
    | some body => exact (method_adds framed law knows m.name m.formals body).seq ih

theorem classCode_adds (framed : A.Framed) (law : A.Lawful) (knows : A.Knows cx) :
    A.Adds cx.current.functions (Resolved.classCode B cx) := by
  refine Adds.seq (L := [_]) (initializer_adds framed law knows) ?_
  cases cx.current.isBuiltin with
  | true => exact .nothing
  | false => exact methods_adds framed law knows _

end Functions

theorem classCodes_adds (framed : A.Framed) (law : A.Lawful) {t : ClassTable}
    {ks : List ClassLayout} (knows : ∀ k ∈ ks, A.Knows ⟨t, k⟩) :
    A.Adds (ks.flatMap ClassLayout.functions) (Resolved.classCodes B t ks) := by
  induction ks with
  | nil => exact .nothing
  | cons k ks ih =>
    exact (classCode_adds framed law (knows k (by simp))).seq
      (ih fun k hk => knows k (List.mem_cons_of_mem _ hk))

/-- A whole unit, which has the functions of all classes. -/
theorem emitUnit_idle (framed : A.Framed) (law : A.Lawful) {t : ClassTable}
    (knows : ∀ k ∈ t.classes, A.Knows ⟨t, k⟩) {p : Pool} {s : B.State}
    (h : Resolved.emitUnit B t = .ok (p, s)) : A.idle t.functions p s := by
  unfold Resolved.emitUnit at h
  obtain ⟨⟨_, s'⟩, run, eq⟩ := except_bind_ok.mp h
  cases eq
  exact classCodes_adds framed law knows [] _ _ _ framed.start run

end Account

end ClassBackend
