import ClassBackend.Proofs.Account.Judgement
import ClassBackend.Proofs.Scope.Resolution

/-! Forms of expression in an account. Whatever is known where the code of an expression begins is
known where it ends, and the value may be used there. -/
namespace ClassBackend

open Lowering

theorem Resolved.fieldSlot_of_resolve {B : Backend} {k : ClassLayout} {vars : Vars B}
    {name : String} {slot : Nat} (h : resolve B k vars name = .ok (.field slot)) :
    k.fieldSlot name = .ok slot := by
  unfold resolve at h
  split at h
  · cases h
  · split at h
    · cases h
    · cases field : k.fieldSlot name with
      | error e => simp [field, Except.map] at h
      | ok i => simpa [field, Except.map] using h

theorem Resolved.mem_of_resolve {B : Backend} {k : ClassLayout} {vars : Vars B} {name : String}
    {access : B.Local} (h : resolve B k vars name = .ok (.stack access)) :
    (name, access) ∈ vars := by
  unfold resolve at h
  split at h
  · cases h
  · split at h
    · rename_i found
      cases h
      exact List.lookup_eq_some_iff.mp found |>.elim fun l ⟨r, eq, _⟩ => eq ▸ by simp
    · cases found : k.fieldSlot name <;> simp [found, Except.map] at h

namespace Account

variable {B : Backend} {α β : Type} {A : Account B} {u w w' : A.World} {R' : A.World → β → Prop}
variable {cx : Context} {l r e : Lowering B B.Value} {es : List (Lowering B B.Value)}

structure Knows (A : Account B) (cx : Context) : Prop where
  find : ∀ {name k}, cx.classes.find name = .ok k → A.cls k
  current : A.cls cx.current
  label : ∀ {k name l}, A.cls k → k.methodLabel name = .ok l → A.label l

section Plain

theorem Does.block (law : A.Lawful) {hint : String} (hinted : hint ∈ blockHints)
    (known : A.le u w) :
    A.Does w (target (B.newBlock hint)) fun w' b => A.entered w' b u :=
  (law.newBlock hinted known).does

theorem literal_fits (law : A.Lawful) {g : Pool → Const × Pool}
    (interns : Pool.Interns g) : A.Fits w (do let c ← pooled g; target (B.constant c)) :=
  fun _ _ => (Does.pooled law interns).bind law fun _ _ _ hc => (law.constant hc).does

theorem bool_fits (law : A.Lawful) (b : Bool) : A.Fits w (target (B.constant (.bool b))) :=
  fun _ _ => (law.constant law.bool).does

theorem intLiteral_fits (law : A.Lawful) (n : Int64) : A.Fits w (intLiteral B n) :=
  literal_fits law (Pool.interns_int n)

theorem stringLiteral_fits (law : A.Lawful) (t : String) : A.Fits w (stringLiteral B t) :=
  literal_fits law (Pool.interns_string t)

theorem void_fits (law : A.Lawful) : A.Fits w (pure B.voidValue) :=
  fun _ _ => .ret law law.void

theorem defaultValue_fits (law : A.Lawful) (ty : String) : A.Fits w (defaultValue B ty) := by
  rw [defaultValue_eq]
  split
  · exact intLiteral_fits law 0
  · split
    · exact bool_fits law false
    · split
      · exact stringLiteral_fits law ""
      · exact void_fits law

theorem operands_does (law : A.Lawful) (hl : A.Fits w l) (hr : A.Fits w r) (known : A.le w w') :
    A.Does w' (operands B l r) fun w p => A.value w p.1 ∧ A.value w p.2 := by
  refine (hl w' known).bind law fun v w₁ g₁ hv => ?_
  refine (law.preserve hv).does.bind law fun s w₂ g₂ hs => ?_
  refine (hr w₂ (law.trans known (law.trans g₁ g₂))).bind law fun x w₃ g₃ hx => ?_
  refine (law.restore (law.saved g₃ hs)).does.bind law fun v w₄ g₄ hv => ?_
  exact .ret law ⟨hv, law.value g₄ hx⟩

theorem arithmetic_fits (law : A.Lawful) (knows : A.Knows cx) (op : ArithOp) (hl : A.Fits w l)
    (hr : A.Fits w r) : A.Fits w (arithmetic B cx op l r) := by
  intro w₀ known
  refine (Does.found law).bind law fun int w₁ g₁ found => ?_
  refine (operands_does law hl hr (law.trans known g₁)).bind law fun (x, y) w₂ _ ⟨hx, hy⟩ => ?_
  refine (law.unbox hx (knows.find found)).does.bind law fun a w₃ g₃ ha => ?_
  refine (law.unbox (law.value g₃ hy) (knows.find found)).does.bind law fun b w₄ g₄ hb => ?_
  refine (law.arith (law.raw g₄ ha) hb).does.bind law fun raw w₅ _ h => ?_
  exact (law.boxInt h (knows.find found)).does

theorem negation_fits (law : A.Lawful) (knows : A.Knows cx) (he : A.Fits w e) :
    A.Fits w (negation B cx e) := by
  intro w₀ known
  refine (he w₀ known).bind law fun v w₁ _ hv => ?_
  refine (Does.found law).bind law fun int w₂ g₂ found => ?_
  refine (law.unbox (law.value g₂ hv) (knows.find found)).does.bind law fun a w₃ _ ha => ?_
  refine (law.negate ha).does.bind law fun raw w₄ _ h => ?_
  exact (law.boxInt h (knows.find found)).does

theorem newObject_fits (law : A.Lawful) (knows : A.Knows cx) (ty : String) :
    A.Fits w (newObject B cx ty) := by
  intro w₀ _
  unfold newObject
  split
  · exact law.newSelfType.does
  · refine (Does.found law).bind law fun k w₁ _ found => ?_
    refine (law.allocate (knows.find found)).does.bind law fun obj w₂ _ hobj => ?_
    exact (law.callInit (knows.find found) hobj).does

theorem sequence_fits (law : A.Lawful) (h : ∀ e ∈ es, A.Fits w e) : A.Fits w (sequence B es) := by
  induction es with
  | nil => exact void_fits law
  | cons e es ih =>
    cases es with
    | nil => exact h e (by simp)
    | cons e' es =>
      intro w₀ known
      refine (h e (by simp) w₀ known).bind law fun _ w₁ g₁ _ => ?_
      exact ih (fun e he => h e (List.mem_cons_of_mem _ he)) w₁ (law.trans known g₁)

theorem arguments_does (law : A.Lawful) (h : ∀ e ∈ es, A.Fits w e) (known : A.le w w') :
    A.Does w' (arguments B es) fun w saved => ∀ s ∈ saved, A.saved w s := by
  induction es generalizing w' with
  | nil => exact .ret law (by simp)
  | cons e es ih =>
    refine (h e (by simp) w' known).bind law fun v w₁ g₁ hv => ?_
    refine (law.preserve hv).does.bind law fun s w₂ g₂ hs => ?_
    have rest := ih (fun e he => h e (List.mem_cons_of_mem _ he))
      (law.trans known (law.trans g₁ g₂))
    refine rest.bind law fun saved w₃ g₃ hsaved => ?_
    refine .ret law ?_
    rintro s' (_ | ⟨_, hs'⟩)
    · exact law.saved g₃ hs
    · exact hsaved s' hs'

end Plain

section Named

variable {vars : Resolved.Vars B} {name : String}

theorem identifier_fits (law : A.Lawful) (knows : A.Knows cx) (hvars : ∀ v ∈ vars, A.slot w v.2) :
    A.Fits w (Resolved.identifier B cx vars name) := by
  intro w₀ known
  unfold Resolved.identifier
  split
  · exact .ret law law.self
  · refine (Does.found law).bind law fun b w₁ g₁ found => ?_
    cases b with
    | field slot => exact (law.loadField law.self knows.current).does
    | stack access =>
      have inScope := hvars _ (Resolved.mem_of_resolve found)
      exact (law.loadLocal (law.slot (law.trans known g₁) inScope)).does

theorem assign_fits (law : A.Lawful) (knows : A.Knows cx) (hvars : ∀ v ∈ vars, A.slot w v.2)
    (he : A.Fits w e) : A.Fits w (Resolved.assign B cx vars name e) := by
  intro w₀ known
  refine (he w₀ known).bind law fun v w₁ g₁ hv => ?_
  refine (Does.found law).bind law fun b w₂ g₂ found => ?_
  have hv := law.value g₂ hv
  cases b with
  | field slot =>
    refine (law.storeField law.self knows.current hv).does.bind law fun _ w₃ g₃ _ => ?_
    refine (law.writeBarrier law.self knows.current).does.bind law fun _ w₄ g₄ _ => ?_
    exact .ret law (law.value (law.trans g₃ g₄) hv)
  | stack access =>
    have inScope := hvars _ (Resolved.mem_of_resolve found)
    have reached := law.slot (law.trans known (law.trans g₁ g₂)) inScope
    refine (law.storeLocal reached hv).does.bind law fun _ w₃ g₃ _ => ?_
    exact .ret law (law.value g₃ hv)

theorem hold_does (law : A.Lawful) {v : B.Value} {body : B.Local → Lowering B B.Value}
    (hv : A.value w v)
    (hb : ∀ a w', A.le w w' → A.slot w' a → A.Does w' (body a) A.value) :
    A.Does w (Resolved.hold B v body) A.value := by
  refine (law.allocLocal hv).does.bind law fun a w₁ g₁ ha => ?_
  refine (hb a w₁ g₁ ha).bind law fun x w₂ g₂ hx => ?_
  refine (law.freeLocal (law.slot g₂ ha)).does.bind law fun _ w₃ g₃ _ => ?_
  exact .ret law (law.value g₃ hx)

theorem letIn_fits (law : A.Lawful) {body : B.Local → Lowering B B.Value} (he : A.Fits w e)
    (hb : ∀ a w', A.le w w' → A.slot w' a → A.Fits w' (body a)) :
    A.Fits w (Resolved.letIn B e body) := by
  intro w₀ known
  refine (he w₀ known).bind law fun v w₁ g₁ hv => ?_
  refine hold_does law hv fun a w₂ g₂ ha => ?_
  exact (hb a w₂ (law.trans known (law.trans g₁ g₂)) ha).does law

end Named

section Branches

theorem boolBlocks_does (law : A.Lawful) (known : A.le u w) :
    A.Does w (boolBlocks B) fun w' p => A.entered w' p.1 u ∧ A.entered w' p.2 u := by
  refine (Does.block law (by decide) known).bind law fun yes w₁ g₁ hyes => ?_
  refine (Does.block law (by decide) (law.trans known g₁)).bind law fun no w₂ g₂ hno => ?_
  exact .ret law ⟨law.entered (law.later g₂) hyes, hno⟩

theorem selectBool_resumes (law : A.Lawful) {yes no : BlockName} (known : A.le u w)
    (hyes : A.entered w yes u) (hno : A.entered w no u) :
    A.Resumes u w (selectBool B yes no) A.value := by
  refine .block law (by decide) known fun join w₁ g₁ hjoin => ?_
  refine .open law (law.switchTo (law.entered (law.later g₁) hyes)) fun _ w₂ l₂ k₂ _ => ?_
  refine .bind law (law.constant law.bool).does fun t w₃ g₃ ht => ?_
  have l₃ := law.later_trans l₂ (law.later g₃)
  refine .shut law (law.closeArm ht (law.entered l₃ hjoin) (law.trans k₂ g₃))
    fun fromYes w₄ g₄ hfromYes => ?_
  have l₄ := law.later_trans l₃ (law.later g₄)
  have hno := law.entered (law.later_trans (law.later g₁) l₄) hno
  refine .open law (law.switchTo hno) fun _ w₅ l₅ k₅ _ => ?_
  refine .bind law (law.constant law.bool).does fun b w₆ g₆ hb => ?_
  have l₆ := law.later_trans l₅ (law.later g₆)
  have hjoin := law.entered (law.later_trans l₄ l₆) hjoin
  refine .shut law (law.closeArm hb hjoin (law.trans k₅ g₆)) fun fromNo w₇ g₇ hfromNo => ?_
  have l₇ := law.later g₇
  refine .last law (law.merge (law.entered l₇ hjoin) ?_) (law.refl u)
  simp only [List.mem_cons, List.not_mem_nil, or_false, forall_eq_or_imp, forall_eq]
  exact ⟨law.arm (law.later_trans l₆ l₇) hfromYes, hfromNo⟩

theorem comparison_fits (law : A.Lawful) (knows : A.Knows cx) (op : Relop) (hl : A.Fits w l)
    (hr : A.Fits w r) : A.Fits w (comparison B cx op l r) := by
  intro w₀ known
  refine (Does.found law).bind law fun int w₁ g₁ found => ?_
  refine (operands_does law hl hr (law.trans known g₁)).bind law fun (x, y) w₂ _ ⟨hx, hy⟩ => ?_
  refine (law.unbox hx (knows.find found)).does.bind law fun a w₃ g₃ ha => ?_
  refine (law.unbox (law.value g₃ hy) (knows.find found)).does.bind law fun b w₄ g₄ hb => ?_
  have ha := law.raw g₄ ha
  refine Goes.whole (.bind law (boolBlocks_does law (law.refl w₄)) ?_)
  intro (yes, no) w₅ g₅ ⟨hyes, hno⟩
  refine .shut law (law.branchRaw (law.raw g₅ ha) (law.raw g₅ hb) hyes g₅ hno g₅)
    fun _ w₆ g₆ _ => ?_
  exact selectBool_resumes law (law.trans g₅ g₆) (law.entered (law.later g₆) hyes)
    (law.entered (law.later g₆) hno)

theorem equality_fits (law : A.Lawful) (hl : A.Fits w l) (hr : A.Fits w r) :
    A.Fits w (equality B l r) := by
  intro w₀ known
  refine (operands_does law hl hr known).bind law fun (x, y) w₁ _ ⟨hx, hy⟩ => ?_
  refine Goes.whole (.bind law (boolBlocks_does law (law.refl w₁)) ?_)
  intro (yes, no) w₂ g₂ ⟨hyes, hno⟩
  refine .bind law (Does.block law (by decide) g₂) fun slow w₃ g₃ hslow => ?_
  have hyes := law.entered (law.later g₃) hyes
  have hno := law.entered (law.later g₃) hno
  have k₃ := law.trans g₂ g₃
  refine .shut law (law.branchSame (law.value k₃ hx) (law.value k₃ hy) hyes k₃ hslow k₃)
    fun _ w₄ g₄ _ => ?_
  refine .open law (law.switchTo (law.entered (law.later g₄) hslow)) fun _ w₅ l₅ k₅ _ => ?_
  refine .bind law (law.callEquality (law.value k₅ hx) (law.value k₅ hy)).does
    fun equal w₆ g₆ hequal => ?_
  refine .bind law law.rawWord.does fun truth w₇ g₇ htruth => ?_
  have l₇ := law.later_trans (law.later_trans (law.later g₄) l₅) (law.later (law.trans g₆ g₇))
  have hyes := law.entered l₇ hyes
  have hno := law.entered l₇ hno
  have k₇ := law.trans k₅ (law.trans g₆ g₇)
  refine .shut law (law.branchRaw (law.raw g₇ hequal) htruth hyes k₇ hno k₇) fun _ w₈ g₈ _ => ?_
  exact selectBool_resumes law (law.trans k₇ g₈) (law.entered (law.later g₈) hyes)
    (law.entered (law.later g₈) hno)

theorem binary_fits (law : A.Lawful) (knows : A.Knows cx) (op : BinOp) (hl : A.Fits w l)
    (hr : A.Fits w r) : A.Fits w (binary B cx op l r) := by
  cases op with
  | plus => exact arithmetic_fits law knows .add hl hr
  | minus => exact arithmetic_fits law knows .sub hl hr
  | mul => exact arithmetic_fits law knows .mul hl hr
  | div => exact arithmetic_fits law knows .div hl hr
  | lt => exact comparison_fits law knows .lt hl hr
  | le => exact comparison_fits law knows .le hl hr
  | eq => exact equality_fits law hl hr

theorem isVoid_fits (law : A.Lawful) (he : A.Fits w e) : A.Fits w (isVoid B e) := by
  intro w₀ known
  refine (he w₀ known).bind law fun v w₁ _ hv => ?_
  refine Goes.whole (.bind law (boolBlocks_does law (law.refl w₁)) ?_)
  intro (yes, no) w₂ g₂ ⟨hyes, hno⟩
  refine .shut law (law.branchVoid (law.value g₂ hv) hyes g₂ hno g₂) fun _ w₃ g₃ _ => ?_
  exact selectBool_resumes law (law.trans g₂ g₃) (law.entered (law.later g₃) hyes)
    (law.entered (law.later g₃) hno)

theorem complement_fits (law : A.Lawful) (knows : A.Knows cx) (he : A.Fits w e) :
    A.Fits w (complement B cx e) := by
  intro w₀ known
  refine (he w₀ known).bind law fun v w₁ _ hv => ?_
  refine (Does.found law).bind law fun bool w₂ g₂ found => ?_
  refine (law.unbox (law.value g₂ hv) (knows.find found)).does.bind law fun raw w₃ _ hraw => ?_
  refine law.rawWord.does.bind law fun falsity w₄ g₄ hfalsity => ?_
  refine Goes.whole (.bind law (boolBlocks_does law (law.refl w₄)) ?_)
  intro (yes, no) w₅ g₅ ⟨hyes, hno⟩
  refine .shut law (law.branchRaw (law.raw (law.trans g₄ g₅) hraw) (law.raw g₅ hfalsity) hyes g₅
    hno g₅) fun _ w₆ g₆ _ => ?_
  exact selectBool_resumes law (law.trans g₅ g₆) (law.entered (law.later g₆) hyes)
    (law.entered (law.later g₆) hno)

theorem unary_fits (law : A.Lawful) (knows : A.Knows cx) (op : UnOp) (he : A.Fits w e) :
    A.Fits w (unary B cx op e) := by
  cases op with
  | isVoid => exact isVoid_fits law he
  | not => exact complement_fits law knows he
  | neg => exact negation_fits law knows he

theorem arm_goes (law : A.Lawful) {v : A.World} {join : BlockName} {g : B.Arm → Lowering B β}
    (hm : A.Does w e A.value) (known : A.le v w) (hjoin : A.entered w join v)
    (k : ∀ a w', A.later w w' → A.le w w' → A.arm w' join a → A.Resumes u w' (g a) R') :
    A.Goes u w (do let x ← e; let a ← target (B.closeArm x join); g a) R' := by
  refine .bind law hm fun x w₁ g₁ hx => ?_
  have hjoin := law.entered (law.later g₁) hjoin
  refine .shut law (law.closeArm hx hjoin (law.trans known g₁)) fun a w₂ g₂ ha => ?_
  have g₂ := law.trans g₁ g₂
  exact k a w₂ (law.later g₂) g₂ ha

theorem cond_fits (law : A.Lawful) (knows : A.Knows cx) (he : A.Fits w e) (hl : A.Fits w l)
    (hr : A.Fits w r) : A.Fits w (cond B cx e l r) := by
  intro w₀ known
  refine (he w₀ known).bind law fun v w₁ g₁ hv => ?_
  refine (Does.found law).bind law fun bool w₂ g₂ found => ?_
  refine (law.unbox (law.value g₂ hv) (knows.find found)).does.bind law fun raw w₃ g₃ hraw => ?_
  refine law.rawWord.does.bind law fun truth w₄ g₄ htruth => ?_
  have known : A.le w w₄ :=
    law.trans known (law.trans g₁ (law.trans g₂ (law.trans g₃ g₄)))
  refine Goes.whole (.bind law (Does.block law (by decide) (law.refl w₄)) fun yes w₅ g₅ hyes => ?_)
  refine .bind law (Does.block law (by decide) g₅) fun no w₆ g₆ hno => ?_
  refine .bind law (Does.block law (by decide) (law.trans g₅ g₆)) fun join w₇ g₇ hjoin => ?_
  have hyes := law.entered (law.later (law.trans g₆ g₇)) hyes
  have hno := law.entered (law.later g₇) hno
  have k₇ := law.trans g₅ (law.trans g₆ g₇)
  refine .shut law (law.branchRaw (law.raw (law.trans g₄ k₇) hraw) (law.raw k₇ htruth) hyes k₇
    hno k₇) fun _ w₈ g₈ _ => ?_
  have l₈ := law.later g₈
  refine .open law (law.switchTo (law.entered l₈ hyes)) fun _ w₉ l₉ k₉ _ => ?_
  have l₉ := law.later_trans l₈ l₉
  refine arm_goes law (hl w₉ (law.trans known k₉)) k₉ (law.entered l₉ hjoin)
    fun fromTrue w₁₀ l₁₀ _ hfromTrue => ?_
  have l₁₀ := law.later_trans l₉ l₁₀
  refine .open law (law.switchTo (law.entered l₁₀ hno)) fun _ w₁₁ l₁₁ k₁₁ _ => ?_
  refine arm_goes law (hr w₁₁ (law.trans known k₁₁)) k₁₁
    (law.entered (law.later_trans l₁₀ l₁₁) hjoin) fun fromFalse w₁₂ l₁₂ _ hfromFalse => ?_
  have l₁₂ := law.later_trans l₁₁ l₁₂
  refine .last law (law.merge (law.entered (law.later_trans l₁₀ l₁₂) hjoin) ?_) (law.refl w₄)
  simp only [List.mem_cons, List.not_mem_nil, or_false, forall_eq_or_imp, forall_eq]
  exact ⟨law.arm l₁₂ hfromTrue, hfromFalse⟩

theorem loop_fits (law : A.Lawful) (knows : A.Knows cx) (hl : A.Fits w l) (hr : A.Fits w r) :
    A.Fits w (loop B cx l r) := by
  intro w₀ known
  refine Goes.whole
    (.bind law (Does.block law (by decide) (law.refl w₀)) fun header w₁ g₁ hheader => ?_)
  refine .bind law (Does.block law (by decide) g₁) fun looping w₂ g₂ hlooping => ?_
  refine .bind law (Does.block law (by decide) (law.trans g₁ g₂)) fun tail w₃ g₃ htail => ?_
  have hheader := law.entered (law.later (law.trans g₂ g₃)) hheader
  have hlooping := law.entered (law.later g₃) hlooping
  refine .shut law (law.jump hheader (law.trans g₁ (law.trans g₂ g₃))) fun _ w₄ g₄ _ => ?_
  have l₄ := law.later g₄
  refine .open law (law.switchTo (law.entered l₄ hheader)) fun _ w₅ l₅ k₅ _ => ?_
  refine .bind law (hl w₅ (law.trans known k₅)) fun p w₆ g₆ hp => ?_
  refine .bind law (Does.found law) fun bool w₇ g₇ found => ?_
  refine .bind law (law.unbox (law.value g₇ hp) (knows.find found)).does fun raw w₈ g₈ hraw => ?_
  refine .bind law law.rawWord.does fun truth w₉ g₉ htruth => ?_
  have g₉' := law.trans g₆ (law.trans g₇ (law.trans g₈ g₉))
  have k₉ := law.trans k₅ g₉'
  have l₉ := law.later_trans l₄ (law.later_trans l₅ (law.later g₉'))
  refine .shut law (law.branchRaw (law.raw g₉ hraw) htruth (law.entered l₉ hlooping) k₉
    (law.entered l₉ htail) k₉) fun _ w₁₀ g₁₀ _ => ?_
  have l₁₀ := law.later_trans l₉ (law.later g₁₀)
  refine .open law (law.switchTo (law.entered l₁₀ hlooping)) fun _ w₁₁ l₁₁ k₁₁ _ => ?_
  refine .bind law (hr w₁₁ (law.trans known k₁₁)) fun _ w₁₂ g₁₂ _ => ?_
  have l₁₂ := law.later_trans l₁₀ (law.later_trans l₁₁ (law.later g₁₂))
  refine .shut law (law.jump (law.entered l₁₂ hheader) (law.trans k₁₁ g₁₂)) fun _ w₁₃ g₁₃ _ => ?_
  have l₁₃ := law.later_trans l₁₂ (law.later g₁₃)
  refine .open law (law.switchTo (law.entered l₁₃ htail)) fun _ w₁₄ _ k₁₄ _ => ?_
  exact .does law (.ret law law.void) k₁₄

theorem guard_goes (law : A.Lawful) {hint hint' : String} {v : B.Value} {kind : AbortKind}
    {file : Const} {line : UInt64} {f : Lowering B β} (hinted : hint ∈ blockHints)
    (hinted' : hint' ∈ blockHints) (hv : A.value w v) (hfile : A.const w file)
    (k : ∀ w', A.later w w' → A.le w w' → A.Goes u w' f R') :
    A.Goes u w (do
      let onVoid ← target (B.newBlock hint)
      let next ← target (B.newBlock hint')
      target (B.branchVoid v onVoid next)
      target (B.switchTo onVoid)
      target (B.abort kind file line)
      target (B.switchTo next)
      f) R' := by
  refine .bind law (Does.block law hinted (law.refl w)) fun onVoid w₁ g₁ hvoid => ?_
  refine .bind law (Does.block law hinted' g₁) fun next w₂ g₂ hnext => ?_
  have hvoid := law.entered (law.later g₂) hvoid
  have k₂ := law.trans g₁ g₂
  refine .shut law (law.branchVoid (law.value k₂ hv) hvoid k₂ hnext k₂) fun _ w₃ g₃ _ => ?_
  refine .open law (law.switchTo (law.entered (law.later g₃) hvoid)) fun _ w₄ l₄ k₄ _ => ?_
  refine .shut law (law.abort (law.const k₄ hfile)) fun _ w₅ g₅ _ => ?_
  have l₅ := law.later_trans (law.later g₃) (law.later_trans l₄ (law.later g₅))
  refine .open law (law.switchTo (law.entered l₅ hnext)) fun _ w₆ l₆ k₆ _ => ?_
  exact k w₆ (law.later_trans (law.later k₂) (law.later_trans l₅ l₆)) k₆

theorem resolve_known (knows : A.Knows cx) {ty : String} {k : ClassLayout}
    (h : cx.classes.resolve ty cx.current = .ok k) : A.cls k := by
  unfold ClassTable.resolve at h
  split at h
  · cases h
    exact knows.current
  · exact knows.find h

theorem dispatch_fits (law : A.Lawful) (knows : A.Knows cx) (line : UInt64) (ty : String)
    (static : Option String) (method : String) (he : A.Fits w e) (h : ∀ e ∈ es, A.Fits w e) :
    A.Fits w (dispatch B cx line ty e static method es) := by
  intro w₀ known
  refine (Does.pooled law (Pool.interns_string _)).bind law fun file w₁ g₁ hfile => ?_
  refine (arguments_does law h (law.trans known g₁)).bind law fun saved w₂ g₂ hsaved => ?_
  refine (he w₂ (law.trans known (law.trans g₁ g₂))).bind law fun recv w₃ g₃ hrecv => ?_
  have hfile := law.const (law.trans g₂ g₃) hfile
  refine Goes.whole (guard_goes law (by decide) (by decide) hrecv hfile fun w₄ _ k₄ => ?_)
  refine .does law ?_ k₄
  have k₄' := law.trans g₃ k₄
  cases static with
  | some cls =>
    refine (Does.found law).bind law fun k w₅ g₅ found => ?_
    refine (Does.found law).bind law fun label w₆ g₆ labelled => ?_
    have g := law.trans g₅ g₆
    exact (law.callDirect (knows.label (knows.find found) labelled)
      (law.value (law.trans k₄ g) hrecv) fun s hs =>
        law.saved (law.trans k₄' g) (hsaved s hs)).does
  | none =>
    refine (Does.found law).bind law fun k w₅ g₅ found => ?_
    refine (Does.found law).bind law fun slot w₆ g₆ _ => ?_
    have g := law.trans g₅ g₆
    exact (law.callDynamic (law.value (law.trans k₄ g) hrecv) (resolve_known knows found)
      fun s hs => law.saved (law.trans k₄' g) (hsaved s hs)).does

end Branches

section Cases

variable {ε : Type} {enter : B.Value → Branch ε → Lowering B B.Value} {tag : B.Raw} {v : B.Value}
variable {join : BlockName}

theorem branchClasses_does (law : A.Lawful) (bs : List (Branch ε)) :
    A.Does w (Resolved.branchClasses B cx bs) fun _ cs => ∀ c ∈ cs, c.2 ∈ bs := by
  induction bs generalizing w with
  | nil => exact .ret law (by simp)
  | cons b bs ih =>
    refine (Does.found law).bind law fun k w₁ _ _ => ?_
    refine ih.bind law fun cs w₂ _ hcs => .ret law ?_
    rintro c (_ | ⟨_, hc⟩)
    · exact List.mem_cons_self ..
    · exact List.mem_cons_of_mem _ (hcs c hc)

theorem caseArm_goes (law : A.Lawful) {k : ClassLayout} (known : A.le u w) (htag : A.raw u tag)
    (hjoin : A.entered w join u) (he : A.Fits u e) :
    A.Goes u w (Resolved.caseArm B tag join k e) fun w' a => A.arm w' join a := by
  refine .bind law (Does.block law (by decide) known) fun next w₁ g₁ hnext => ?_
  refine .bind law (Does.block law (by decide) (law.trans known g₁)) fun upper w₂ g₂ hupper => ?_
  refine .bind law (Does.block law (by decide) (law.trans known (law.trans g₁ g₂)))
    fun matched w₃ g₃ hmatched => ?_
  refine .bind law law.rawWord.does fun lo w₄ g₄ hlo => ?_
  have hnext := law.entered (law.later (law.trans g₂ (law.trans g₃ g₄))) hnext
  have hupper := law.entered (law.later (law.trans g₃ g₄)) hupper
  have hmatched := law.entered (law.later g₄) hmatched
  have g₄ := law.trans g₁ (law.trans g₂ (law.trans g₃ g₄))
  have k₄ := law.trans known g₄
  refine .shut law (law.branchRaw (law.raw k₄ htag) hlo hnext k₄ hupper k₄) fun _ w₅ g₅ _ => ?_
  refine .open law (law.switchTo (law.entered (law.later g₅) hupper)) fun _ w₆ l₆ k₆ _ => ?_
  refine .bind law law.rawWord.does fun hi w₇ g₇ hhi => ?_
  have l₇ := law.later_trans (law.later g₅) (law.later_trans l₆ (law.later g₇))
  have k₇ := law.trans k₆ g₇
  have hnext := law.entered l₇ hnext
  have hmatched := law.entered l₇ hmatched
  refine .shut law (law.branchRaw (law.raw k₇ htag) hhi hnext k₇ hmatched k₇) fun _ w₈ g₈ _ => ?_
  refine .open law (law.switchTo (law.entered (law.later g₈) hmatched)) fun _ w₉ l₉ k₉ _ => ?_
  have l₉ := law.later_trans (law.later g₈) l₉
  have l₉' := law.later_trans (law.later g₄) (law.later_trans l₇ l₉)
  refine arm_goes law (he w₉ k₉) k₉ (law.entered l₉' hjoin) fun a w₁₀ l₁₀ _ ha => ?_
  refine .open law (law.switchTo (law.entered (law.later_trans l₉ l₁₀) hnext))
    fun _ w₁₁ l₁₁ k₁₁ _ => ?_
  exact .does law (.ret law (law.arm l₁₁ ha)) k₁₁

theorem caseArms_goes (law : A.Lawful) {enter : Branch ε → Lowering B B.Value}
    {cs : List (ClassLayout × Branch ε)} (known : A.le u w) (htag : A.raw u tag)
    (hjoin : A.entered w join u) (h : ∀ c ∈ cs, A.Fits u (enter c.2)) :
    A.Goes u w (Resolved.caseArms B enter tag join cs) fun w' arms =>
      ∀ a ∈ arms, A.arm w' join a := by
  induction cs generalizing w with
  | nil => exact .does law (.ret law (by simp)) known
  | cons c cs ih =>
    refine .then law (caseArm_goes law known htag hjoin (h c (by simp))) fun a w₁ l₁ k₁ ha => ?_
    have rest := ih k₁ (law.entered l₁ hjoin) fun c hc => h c (List.mem_cons_of_mem _ hc)
    refine .then law rest fun arms w₂ l₂ k₂ harms => .does law (.ret law ?_) k₂
    rintro a' (_ | ⟨_, ha'⟩)
    · exact law.arm l₂ ha
    · exact harms a' ha'

theorem caseOf_fits (law : A.Lawful) (line : UInt64) {bs : List (Branch ε)} (he : A.Fits w e)
    (h : ∀ v w', A.le w w' → A.value w' v → ∀ b ∈ bs, A.Fits w' (enter v b)) :
    A.Fits w (Resolved.caseOf B cx enter line e bs) := by
  intro w₀ known
  refine (Does.pooled law (Pool.interns_string _)).bind law fun file w₁ g₁ hfile => ?_
  refine (he w₁ (law.trans known g₁)).bind law fun v w₂ g₂ hv => ?_
  have hfile := law.const g₂ hfile
  refine Goes.whole (guard_goes law (by decide) (by decide) hv hfile fun w₃ _ k₃ => ?_)
  refine .bind law (law.loadTag (law.value k₃ hv)).does fun tag w₄ g₄ htag => ?_
  have k₄ := law.trans k₃ g₄
  refine .bind law (Does.block law (by decide) (law.refl w₄)) fun join w₅ g₅ hjoin => ?_
  refine .bind law (branchClasses_does law bs) fun cs w₆ g₆ hcs => ?_
  have bodies : ∀ c ∈ testOrder cs, A.Fits w₄ (enter v c.2) := by
    intro c hc
    have grown := law.trans known (law.trans g₁ (law.trans g₂ k₄))
    exact h v w₄ grown (law.value k₄ hv) c.2 (hcs c ((testOrder_perm cs).mem_iff.mp hc))
  refine .then law (caseArms_goes law (law.trans g₅ g₆) htag (law.entered (law.later g₆) hjoin)
    bodies) fun arms w₇ l₇ k₇ harms => ?_
  refine .shut law (law.abort (law.const (law.trans k₄ k₇) hfile)) fun _ w₈ g₈ _ => ?_
  have l₈ := law.later_trans (law.later g₆) (law.later_trans l₇ (law.later g₈))
  exact .last law (law.merge (law.entered l₈ hjoin) fun a ha =>
    law.arm (law.later g₈) (harms a ha)) k₄

end Cases

section Expressions

theorem vars_held (law : A.Lawful) {vars : Resolved.Vars B} {name : String} {a : B.Local}
    (hvars : ∀ v ∈ vars, A.slot w v.2) (known : A.le w w') (ha : A.slot w' a) :
    ∀ v ∈ (name, a) :: vars, A.slot w' v.2 := by
  rintro v (_ | ⟨_, hv⟩)
  · exact ha
  · exact law.slot known (hvars v hv)

mutual

theorem lower_fits (law : A.Lawful) (knows : A.Knows cx) {w : A.World}
    {vars : Resolved.Vars B} (hvars : ∀ v ∈ vars, A.slot w v.2) (e : Expr) :
    A.Fits w (Resolved.lower B cx vars e) := by
  match e with
  | .bool _ b => exact bool_fits law b
  | .int _ n => exact intLiteral_fits law n
  | .str _ t => exact stringLiteral_fits law t
  | .ident _ name => exact identifier_fits law knows hvars
  | .binary _ op lhs rhs =>
    exact binary_fits law knows op (lower_fits law knows hvars lhs) (lower_fits law knows hvars rhs)
  | .unary _ op e => exact unary_fits law knows op (lower_fits law knows hvars e)
  | .new _ ty => exact newObject_fits law knows ty
  | .caseOf _ e branches =>
    exact caseOf_fits law e.line (lower_fits law knows hvars e)
      (lowerBranches_fit law knows hvars branches)
  | .letIn _ name ty none body =>
    exact letIn_fits law (defaultValue_fits law ty) fun a w' known ha =>
      lower_fits law knows (vars_held law hvars known ha) body
  | .letIn _ name _ (some init) body =>
    exact letIn_fits law (lower_fits law knows hvars init) fun a w' known ha =>
      lower_fits law knows (vars_held law hvars known ha) body
  | .block _ es => exact sequence_fits law (lowerAll_fit law knows hvars es)
  | .loop _ pred body =>
    exact loop_fits law knows (lower_fits law knows hvars pred) (lower_fits law knows hvars body)
  | .cond _ pred onTrue onFalse =>
    exact cond_fits law knows (lower_fits law knows hvars pred) (lower_fits law knows hvars onTrue)
      (lower_fits law knows hvars onFalse)
  | .dispatch _ recv static method args =>
    exact dispatch_fits law knows recv.line recv.ty static method (lower_fits law knows hvars recv)
      (lowerAll_fit law knows hvars args)
  | .assign _ name e => exact assign_fits law knows hvars (lower_fits law knows hvars e)

theorem lowerAll_fit (law : A.Lawful) (knows : A.Knows cx) {w : A.World}
    {vars : Resolved.Vars B} (hvars : ∀ v ∈ vars, A.slot w v.2) (es : List Expr) :
    ∀ m ∈ Resolved.lowerAll B cx vars es, A.Fits w m := by
  match es with
  | [] => simp [Resolved.lowerAll]
  | e :: es =>
    rintro m (_ | ⟨_, hm⟩)
    · exact lower_fits law knows hvars e
    · exact lowerAll_fit law knows hvars es m hm

theorem lowerBranches_fit (law : A.Lawful) (knows : A.Knows cx) {w : A.World}
    {vars : Resolved.Vars B} (hvars : ∀ v ∈ vars, A.slot w v.2) (bs : List (Branch Expr)) :
    ∀ v w', A.le w w' → A.value w' v → ∀ b ∈ Resolved.lowerBranches B cx vars bs,
      A.Fits w' (Resolved.enter B v b) := by
  match bs with
  | [] => simp [Resolved.lowerBranches]
  | ⟨name, ty, body⟩ :: bs =>
    rintro v w' known hv b (_ | ⟨_, hb⟩)
    · intro w'' known'
      refine hold_does law (law.value known' hv) fun a w₃ g₃ ha => ?_
      have grown := law.trans known (law.trans known' g₃)
      exact (lower_fits law knows (vars_held law hvars grown ha) body).does law
    · exact lowerBranches_fit law knows hvars bs v w' known hv b hb

end

end Expressions

end Account

end ClassBackend
