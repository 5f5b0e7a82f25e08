import ClassBackend.Proofs.Mips.Roots.Transfers

/-! Expressions under the tracking of what is held. The code of an expression begins where nothing
is known but `self` and what is on the stack, and leaves an object in one of three registers. -/
namespace ClassBackend.Mips

open Lowering

namespace Emitting

variable {F : Emitting} {w : Entries} {n n' u : Nat} {v : Reg} {regs : Reg → Kind} {α β : Type}
variable {m e l r : Lowering annotated Reg} {es : List (Lowering annotated Reg)}
variable {f : α → Lowering annotated β} {Q : Entries → β → Station → Prop} {cx : Context}

/-- A value and nothing else that is known. -/
def Leaves (F : Emitting) (n : Nat) (_ : Entries) (v : Reg) (P : Station) : Prop :=
  Result v ∧ ∃ u, P = F.point n u (giving v)

/-- The code of an expression with `n` words on the stack. -/
def Yields (F : Emitting) (n : Nat) (m : Lowering annotated Reg) : Prop :=
  ∀ w u, F.Does w (F.point n u rest) m (F.Leaves n)

/-- The code may stand wherever these words are on the stack, and maybe more. -/
def Fits (F : Emitting) (n : Nat) (m : Lowering annotated Reg) : Prop :=
  ∀ n', n ≤ n' → F.Yields n' m

theorem giving_rest (h : rest v = .object) : giving v = rest := by
  rw [giving, ← h, Function.update_eq_self]

theorem held_beside {r : Reg} {κ : Kind} (other : v ≠ r) (h : regs v = .object) :
    Function.update regs r κ v = .object := by
  rw [Function.update_of_ne other, h]

namespace Does

theorem based {m : Lowering annotated β}
    (h : rest ≤ regs → F.Does w (F.point n u regs) m Q) : F.Does w (F.point n u regs) m Q :=
  fun s a s' stands run => h (stands.base _ rfl) s a s' stands run

theorem fresh {m : Lowering annotated β} (h : F.Does w (F.point n u rest) m Q) :
    F.Does w (F.point n u regs) m Q :=
  .based fun base => .forget le_rfl base h

theorem part {f : Reg → Lowering annotated β} (h : F.Yields n m)
    (k : ∀ v w' u', w.Le w' → Result v → F.Does w' (F.point n u' (giving v)) (f v) Q) :
    F.Does w (F.point n u regs) (m >>= f) Q := by
  refine .fresh ((h w u).bind ?_)
  rintro w' v _ grown ⟨hv, u', rfl⟩
  exact k v w' u' grown hv

theorem whole (h : F.Yields n m) : F.Does w (F.point n u regs) m (F.Leaves n) :=
  .fresh (h w u)

theorem draw {x : Emit Record Operand} {P : Station} {f : Operand → Lowering annotated β}
    (h : F.Op w P x (F.Draws n u regs)) (k : ∀ κ, κ ≠ .lost → F.Does w
      (F.point n (u + 1) (Function.update regs (Reg.scratchAt u) κ))
      (f (.reg (Reg.scratchAt u))) Q) : F.Does w P (target x >>= f) Q := by
  refine (op h).bind ?_
  rintro _ _ _ _ ⟨rfl, rfl, κ, known, rfl⟩
  exact k κ known

end Does

section Leaves

theorem constant_fits (c : Const) : F.Fits n (target (annotated.constant c)) :=
  fun _ _ _ u => .last (op_constant c) ⟨result_a0, u, rfl⟩

theorem defaultValue_fits (ty : String) : F.Fits n (defaultValue annotated ty) := by
  intro n' le w u
  refine .pooled fun c => ?_
  cases c with
  | some c => exact constant_fits c n' le w u
  | none => exact .ret ⟨result_zero, u, by rw [giving_rest rfl]⟩

theorem intLiteral_fits (i : Int64) : F.Fits n (intLiteral annotated i) :=
  fun n' le w u => .pooled fun c => constant_fits c n' le w u

theorem stringLiteral_fits (s : String) : F.Fits n (stringLiteral annotated s) :=
  fun n' le w u => .pooled fun c => constant_fits c n' le w u

end Leaves

/-- The slots of these variables hold objects. -/
def Holds (F : Emitting) (n : Nat) (vars : Resolved.Vars annotated) : Prop :=
  ∀ x ∈ vars, slots F.formals n x.2 = .object

/-- Names of fields stand for boxed ones. -/
def Fields (F : Emitting) (cx : Context) : Prop :=
  ∀ name slot, cx.current.fieldSlot name = .ok slot → F.Boxed slot

section Variables

attribute [local irreducible] Word.low Word.fits

variable {vars : Resolved.Vars annotated} {name : String} {a : Int} {slot : Nat}

theorem Holds.mono (h : F.Holds n vars) (le : n ≤ n') : F.Holds n' vars := fun x hx =>
  Kind.eq_of_le (slots_le le x.2) (by rw [h x hx]; decide) |>.trans (h x hx)

theorem Holds.cons (h : F.Holds n vars) (ha : slots F.formals n a = .object) :
    F.Holds n ((name, a) :: vars) := by
  rintro x (_ | ⟨_, hx⟩)
  · exact ha
  · exact h x hx

theorem identifier_fits (fields : F.Fields cx) (holds : F.Holds n vars) (name : String) :
    F.Fits n (Resolved.identifier annotated cx vars name) := by
  intro n' le w u
  unfold Resolved.identifier
  split
  · exact .ret ⟨result_s0, u, by rw [giving_rest rfl]⟩
  · refine .found fun b found => ?_
    cases b with
    | field slot =>
      exact .last (op_loadField (fields _ _ (Resolved.fieldSlot_of_resolve found)))
          ⟨result_a0, u, rfl⟩
    | stack a =>
      have held := holds.mono le _ (Resolved.mem_of_resolve found)
      exact .last (op_loadLocal held) ⟨result_a0, u, rfl⟩

theorem assign_fits (holds : F.Holds n vars) (he : F.Fits n e) (name : String) :
    F.Fits n (Resolved.assign annotated cx vars name e) := by
  intro n' le w u
  refine .part (he n' le) fun v w₁ u₁ _ hv => ?_
  refine .found fun b found => ?_
  cases b with
  | field slot =>
    refine .step (op_storeField giving_self) (.step (op_writeBarrier hv giving_self) ?_)
    exact .ret ⟨hv, u₁, rfl⟩
  | stack a =>
    have held := holds.mono le _ (Resolved.mem_of_resolve found)
    exact .step (op_storeLocal held giving_self) (.ret ⟨hv, u₁, rfl⟩)

theorem hold_does {body : Int → Lowering annotated Reg} (hv : regs v = .object)
    (h : ∀ a, slots F.formals (n + 1) a = .object → F.Yields (n + 1) (body a)) :
    F.Does w (F.point n u regs) (Resolved.hold annotated v body) (F.Leaves n) := by
  refine .step (op_push hv) ?_
  refine .part (h _ slots_level) fun v' w₁ u₁ _ hv' => ?_
  exact .step op_discard (.ret ⟨hv', u₁, rfl⟩)

theorem letIn_fits {body : Int → Lowering annotated Reg} (he : F.Fits n e)
    (h : ∀ n' a, n ≤ n' → slots F.formals n' a = .object → F.Fits n' (body a)) :
    F.Fits n (Resolved.letIn annotated e body) := by
  intro n' le w u
  refine .part (he n' le) fun v w₁ u₁ _ _ => hold_does giving_self fun a ha => ?_
  exact h (n' + 1) a (by omega) ha (n' + 1) le_rfl

end Variables

section Sequences

theorem sequence_fits (h : ∀ e ∈ es, F.Fits n e) : F.Fits n (sequence annotated es) := by
  induction es with
  | nil => exact fun n' _ w u => .ret ⟨result_zero, u, by rw [giving_rest rfl]⟩
  | cons e es ih =>
    cases es with
    | nil => exact h e (by simp)
    | cons e' es =>
      intro n' le w u
      refine .part (h e (by simp) n' le) fun _ w₁ u₁ _ _ => ?_
      exact .whole (ih (fun x hx => h x (List.mem_cons_of_mem _ hx)) n' le)

theorem arguments_does (h : ∀ e ∈ es, F.Fits n e) (le : n ≤ n') :
    F.Does w (F.point n' u regs) (arguments annotated es) fun _ saved P =>
      ∃ u' regs', P = F.point (n' + saved.length) u' regs' := by
  induction es generalizing n' w u regs with
  | nil => exact .ret ⟨u, regs, rfl⟩
  | cons e es ih =>
    refine .part (h e (by simp) n' le) fun v w₁ u₁ _ hv => .step (op_push giving_self) ?_
    refine (ih (fun x hx => h x (List.mem_cons_of_mem _ hx)) (by omega)).bind ?_
    rintro w₂ saved _ _ ⟨u₂, regs', rfl⟩
    refine .ret ⟨u₂, regs', ?_⟩
    rw [List.length_cons, Nat.add_assoc, Nat.add_comm 1]

end Sequences

section Words

attribute [local irreducible] Word.low Word.fits

theorem operands_does (hl : F.Fits n l) (hr : F.Fits n r) (le : n ≤ n') :
    F.Does w (F.point n' u rest) (operands annotated l r) fun _ x P => x.1 = .t1 ∧ Result x.2 ∧
      ∃ u', P = F.point n' u' (Function.update (giving x.2) .t1 .object) := by
  refine .part (hl n' le) fun a w₁ u₁ _ _ => .step (op_push giving_self) ?_
  refine .part (hr (n' + 1) (by omega)) fun b w₂ u₂ _ hb => .step op_restore ?_
  exact .ret ⟨rfl, hb, u₂, rfl⟩

theorem words_does {k k' : ClassLayout} {f : Operand → Operand → Lowering annotated β}
    (hl : F.Fits n l) (hr : F.Fits n r) (le : n ≤ n')
    (h : ∀ w' u' regs', regs' (Reg.scratchAt u') ≠ .lost → regs' (Reg.scratchAt (u' + 1)) ≠ .lost →
      F.Does w' (F.point n' (u' + 2) regs')
        (f (.reg (Reg.scratchAt u')) (.reg (Reg.scratchAt (u' + 1)))) Q) :
    F.Does w (F.point n' u rest) (do
      let (l, r) ← operands annotated l r
      let a ← target (annotated.unbox l k)
      let b ← target (annotated.unbox r k')
      f a b) Q := by
  refine (operands_does hl hr le).bind ?_
  rintro w₁ ⟨a, b⟩ _ _ ⟨rfl, hb, u₁, rfl⟩
  have second : Function.update (giving b) .t1 .object b = .object :=
    held_beside (result_ne hb (by unfold Result; decide)) giving_self
  refine .draw (op_unbox (Function.update_self ..)) fun κ known => ?_
  refine .draw (op_unbox (held_beside (result_ne hb (scratch_free u₁).2.1) second))
    fun κ' known' => ?_
  refine h w₁ u₁ _ ?_ ?_
  · rw [Function.update_of_ne (Reg.scratchAt_succ u₁), Function.update_self]
    exact known
  · rw [Function.update_self]
    exact known'

theorem arithmetic_fits (op : ArithOp) (hl : F.Fits n l) (hr : F.Fits n r) :
    F.Fits n (arithmetic annotated cx op l r) := by
  intro n' le w u
  refine .found fun int _ => words_does hl hr le fun w₁ u₁ regs first second => ?_
  refine .step (op_arith first second) ?_
  exact .last (op_boxInt (Function.update_self ..)) ⟨result_a0, _, rfl⟩

theorem negation_fits (he : F.Fits n e) : F.Fits n (negation annotated cx e) := by
  intro n' le w u
  refine .part (he n' le) fun v w₁ u₁ _ _ => .found fun int _ => ?_
  refine .draw (op_unbox giving_self) fun κ known => ?_
  refine .step (op_negate (by rwa [Function.update_self])) ?_
  exact .last (op_boxInt (Function.update_self ..)) ⟨result_a0, _, rfl⟩

theorem newObject_fits (ty : String) : F.Fits n (newObject annotated cx ty) := by
  intro n' _ w u
  unfold newObject
  split
  · exact .last op_newSelfType ⟨result_a0, u, rfl⟩
  · refine .found fun k _ => .step op_allocate ?_
    exact .last (op_callInit giving_self) ⟨result_a0, u, rfl⟩

end Words

section Branches

attribute [local irreducible] Word.low Word.fits

theorem boolBlocks_does {P : Station} {f : BlockName × BlockName → Lowering annotated β}
    (k : ∀ yes no w', w.Le w' → F.Entered w' yes P.depth rest → F.Entered w' no P.depth rest →
      F.Does w' P (f (yes, no)) Q) : F.Does w P (boolBlocks annotated >>= f) Q := by
  simp only [boolBlocks, bind_assoc, pure_bind]
  refine .block le_rfl fun yes w₁ g₁ hyes => .block le_rfl fun no w₂ g₂ hno => ?_
  exact k yes no w₂ (g₁.trans g₂) (hyes.mono g₂) hno

theorem selectBool_does {yes no : BlockName} (hyes : F.Entered w yes n rest)
    (hno : F.Entered w no n rest) :
    F.Does w ⟨n, u, none⟩ (selectBool annotated yes no) (F.Leaves n) := by
  refine .block (rest_giving result_a0) fun join w₁ g₁ hjoin => ?_
  refine .step (op_switchTo (hyes.mono g₁)) (.step (op_constant _) ?_)
  refine .step (op_closeArm giving_self hjoin) ?_
  refine .step (op_switchTo (hno.mono g₁)) (.step (op_constant _) ?_)
  refine .step (op_closeArm giving_self hjoin) ?_
  exact .last (op_merge hjoin) ⟨result_a0, u, rfl⟩

theorem comparison_fits (op : Relop) (hl : F.Fits n l) (hr : F.Fits n r) :
    F.Fits n (comparison annotated cx op l r) := by
  intro n' le w u
  refine .found fun int _ => words_does hl hr le fun w₁ u₁ regs first second => ?_
  refine boolBlocks_does fun yes no w₂ _ hyes hno => ?_
  refine .step (op_branch ?_ hyes id hno id) (selectBool_does hyes hno)
  rintro q (_ | ⟨_, _ | ⟨_, hq⟩⟩)
  · exact first
  · exact second
  · cases hq

theorem equality_fits (hl : F.Fits n l) (hr : F.Fits n r) :
    F.Fits n (equality annotated l r) := by
  intro n' le w u
  refine (operands_does hl hr le).bind ?_
  rintro w₁ ⟨a, b⟩ _ _ ⟨rfl, hb, u₁, rfl⟩
  have second : Function.update (giving b) .t1 .object b = .object :=
    held_beside (result_ne hb (by unfold Result; decide)) giving_self
  have base : rest ≤ Function.update (giving b) .t1 .object :=
    rest_update (rest_giving hb) (by decide)
  refine boolBlocks_does fun yes no w₂ g₂ hyes hno => .block base fun slow w₃ g₃ hslow => ?_
  refine .step (op_branch ?_ (hyes.mono g₃) id hslow fun _ => le_rfl) ?_
  · rintro q (_ | ⟨_, _ | ⟨_, hq⟩⟩)
    · simp
    · rw [second]
      decide
    · cases hq
  refine .step (op_switchTo hslow) ?_
  refine .draw (op_callEquality hb (Function.update_self ..) second) fun κ known => ?_
  refine .step op_rawWord (.step (op_branch ?_ (hyes.mono g₃) id (hno.mono g₃) id)
    (selectBool_does (hyes.mono g₃) (hno.mono g₃)))
  simpa [Operand.regs] using known

theorem binary_fits (op : BinOp) (hl : F.Fits n l) (hr : F.Fits n r) :
    F.Fits n (Lowering.binary annotated cx op l r) := by
  cases op with
  | plus => exact arithmetic_fits .add hl hr
  | minus => exact arithmetic_fits .sub hl hr
  | mul => exact arithmetic_fits .mul hl hr
  | div => exact arithmetic_fits .div hl hr
  | lt => exact comparison_fits .lt hl hr
  | le => exact comparison_fits .le hl hr
  | eq => exact equality_fits hl hr

theorem isVoid_fits (he : F.Fits n e) : F.Fits n (isVoid annotated e) := by
  intro n' le w u
  refine .part (he n' le) fun v w₁ u₁ _ _ => boolBlocks_does fun yes no w₂ _ hyes hno => ?_
  exact .step (op_branchVoid giving_self hyes id hno id) (selectBool_does hyes hno)

theorem complement_fits (he : F.Fits n e) : F.Fits n (complement annotated cx e) := by
  intro n' le w u
  refine .part (he n' le) fun v w₁ u₁ _ _ => .found fun bool _ => ?_
  refine .draw (op_unbox giving_self) fun κ known => .step op_rawWord ?_
  refine boolBlocks_does fun yes no w₂ _ hyes hno => ?_
  refine .step (op_branch ?_ hyes id hno id) (selectBool_does hyes hno)
  simpa [Operand.regs] using known

theorem unary_fits (op : UnOp) (he : F.Fits n e) :
    F.Fits n (Lowering.unary annotated cx op e) := by
  cases op with
  | isVoid => exact isVoid_fits he
  | not => exact complement_fits he
  | neg => exact negation_fits he

theorem arm_does {P : Station} {join : BlockName} {f : Unit → Lowering annotated β}
    (he : F.Yields n e) (hjoin : F.Entered w join n (giving .a0))
    (k : ∀ w' u', w.Le w' → F.Does w' ⟨n, u', none⟩ (f ()) Q)
    (entry : P = F.point n u regs) : F.Does w P (do
      let v ← e
      let arm ← target (annotated.closeArm v join)
      f arm) Q := by
  subst entry
  refine .part he fun v w₁ u₁ g₁ _ => ?_
  exact .step (op_closeArm giving_self (hjoin.mono g₁)) (k w₁ u₁ g₁)

theorem cond_fits (he : F.Fits n e) (hl : F.Fits n l) (hr : F.Fits n r) :
    F.Fits n (cond annotated cx e l r) := by
  intro n' le w u
  refine .part (he n' le) fun v w₁ u₁ _ _ => .found fun bool _ => ?_
  refine .draw (op_unbox giving_self) fun κ known => .step op_rawWord ?_
  refine .block le_rfl fun yes w₂ g₂ hyes => .block le_rfl fun no w₃ g₃ hno => ?_
  refine .block (rest_giving result_a0) fun join w₄ g₄ hjoin => ?_
  refine .step (op_branch ?_ (hyes.mono (g₃.trans g₄)) id (hno.mono g₄) id) ?_
  · simpa [Operand.regs] using known
  refine .step (op_switchTo (hyes.mono (g₃.trans g₄))) ?_
  refine arm_does (hl n' le) hjoin (fun w₅ u₅ g₅ => ?_) rfl
  refine .step (op_switchTo (hno.mono (g₄.trans g₅))) ?_
  refine arm_does (hr n' le) (hjoin.mono g₅) (fun w₆ u₆ g₆ => ?_) rfl
  exact .last (op_merge (hjoin.mono (g₅.trans g₆))) ⟨result_a0, u₆, rfl⟩

theorem loop_fits (hl : F.Fits n l) (hr : F.Fits n r) : F.Fits n (loop annotated cx l r) := by
  intro n' le w u
  refine .block le_rfl fun header w₁ g₁ hheader => .block le_rfl fun looping w₂ g₂ hlooping => ?_
  refine .block le_rfl fun tail w₃ g₃ htail => ?_
  have hheader := hheader.mono (g₂.trans g₃)
  have hlooping := hlooping.mono g₃
  refine .step (op_jump hheader id) (.step (op_switchTo hheader) ?_)
  refine .part (hl n' le) fun v w₄ u₄ g₄ _ => .found fun bool _ => ?_
  refine .draw (op_unbox giving_self) fun κ known => .step op_rawWord ?_
  refine .step (op_branch ?_ (hlooping.mono g₄) id (htail.mono g₄) id) ?_
  · simpa [Operand.regs] using known
  refine .step (op_switchTo (hlooping.mono g₄)) ?_
  refine .part (hr n' le) fun _ w₅ u₅ g₅ _ => ?_
  refine .step (op_jump (hheader.mono (g₄.trans g₅)) id) ?_
  refine .step (op_switchTo (htail.mono (g₄.trans g₅))) ?_
  exact .ret ⟨result_zero, u₅, by rw [giving_rest rfl]⟩

theorem guard_does {hint hint' : String} {kind : AbortKind} {file : Const} {line : UInt64}
    {f : Lowering annotated β} (hv : regs v = .object)
    (k : ∀ w', w.Le w' → F.Does w' (F.point n u regs) f Q) :
    F.Does w (F.point n u regs) (do
      let onVoid ← target (annotated.newBlock hint)
      let next ← target (annotated.newBlock hint')
      target (annotated.branchVoid v onVoid next)
      target (annotated.switchTo onVoid)
      target (annotated.abort kind file line)
      target (annotated.switchTo next)
      f) Q := by
  refine .based fun base => ?_
  refine .block le_rfl fun onVoid w₁ g₁ hvoid => .block base fun next w₂ g₂ hnext => ?_
  refine .step (op_branchVoid hv (hvoid.mono g₂) id hnext fun _ => le_rfl) ?_
  refine .step (op_switchTo (hvoid.mono g₂)) (.step op_abort ?_)
  exact .step (op_switchTo hnext) (k w₂ (g₁.trans g₂))

theorem dispatch_fits (line : UInt64) (ty : String) (static : Option String) (method : String)
    (he : F.Fits n e) (h : ∀ e ∈ es, F.Fits n e) :
    F.Fits n (dispatch annotated cx line ty e static method es) := by
  intro n' le w u
  refine .pooled fun file => (arguments_does h le).bind ?_
  rintro w₁ saved _ _ ⟨u₁, regs₁, rfl⟩
  refine .part (he _ (by omega)) fun v w₂ u₂ _ _ => guard_does giving_self fun w₃ _ => ?_
  cases static with
  | some cls =>
    refine .found fun k _ => .found fun label found => ?_
    exact .last (op_callDirect (loud_method found) giving_self) ⟨result_a0, u₂, rfl⟩
  | none =>
    refine .found fun k _ => .found fun slot _ => ?_
    exact .last (op_callDynamic giving_self) ⟨result_a0, u₂, rfl⟩

end Branches

section Cases

attribute [local irreducible] Word.low Word.fits

variable {ε : Type} {q : Reg} {join : BlockName}

theorem branchClasses_does {P : Station} (bs : List (Branch ε)) :
    F.Does w P (Resolved.branchClasses annotated cx bs) fun _ cs P' =>
      P' = P ∧ ∀ c ∈ cs, c.2 ∈ bs := by
  induction bs generalizing w with
  | nil => exact .ret ⟨rfl, by simp⟩
  | cons b bs ih =>
    refine .found fun k _ => ih.bind ?_
    rintro w₁ cs _ _ ⟨rfl, hcs⟩
    refine .ret ⟨rfl, ?_⟩
    rintro c (_ | ⟨_, hc⟩)
    · exact List.mem_cons_self ..
    · exact List.mem_cons_of_mem _ (hcs c hc)

theorem caseArm_does {k : ClassLayout} (tag : regs q ≠ .lost)
    (he : ∀ w u, F.Does w (F.point n u regs) e (F.Leaves n))
    (hjoin : F.Entered w join n (giving .a0)) :
    F.Does w (F.point n u regs) (Resolved.caseArm annotated (.reg q) join k e) fun _ _ P =>
      ∃ u', P = F.point n u' regs := by
  refine .based fun base => .block base fun next w₁ g₁ hnext => ?_
  refine .block base fun upper w₂ g₂ hupper => .block base fun matched w₃ g₃ hmatched => ?_
  have hnext := hnext.mono (g₂.trans g₃)
  have test (x : Int) : ∀ r ∈ q :: (Operand.imm x).regs, regs r ≠ .lost := by
    simpa [Operand.regs] using tag
  refine .step op_rawWord (.step (op_branch (test _) hnext (fun _ => le_rfl) (hupper.mono g₃)
    fun _ => le_rfl) ?_)
  refine .step (op_switchTo (hupper.mono g₃)) (.step op_rawWord ?_)
  refine .step (op_branch (test _) hnext (fun _ => le_rfl) hmatched fun _ => le_rfl) ?_
  refine .step (op_switchTo hmatched) ((he w₃ u).bind ?_)
  rintro w₄ v _ g₄ ⟨_, u₄, rfl⟩
  refine .step (op_closeArm giving_self (hjoin.mono (g₁.trans (g₂.trans (g₃.trans g₄))))) ?_
  exact .step (op_switchTo (hnext.mono g₄)) (.ret ⟨u₄, rfl⟩)

theorem caseArms_does {enter : Branch ε → Lowering annotated Reg}
    {cs : List (ClassLayout × Branch ε)} (tag : regs q ≠ .lost)
    (h : ∀ c ∈ cs, ∀ w u, F.Does w (F.point n u regs) (enter c.2) (F.Leaves n))
    (hjoin : F.Entered w join n (giving .a0)) :
    F.Does w (F.point n u regs) (Resolved.caseArms annotated enter (.reg q) join cs)
      fun _ _ P => ∃ u', P = F.point n u' regs := by
  induction cs generalizing w u with
  | nil => exact .ret ⟨u, rfl⟩
  | cons c cs ih =>
    refine (caseArm_does tag (h c (by simp)) hjoin).bind ?_
    rintro w₁ _ _ g₁ ⟨u₁, rfl⟩
    refine (ih (fun c hc => h c (List.mem_cons_of_mem _ hc)) (hjoin.mono g₁)).bind ?_
    rintro w₂ _ _ _ ⟨u₂, rfl⟩
    exact .ret ⟨u₂, rfl⟩

theorem caseOf_fits (line : UInt64) {bs : List (Branch (Int → Lowering annotated Reg))}
    (he : F.Fits n e) (h : ∀ b ∈ bs, ∀ n' a, n ≤ n' → slots F.formals n' a = .object →
      F.Fits n' (b.body a)) :
    F.Fits n (Resolved.caseOf annotated cx (Resolved.enter annotated) line e bs) := by
  intro n' le w u
  refine .pooled fun file => .part (he n' le) fun v w₁ u₁ _ hv => ?_
  refine guard_does giving_self fun w₂ _ => .draw (op_loadTag giving_self) fun κ known => ?_
  refine .block (rest_giving result_a0) fun join w₃ g₃ hjoin => (branchClasses_does bs).bind ?_
  rintro w₄ cs _ g₄ ⟨rfl, hcs⟩
  have scrutinee : Function.update (giving v) (Reg.scratchAt u₁) κ v = .object :=
    held_beside (result_ne hv (scratch_free u₁).2.1) giving_self
  have bodies : ∀ c ∈ testOrder cs, ∀ w u,
      F.Does w (F.point n' u (Function.update (giving v) (Reg.scratchAt u₁) κ))
        (Resolved.enter annotated v c.2) (F.Leaves n') := by
    intro c hc w u
    have own := h c.2 (hcs c ((testOrder_perm cs).mem_iff.mp hc))
    exact hold_does scrutinee fun a ha => own (n' + 1) a (by omega) ha (n' + 1) le_rfl
  refine (caseArms_does (by rwa [Function.update_self]) bodies (hjoin.mono g₄)).bind ?_
  rintro w₅ arms _ g₅ ⟨u₅, rfl⟩
  refine .step op_abort (.last (op_merge (hjoin.mono (g₄.trans g₅))) ⟨result_a0, u₅, rfl⟩)

end Cases

section Lower

mutual

/-- The code of an expression keeps its pointers from the collector, wherever it stands. -/
theorem lower_fits (fields : F.Fields cx) {n : Nat} {vars : Resolved.Vars annotated}
    (holds : F.Holds n vars) (e : Expr) : F.Fits n (Resolved.lower annotated cx vars e) := by
  match e with
  | .bool _ b => exact constant_fits _
  | .int _ i => exact intLiteral_fits i
  | .str _ s => exact stringLiteral_fits s
  | .ident _ name => exact identifier_fits fields holds name
  | .binary _ op lhs rhs =>
    exact binary_fits op (lower_fits fields holds lhs) (lower_fits fields holds rhs)
  | .unary _ op e => exact unary_fits op (lower_fits fields holds e)
  | .new _ ty => exact newObject_fits ty
  | .caseOf _ e branches =>
    exact caseOf_fits e.line (lower_fits fields holds e)
      (lowerBranches_fit fields holds branches)
  | .letIn _ name ty none body =>
    exact letIn_fits (defaultValue_fits ty) fun n' a le ha =>
      lower_fits fields ((holds.mono le).cons ha) body
  | .letIn _ name _ (some init) body =>
    exact letIn_fits (lower_fits fields holds init) fun n' a le ha =>
      lower_fits fields ((holds.mono le).cons ha) body
  | .block _ es => exact sequence_fits (lowerAll_fit fields holds es)
  | .loop _ pred body =>
    exact loop_fits (lower_fits fields holds pred) (lower_fits fields holds body)
  | .cond _ pred onTrue onFalse =>
    exact cond_fits (lower_fits fields holds pred) (lower_fits fields holds onTrue)
      (lower_fits fields holds onFalse)
  | .dispatch _ recv static method args =>
    exact dispatch_fits recv.line recv.ty static method (lower_fits fields holds recv)
      (lowerAll_fit fields holds args)
  | .assign _ name e => exact assign_fits holds (lower_fits fields holds e) name

theorem lowerAll_fit (fields : F.Fields cx) {n : Nat}
    {vars : Resolved.Vars annotated} (holds : F.Holds n vars) (es : List Expr) :
    ∀ m ∈ Resolved.lowerAll annotated cx vars es, F.Fits n m := by
  match es with
  | [] => simp [Resolved.lowerAll]
  | e :: es =>
    rintro m (_ | ⟨_, hm⟩)
    · exact lower_fits fields holds e
    · exact lowerAll_fit fields holds es m hm

theorem lowerBranches_fit (fields : F.Fields cx) {n : Nat}
    {vars : Resolved.Vars annotated} (holds : F.Holds n vars) (bs : List (Branch Expr)) :
    ∀ b ∈ Resolved.lowerBranches annotated cx vars bs, ∀ n' a, n ≤ n' →
      slots F.formals n' a = .object → F.Fits n' (b.body a) := by
  match bs with
  | [] => simp [Resolved.lowerBranches]
  | ⟨name, ty, body⟩ :: bs =>
    rintro b (_ | ⟨_, hb⟩) n' a le ha
    · exact lower_fits fields ((holds.mono le).cons ha) body
    · exact lowerBranches_fit fields holds bs b hb n' a le ha

end

end Lower

end Emitting

end ClassBackend.Mips
