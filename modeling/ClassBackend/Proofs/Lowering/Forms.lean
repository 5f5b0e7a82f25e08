import ClassBackend.Proofs.Layout.SubtypeTest
import ClassBackend.Proofs.Lowering.Transfers

/-! The forms of expression that have no branches of their own: what their lowering emits computes
what they mean, provided that the lowerings of their parts do. -/
namespace ClassBackend.Lowering

open Meaning

variable {B : Backend} (M : Model B) (S : Setting)

/-- From any scene, with room for `depth` more slots, the code comes to the value of the
evaluation. -/
def Realizes (l : Lowering B B.Value) (depth : Nat) (ε : Eval Val) : Prop :=
  ∀ ⦃Z : Scene B⦄ ⦃H : List (B.Saved × Val)⦄ ⦃n : Nat⦄, Live Z.names Z.slots H → depth ≤ n →
    Sim M (M.Sets Z) (M.Stands n Z.names Z.slots H .here [] []) l ε
      (fun v s => M.Sets Z s ∧ M.result v)
      fun v x => M.Stands n Z.names Z.slots H .here [(v, x)] []

variable {M} {S}

theorem Model.Stands.drop {n : Nat} {names : List (String × Binding B.Local)}
    {slots : List (Slot B)} {H : List (B.Saved × Val)} {p : Spot B}
    {vs vs' : List (B.Value × Val)} {rs rs' : List (B.Raw × Int)} {s : Session B} {w : World}
    {c : M.Config} (h : M.Stands n names slots H p vs rs s w c) (hv : vs' ⊆ vs) (hr : rs' ⊆ rs) :
    M.Stands n names slots H p vs' rs' s w c where
  located := h.located
  room := h.room
  env := h.env
  saved := h.saved
  values e he := h.values e (hv he)
  raws e he := h.raws e (hr he)

section

variable {l r : Lowering B B.Value} {d e : Nat} {ε η : Eval Val}

theorem Realizes.sim (h : Realizes M l d ε) {Z : Scene B} {H : List (B.Saved × Val)} {n : Nat}
    {vs : List (B.Value × Val)} {rs : List (B.Raw × Int)} (live : Live Z.names Z.slots H)
    (room : d ≤ n) :
    Sim M (M.Sets Z) (M.Stands n Z.names Z.slots H .here vs rs) l ε
      (fun v s => M.Sets Z s ∧ M.result v)
      fun v x => M.Stands n Z.names Z.slots H .here [(v, x)] [] :=
  (h live room).weaken (fun _ h => h)
    (fun _ _ _ h => h.drop (List.nil_subset _) (List.nil_subset _)) (fun _ _ h => h)
    fun _ _ _ _ _ h => h

theorem Live.unsaved {names : List (String × Binding B.Local)} {slots : List (Slot B)}
    {H : List (B.Saved × Val)} (live : Live names slots H) : Live names slots [] :=
  ⟨live.locals, live.distinct, fun _ h => absurd h List.not_mem_nil⟩

theorem Realizes.lays (h : Realizes M l d ε) {Z : Scene B} {H : List (B.Saved × Val)}
    (live : Live Z.names Z.slots H) :
    Lays M (M.Sets Z) l fun v s => M.Sets Z s ∧ M.result v :=
  (h live.unsaved (Nat.le_refl d)).lays

theorem void_realizes (law : M.Lawful S) : Realizes M (pure B.voidValue) 0 (pure .void) := by
  intro Z H n _ _
  exact .ret law.toOrdered (fun s hs => ⟨hs, law.voidResult⟩) fun s w c hw =>
    ⟨hw.located, hw.room, hw.env, hw.saved, by simpa using law.void hw.located, by simp⟩

theorem self_realizes (law : M.Lawful S) :
    Realizes M (pure B.selfObject) 0 (pure (.obj S.self)) := by
  intro Z H n _ _
  exact .ret law.toOrdered (fun s hs => ⟨hs, law.selfResult⟩) fun s w c hw =>
    ⟨hw.located, hw.room, hw.env, hw.saved, by simpa using law.self hw.located, by simp⟩

theorem bool_sim (law : M.Lawful S) {Z : Scene B} {H : List (B.Saved × Val)} {n : Nat}
    {vs : List (B.Value × Val)} {rs : List (B.Raw × Int)} (live : Live Z.names Z.slots H)
    (b : Bool) :
    Sim M (M.Sets Z) (M.Stands n Z.names Z.slots H .here vs rs) (target (B.constant (.bool b)))
      (pure ()) (fun v s => M.Sets Z s ∧ M.result v)
      fun v _ => M.Stands n Z.names Z.slots H .here [(v, .obj (S.literal (.bool b)))] [] :=
  constant_sim law live fun _ _ => rfl

theorem bool_realizes (law : M.Lawful S) (b : Bool) :
    Realizes M (target (B.constant (.bool b))) 0 (Meaning.constant S (.bool b)) := by
  intro Z H n live _
  exact (bool_sim law live b).yields

theorem int_pooled (v : Int64) (p : Pool) :
    PoolLe p (p.int v).2 ∧ Denotes (p.int v).2 (p.int v).1 (.int v) := by
  rcases p.int_cases v with ⟨i, found, same⟩ | ⟨_, const, ints, strings⟩
  · rw [same]
    exact ⟨PoolLe.refl _, found⟩
  · refine ⟨⟨ints ▸ List.prefix_append .., strings ▸ List.prefix_refl _⟩, ?_⟩
    simp [const, Denotes, ints]

theorem string_pooled (t : String) (p : Pool) :
    PoolLe p (p.string t).2 ∧ Denotes (p.string t).2 (p.string t).1 (.str t) := by
  have length := (int_pooled (Pool.byteLength t) p).1
  rcases p.string_cases t with ⟨i, found, same⟩ | ⟨_, const, ints, strings⟩
  · rw [same]
    exact ⟨length, (congrArg (·[i]?) (p.int_strings _)).trans found⟩
  · refine ⟨⟨ints ▸ length.1, strings ▸ List.prefix_append ..⟩, ?_⟩
    simp [const, Denotes, strings]

theorem literal_realizes (law : M.Lawful S) {f : Pool → Const × Pool} {k : Literal}
    (hf : ∀ p, PoolLe p (f p).2 ∧ Denotes (f p).2 (f p).1 k) :
    Realizes M (do let c ← pooled f; target (B.constant c)) 0 (Meaning.constant S k) := by
  intro Z H n live _
  refine Sim.first (S := S) law.toOrdered (pooled_sim law.toOrdered hf) fun c => ?_
  refine (constant_sim (Z := { Z with pooled := (c, k) :: Z.pooled }) law live fun s hs =>
    hs.pooled (c, k) (List.mem_cons_self ..)).yields.weaken (fun _ h => h) (fun _ _ _ h => h)
    (fun v s hs => ?_) (fun _ _ _ _ _ h => h)
  exact ⟨hs.1.trim (List.subset_cons_self ..) (List.Sublist.refl _), hs.2⟩

theorem defaultValue_eq (B : Backend) (ty : String) : defaultValue B ty =
    if ty = Builtin.intName then intLiteral B 0
    else if ty = Builtin.boolName then target (B.constant (.bool false))
    else if ty = Builtin.stringName then stringLiteral B ""
    else pure B.voidValue := by
  split
  · rename_i int
    subst int
    rfl
  · rename_i notInt
    split
    · rename_i bool
      subst bool
      rfl
    · rename_i notBool
      split
      · rename_i string
        subst string
        rfl
      · rename_i notString
        funext s
        simp [defaultValue, pooled, Pool.initValue_eq, notInt, notBool, notString, bind,
          StateT.bind, Except.bind]

theorem defaultValue_realizes (law : M.Lawful S) (ty : String) :
    Realizes M (defaultValue B ty) 0 (Meaning.defaultValue S ty) := by
  rw [defaultValue_eq]
  unfold Meaning.defaultValue
  split
  · exact literal_realizes law (int_pooled 0)
  · split
    · exact bool_realizes law false
    · split
      · exact literal_realizes law (string_pooled "")
      · exact void_realizes law

theorem operands_sim (law : M.Lawful S) {Z : Scene B} {H : List (B.Saved × Val)} {n : Nat}
    (live : Live Z.names Z.slots H) (hl : Realizes M l d ε) (hr : Realizes M r e η)
    (room : max d (e + 1) ≤ n) :
    Sim M (M.Sets Z) (M.Stands n Z.names Z.slots H .here [] []) (operands B l r)
      (Meaning.operands ε η) (fun _ => M.Sets Z)
      fun v x => M.Stands n Z.names Z.slots H .here [(v.1, x.1), (v.2, x.2)] [] := by
  obtain ⟨k, rfl⟩ : ∃ k, n = k + 1 := ⟨n - 1, by omega⟩
  unfold operands Meaning.operands
  refine Sim.bind (S := S) law.toOrdered (hl.sim live (by omega)) fun v x => .given fun _ => ?_
  refine Sim.first (S := S) law.toOrdered
    (preserve_sim law live (List.mem_singleton_self (v, x))) fun a => ?_
  have saved := live.save a x
  refine Sim.bind (S := S) law.toOrdered
    (hr.sim (Z := { Z with slots := .inr a :: Z.slots }) saved (by omega))
    fun u y => .given fun result => ?_
  refine Sim.first (S := S) law.toOrdered (restore_sim law live (by simpa using result)) fun v => ?_
  exact .ret law.toOrdered (fun _ hs => hs) fun _ _ _ hw => hw

theorem boxInt_eq {int : ClassLayout} (found : S.classes.find Builtin.intName = .ok int)
    (k : Int) : Meaning.boxInt S k = Meaning.allocate int.tag [.word k] := by
  simp only [Meaning.boxInt, Meaning.intClass, found, Meaning.ofExcept, pure_bind]

theorem arithmetic_realizes (law : M.Lawful S) (plain : M.Lives → S.Plain) (op : ArithOp)
    (hl : Realizes M l d ε) (hr : Realizes M r e η) :
    Realizes M (arithmetic B S.context op l r) (max d (e + 1))
      (Meaning.arithmetic S op ε η) := by
  intro Z H n live room
  unfold arithmetic Meaning.arithmetic
  refine .find fun int found => ?_
  have layout := fun lives => (plain lives).int int found
  refine Sim.bind (S := S) law.toOrdered (operands_sim law live hl hr room) ?_
  rintro ⟨v, u⟩ ⟨x, y⟩
  refine Sim.unboxedBoth law live (fun lives => (layout lives).1) (by simp) (by simp)
    fun a i b j loaded _ => ?_
  refine Sim.bind (S := S) law.toOrdered (arith_sim law live (by simp) (by simp) loaded)
    fun q k => ?_
  rw [boxInt_eq found]
  exact boxInt_sim law live found layout (by simp)

theorem boolBlocks_sim (law : M.Lawful S) {Z : Scene B} {H : List (B.Saved × Val)} {n : Nat}
    {p : Spot B} {vs : List (B.Value × Val)} {rs : List (B.Raw × Int)} :
    Sim M (M.Sets Z) (M.Stands n Z.names Z.slots H p vs rs) (boolBlocks B) (pure ())
      (fun b => M.Sets { Z with opened := b.2 :: b.1 :: Z.opened })
      fun _ _ => M.Stands n Z.names Z.slots H p vs rs := by
  unfold boolBlocks
  refine Sim.first (S := S) law.toOrdered (newBlock_sim law _) fun yes => ?_
  refine Sim.first (S := S) law.toOrdered
    (newBlock_sim (Z := { Z with opened := yes :: Z.opened }) law _) fun no => ?_
  exact .ret law.toOrdered (fun _ hs => hs) fun _ _ _ hw => hw

/-- Two blocks with code of their own that meet at a join. -/
theorem join_sim (law : M.Lawful S) {Z : Scene B} {H : List (B.Saved × Val)} {n : Nat}
    {vs : List (B.Value × Val)} {rs : List (B.Raw × Int)} (live : Live Z.names Z.slots H)
    (hl : Realizes M l d ε) (hr : Realizes M r e η) (roomL : d ≤ n) (roomR : e ≤ n)
    {yes no join : BlockName} {O : List BlockName} (hO : Z.opened.Perm (yes :: no :: join :: O))
    (b : Bool) :
    Sim M (M.Sets Z) (M.Stands n Z.names Z.slots H (.block (if b then yes else no)) vs rs)
      (do
        target (B.switchTo yes)
        let v ← l
        let a ← target (B.closeArm v join)
        target (B.switchTo no)
        let u ← r
        let c ← target (B.closeArm u join)
        target (B.merge [a, c] join))
      (if b then ε else η) (fun v s => M.Sets { Z with opened := O } s ∧ M.result v)
      fun v x => M.Stands n Z.names Z.slots H .here [(v, x)] [] := by
  have ho := law.toOrdered
  have trim : ∀ {a c : B.Arm} {v : B.Value} {s : Session B},
      M.Sets { Z with opened := O, arms := Z.arms ++ [a] ++ [c] } s ∧ M.result v →
      M.Sets { Z with opened := O } s ∧ M.result v := fun h =>
    ⟨h.1.trim (List.Subset.refl _) (by simp), h.2⟩
  cases b with
  | true =>
    simp only [if_true]
    rw [← bind_pure ε]
    refine Sim.first (S := S) ho (switchTo_sim law live hO) fun _ => ?_
    refine Sim.bind (S := S) ho (hl.sim live roomL) fun v x => .given fun _ => ?_
    refine Sim.yields ?_
    refine Sim.first (S := S) ho (closeArm_sim law ‹_› (List.mem_singleton_self (v, x)) join)
      fun a => ?_
    refine Sim.first (S := S) ho (.skip ho (by simp) (switchTo_lays law (.refl _))) fun _ => ?_
    refine Sim.first (S := S) ho (.skip ho (by simp) (hr.lays live)) fun u => .given fun _ => ?_
    refine Sim.first (S := S) ho (.skip ho (by simp) (closeArm_lays law u join)) fun c => ?_
    exact (merge_sim law ‹_› (.refl _) (by simp) (by simp)).weaken (fun _ h => h)
      (fun _ _ _ h => h) (fun _ _ => trim) fun _ _ _ _ _ h => h
  | false =>
    simp only [Bool.false_eq_true, if_false]
    rw [← bind_pure η]
    refine Sim.first (S := S) ho (.skip ho (by simp) (switchTo_lays law hO)) fun _ => ?_
    refine Sim.first (S := S) ho (.skip ho (by simp) (hl.lays live)) fun v => .given fun _ => ?_
    refine Sim.first (S := S) ho (.skip ho (by simp) (closeArm_lays law v join)) fun a => ?_
    refine Sim.first (S := S) ho (switchTo_sim law live (.refl _)) fun _ => ?_
    refine Sim.bind (S := S) ho (hr.sim live roomR) fun u y => .given fun _ => ?_
    refine Sim.yields ?_
    refine Sim.first (S := S) ho (closeArm_sim law ‹_› (List.mem_singleton_self (u, y)) join)
      fun c => ?_
    exact (merge_sim law ‹_› (.refl _) (by simp) (by simp)).weaken (fun _ h => h)
      (fun _ _ _ h => h) (fun _ _ => trim) fun _ _ _ _ _ h => h

theorem selectBool_sim (law : M.Lawful S) {Z : Scene B} {H : List (B.Saved × Val)} {n : Nat}
    {vs : List (B.Value × Val)} {rs : List (B.Raw × Int)} {yes no : BlockName}
    (live : Live Z.names Z.slots H) (b : Bool) :
    Sim M (M.Sets { Z with opened := no :: yes :: Z.opened })
      (M.Stands n Z.names Z.slots H (.block (if b then yes else no)) vs rs)
      (selectBool B yes no) (Meaning.constant S (.bool b)) (fun v s => M.Sets Z s ∧ M.result v)
      fun v x => M.Stands n Z.names Z.slots H .here [(v, x)] [] := by
  unfold selectBool
  have value : Meaning.constant S (.bool b) =
      if b then Meaning.constant S (.bool true) else Meaning.constant S (.bool false) := by
    cases b <;> rfl
  rw [value]
  refine Sim.first (S := S) law.toOrdered (newBlock_sim law _) fun join => ?_
  exact join_sim law ‹_› (bool_realizes law true) (bool_realizes law false) (Nat.zero_le _)
    (Nat.zero_le _) ((List.reverse_perm [yes, no, join]).append_right _) b

theorem comparison_realizes (law : M.Lawful S) (plain : M.Lives → S.Plain) (op : Relop)
    (hl : Realizes M l d ε) (hr : Realizes M r e η) :
    Realizes M (comparison B S.context op l r) (max d (e + 1))
      (Meaning.comparison S op ε η) := by
  intro Z H n live room
  unfold comparison Meaning.comparison
  refine .find fun int found => ?_
  refine Sim.bind (S := S) law.toOrdered (operands_sim law live hl hr room) ?_
  rintro ⟨v, u⟩ ⟨x, y⟩
  refine Sim.unboxedBoth law live (fun lives => ((plain lives).int int found).1) (by simp) (by simp)
    fun a i b j loaded _ => ?_
  refine Sim.first (S := S) law.toOrdered (boolBlocks_sim law) ?_
  rintro ⟨yes, no⟩
  refine Sim.bind (S := S) law.toOrdered
    (branchRaw_sim law ‹_› op (List.mem_cons_of_mem _ (List.mem_singleton_self (a, i)))
      (List.mem_cons_self (a := (b, j))) loaded yes no) fun _ _ => ?_
  exact selectBool_sim law live (holds op i j)

theorem equality_realizes (law : M.Lawful S) (hl : Realizes M l d ε) (hr : Realizes M r e η) :
    Realizes M (equality B l r) (max d (e + 1)) (Meaning.equality S ε η) := by
  intro Z H n live room
  have ho := law.toOrdered
  unfold equality Meaning.equality
  refine Sim.bind (S := S) ho (operands_sim law live hl hr room) ?_
  rintro ⟨v, u⟩ ⟨x, y⟩
  refine Sim.first (S := S) ho (boolBlocks_sim law) ?_
  rintro ⟨yes, no⟩
  refine Sim.first (S := S) ho (newBlock_sim law _) fun slow => ?_
  refine Sim.bind (S := S) ho (branchSame_sim law ‹_› (List.mem_cons_self (a := (v, x)))
    (List.mem_cons_of_mem _ (List.mem_singleton_self (u, y))) yes slow) fun _ _ => ?_
  by_cases same : x = y
  · simp only [same, if_true]
    refine Sim.first (S := S) ho (.skip ho (by simp) (switchTo_lays law (.refl _))) fun _ => ?_
    refine Sim.first (S := S) ho
      (.skip ho (by simp) (.same ho fun run => (law.callEquality run).1)) fun q => ?_
    refine Sim.first (S := S) ho (rawWord_sim law law.truth) fun truth => ?_
    refine Sim.first (S := S) ho
      (.skip ho (by simp) (.same ho fun run => (law.branchRaw run).1)) fun _ => ?_
    exact selectBool_sim law live true
  · simp only [same, if_false]
    refine Sim.first (S := S) ho (switchTo_sim law live (.refl _)) fun _ => ?_
    refine Sim.bind (S := S) ho (callEquality_sim law live (List.mem_cons_self (a := (v, x)))
      (List.mem_cons_of_mem _ (List.mem_singleton_self (u, y))) same)
      fun q b => .given fun loaded => ?_
    refine Sim.first (S := S) ho (rawWord_sim law law.truth) fun truth => ?_
    have asked : holds .eq (if b then 1 else 0) 1 = b := by cases b <;> rfl
    have value : decided b = decided (holds .eq (if b then 1 else 0) 1) := by rw [asked]
    rw [value]
    refine Sim.bind (S := S) ho (branchRaw_sim law ‹_› .eq
      (List.mem_cons_of_mem (truth, 1) (List.mem_singleton_self (q, if b then 1 else 0)))
      List.mem_cons_self loaded yes no) fun _ _ => ?_
    rw [asked]
    exact selectBool_sim law live b

theorem binary_realizes (law : M.Lawful S) (plain : M.Lives → S.Plain) (op : BinOp)
    (hl : Realizes M l d ε) (hr : Realizes M r e η) :
    Realizes M (Lowering.binary B S.context op l r) (max d (e + 1)) (Meaning.binary S op ε η) := by
  cases op with
  | plus => exact arithmetic_realizes law plain .add hl hr
  | minus => exact arithmetic_realizes law plain .sub hl hr
  | mul => exact arithmetic_realizes law plain .mul hl hr
  | div => exact arithmetic_realizes law plain .div hl hr
  | lt => exact comparison_realizes law plain .lt hl hr
  | le => exact comparison_realizes law plain .le hl hr
  | eq => exact equality_realizes law hl hr

theorem unary_realizes (law : M.Lawful S) (plain : M.Lives → S.Plain) (op : UnOp)
    (hl : Realizes M l d ε) :
    Realizes M (Lowering.unary B S.context op l) d (Meaning.unary S op ε) := by
  intro Z H n live room
  have ho := law.toOrdered
  cases op with
  | isVoid =>
    unfold Lowering.unary isVoid Meaning.unary
    refine Sim.bind (S := S) ho (hl.sim live room) fun v x => .given fun _ => ?_
    refine Sim.first (S := S) ho (boolBlocks_sim law) ?_
    rintro ⟨yes, no⟩
    refine Sim.bind (S := S) ho (branchVoid_sim law ‹_› (List.mem_singleton_self (v, x)) yes no)
      fun _ _ => ?_
    simpa only [decide_eq_true_eq] using selectBool_sim law live (decide (x = .void))
  | not =>
    unfold Lowering.unary complement Meaning.unary
    refine Sim.bind (S := S) ho (hl.sim live room) fun v x => .given fun _ => ?_
    refine .find fun bool found => ?_
    refine Sim.unboxed law live (fun lives => (plain lives).bool bool found)
      (List.mem_singleton_self (v, x))
      fun a i loaded => ?_
    refine Sim.first (S := S) ho (rawWord_sim law law.falsity) fun falsity => ?_
    refine Sim.first (S := S) ho (boolBlocks_sim law) ?_
    rintro ⟨yes, no⟩
    refine Sim.bind (S := S) ho
      (branchRaw_sim law ‹_› .eq (List.mem_cons_of_mem _ (List.mem_singleton_self (a, i)))
        (List.mem_cons_self (a := (falsity, 0))) loaded yes no) fun _ _ => ?_
    exact selectBool_sim law live (holds .eq i 0)
  | neg =>
    unfold Lowering.unary negation Meaning.unary
    refine Sim.bind (S := S) ho (hl.sim live room) fun v x => .given fun _ => ?_
    refine .find fun int found => ?_
    have layout := fun lives => (plain lives).int int found
    refine Sim.unboxed law live (fun lives => (layout lives).1) (List.mem_singleton_self (v, x))
      fun a i loaded => ?_
    refine Sim.bind (S := S) ho (negate_sim law live (List.mem_singleton_self (a, i)) loaded)
      fun q k => ?_
    rw [boxInt_eq found]
    exact boxInt_sim law live found layout (List.mem_singleton_self (q, k))

theorem newObject_realizes (law : M.Lawful S)
    (tagged : ∀ tag k, S.classes.atTag tag = .ok k → k ∈ S.classes.classes ∧ k.tag = tag)
    (ty : String) : Realizes M (newObject B S.context ty) 1 (Meaning.newObject S ty) := by
  intro Z H n live room
  obtain ⟨m, rfl⟩ : ∃ m, n = m + 1 := ⟨n - 1, by omega⟩
  unfold newObject Meaning.newObject
  by_cases self : ty = selfType
  · simp only [self, if_true]
    exact newSelfType_sim law live tagged
  · simp only [self, if_false]
    refine .find fun k found => ?_
    refine Sim.bind (S := S) law.toOrdered (allocate_sim law live (ClassTable.mem_of_find found))
      fun v x => ?_
    exact callInit_sim law live (List.mem_singleton_self (v, x))

end

end ClassBackend.Lowering
