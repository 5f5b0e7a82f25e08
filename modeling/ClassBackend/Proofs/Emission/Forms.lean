import Mathlib.Data.Set.Insert
import ClassBackend.Proofs.Emission.Session
import ClassBackend.Proofs.Lowering.Names

/-! Forms of expression under a discipline: values, operators, names and control. The lowering of
a form settles under the conditions of its parts, and leaves the slots and the blocks as they
were. -/
namespace ClassBackend

def Context.Declares (cx : Context) (ty : String) : Prop := ∃ k, cx.classes.find ty = .ok k

namespace Emission

open Lowering Meaning

variable {B : Backend} (D : Discipline B) (texts : List String)

def Covers (F : Formals B) (K : List (Slot B)) (N : List (String × Binding B.Local)) : Prop :=
  ∀ a ∈ locals N, Reaches F K a

def Names (N : List (String × Binding B.Local)) (vars : Set String) : Prop :=
  ∀ x, x ∈ N.map Prod.fst ↔ x ∈ vars

/-- The lowering of an expression with these variables in scope settles under a condition, and
pools these literals. -/
def Lowers (C : Prop) (vars : Set String) (L : List Literal) (m : Lowering B B.Value) : Prop :=
  ∀ ⦃N ms G F K O H⦄, Names N vars → ms ≠ [] → Covers F K N →
    Emits D.tolerates C (Sets texts N ms G (D.inside F K true O H)) m D.value
      fun _ => Sets texts N ms (G ++ L) (D.inside F K true O H)

variable {D texts} {cx : Context}
variable {N : List (String × Binding B.Local)} {ms : List (Option String)} {G : List Literal}
variable {F : Formals B} {K : List (Slot B)} {O : List (Pending B)}
variable {H : List (BlockName × List (Slot B))} {vars : Set String}
variable {C C' C'' : Prop} {L L' L'' : List Literal} {l r e : Lowering B B.Value}

theorem Covers.push (h : Covers F K N) (s : Slot B) : Covers F (s :: K) N :=
  fun a ha => (h a ha).imp_left (List.mem_cons_of_mem _)

theorem Covers.bind (h : Covers F K N) (name : String) (a : B.Local) :
    Covers F (.inl a :: K) ((name, .stack a) :: N) := by
  intro b hb
  rcases List.mem_cons.mp hb with rfl | old
  · exact .inl (List.mem_cons_self ..)
  · exact h.push _ b old

theorem Names.bind (h : Names N vars) (name : String) (b : Binding B.Local) :
    Names ((name, b) :: N) (insert name vars) := by
  intro x
  rw [List.map_cons, List.mem_cons, h x, Set.mem_insert_iff]

theorem Discipline.Keeps.kept {α : Type} {m : Emit B.State α} {R : α → Prop} (h : D.Keeps m R) :
    Emits D.tolerates True (Sets texts N ms G (D.inside F K true O H)) (target m) R
      fun _ => Sets texts N ms G (D.inside F K true O H) :=
  Emits.lift (@h F K O H)

theorem Discipline.Lawful.open (law : D.Lawful) {b : BlockName} (R : List (Pending B)) :
    Emits D.tolerates True (Sets texts N ms G (D.inside F K false (R ++ ⟨b, K, none⟩ :: O) H))
      (target (B.switchTo b)) anything
      fun _ => Sets texts N ms G (D.inside F K true (R ++ O) H) :=
  (law.switchTo.weaken (fun _ hs => hs) Iff.rfl fun _ _ hs => law.forget hs).lift

theorem Lowers.congr (h : Lowers D texts C vars L l) (same : C ↔ C') (mem : ∀ x, x ∈ L ↔ x ∈ L') :
    Lowers D texts C' vars L' l := by
  intro N ms G F K O H hN hms live
  refine (h hN hms live).weaken (fun _ hs => hs) same fun _ s hs => ?_
  exact ⟨hs.shows, hs.pooled.congr fun x => by simp [mem x], hs.target⟩

section Values

theorem Lowers.value {m : Emit B.State B.Value} (h : D.Keeps m D.value) :
    Lowers D texts True vars [] (target m) := by
  intro N ms G F K O H _ _ _
  rw [List.append_nil]
  exact h.kept

theorem Lowers.intLiteral (law : D.Lawful) (v : Int64) :
    Lowers D texts True vars [.int v] (intLiteral B v) := by
  intro N ms G F K O H _ _ _
  exact (Emits.pool fun p hp => hp.int v).then fun _ _ => law.constant.kept

theorem Lowers.stringLiteral (law : D.Lawful) (s : String) :
    Lowers D texts True vars [.str s] (stringLiteral B s) := by
  intro N ms G F K O H _ _ _
  exact (Emits.pool fun p hp => hp.string s).then fun _ _ => law.constant.kept

theorem Lowers.defaultValue (law : D.Lawful) (blank : "" ∈ texts) (ty : String) :
    Lowers D texts True vars [] (defaultValue B ty) := by
  intro N ms G F K O H _ _ _
  rw [List.append_nil]
  refine (Emits.pool fun p hp => hp.initValue blank ty).then fun c _ => ?_
  cases c with
  | some c => exact law.constant.kept
  | none => exact Emits.ret law.void fun _ hs => hs

theorem Lowers.identifier (law : D.Lawful) (name : String) :
    Lowers D texts (name = selfName ∨ name ∈ vars) vars [] (identifier B cx name) := by
  intro N ms G F K O H hN _ live
  rw [List.append_nil]
  unfold Lowering.identifier
  split
  · rename_i same
    exact Emits.when (C := True) (Emits.ret law.self fun _ hs => hs) (by simp [same])
  · rename_i other
    refine ((Emits.binding other).free fun b bound => ?_).when
      (by simp only [other, false_or, hN name])
    cases b with
    | field slot => exact (law.loadField law.self).kept
    | stack a => exact (law.loadLocal (live a (mem_locals bound))).lift

end Values

section Operators

theorem operands_emits (law : D.Lawful) (hl : Lowers D texts C vars L l)
    (hr : Lowers D texts C' vars L' r) (hN : Names N vars) (hms : ms ≠ [])
    (live : Covers F K N) :
    Emits D.tolerates (C ∧ C') (Sets texts N ms G (D.inside F K true O H)) (operands B l r)
      (fun p => D.value p.1 ∧ D.value p.2)
      fun _ => Sets texts N ms (G ++ L ++ L') (D.inside F K true O H) := by
  refine (hl hN hms live).bind fun v _ => ?_
  refine law.preserve.lift.then fun saved _ => ?_
  refine (hr hN hms (live.push _)).free fun w hw => ?_
  refine law.restore.lift.then fun v hv => ?_
  exact Emits.ret ⟨hv, hw⟩ fun _ hs => hs

theorem Lowers.arithmetic (law : D.Lawful) (int : cx.Declares Builtin.intName) (op : ArithOp)
    (hl : Lowers D texts C vars L l) (hr : Lowers D texts C' vars L' r) :
    Lowers D texts (C ∧ C') vars (L ++ L') (arithmetic B cx op l r) := by
  intro N ms G F K O H hN hms live
  rw [← List.append_assoc]
  refine Emits.known int fun k _ => ?_
  refine (operands_emits law hl hr hN hms live).free fun p hp => ?_
  refine (law.unbox hp.1).kept.then fun a _ => ?_
  refine (law.unbox hp.2).kept.then fun b _ => ?_
  refine law.arith.kept.then fun n _ => ?_
  exact law.boxInt.kept

theorem boolBlocks_emits (law : D.Lawful) {o : Bool} :
    Emits D.tolerates True (Sets texts N ms G (D.inside F K o O H)) (boolBlocks B) anything
      fun p => Sets texts N ms G (D.inside F K o (⟨p.2, K, none⟩ :: ⟨p.1, K, none⟩ :: O) H) := by
  refine (law.newBlock (by decide) (.inl rfl)).lift.then fun yes _ => ?_
  refine (law.newBlock (by decide) (.inl rfl)).lift.then fun no _ => ?_
  exact Emits.ret trivial fun _ hs => hs

theorem selectBool_emits (law : D.Lawful) {yes no : BlockName} :
    Emits D.tolerates True
      (Sets texts N ms G (D.inside F K false (⟨no, K, none⟩ :: ⟨yes, K, none⟩ :: O) H))
      (selectBool B yes no) D.value fun _ => Sets texts N ms G (D.inside F K true O H) := by
  refine (law.newBlock (by decide) (.inr rfl)).lift.then fun join _ => ?_
  refine (law.open [⟨join, K, some []⟩, ⟨no, K, none⟩]).then fun _ _ => ?_
  refine law.constant.kept.then fun t _ => ?_
  refine (law.closeArm (R := [])).lift.then fun a _ => ?_
  refine (law.open [⟨join, K, some [a]⟩]).then fun _ _ => ?_
  refine law.constant.kept.then fun f _ => ?_
  refine (law.closeArm (R := [])).lift.then fun b _ => ?_
  exact (law.merge (R := [])).lift

theorem Lowers.comparison (law : D.Lawful) (int : cx.Declares Builtin.intName) (op : Relop)
    (hl : Lowers D texts C vars L l) (hr : Lowers D texts C' vars L' r) :
    Lowers D texts (C ∧ C') vars (L ++ L') (comparison B cx op l r) := by
  intro N ms G F K O H hN hms live
  rw [← List.append_assoc]
  refine Emits.known int fun k _ => ?_
  refine (operands_emits law hl hr hN hms live).free fun p hp => ?_
  refine (law.unbox hp.1).kept.then fun a _ => ?_
  refine (law.unbox hp.2).kept.then fun b _ => ?_
  refine (boolBlocks_emits law).then fun blocks _ => ?_
  refine (law.branchRaw (.inl (by simp)) (.inl (by simp))).lift.then fun _ _ => ?_
  exact selectBool_emits law

theorem Lowers.equality (law : D.Lawful) (hl : Lowers D texts C vars L l)
    (hr : Lowers D texts C' vars L' r) :
    Lowers D texts (C ∧ C') vars (L ++ L') (equality B l r) := by
  intro N ms G F K O H hN hms live
  rw [← List.append_assoc]
  refine (operands_emits law hl hr hN hms live).free fun p hp => ?_
  refine (boolBlocks_emits law).then fun blocks _ => ?_
  refine (law.newBlock (by decide) (.inl rfl)).lift.then fun slow _ => ?_
  refine (law.branchSame (.inl (by simp)) (.inl (by simp))).lift.then fun _ _ => ?_
  refine (law.open []).then fun _ _ => ?_
  refine (law.callEquality hp.1 hp.2).kept.then fun equal _ => ?_
  refine (law.rawWord law.truth).kept.then fun truth _ => ?_
  refine (law.branchRaw (.inl (by simp)) (.inl (by simp))).lift.then fun _ _ => ?_
  exact selectBool_emits law

theorem Lowers.binary (law : D.Lawful) (int : cx.Declares Builtin.intName) (op : BinOp)
    (hl : Lowers D texts C vars L l) (hr : Lowers D texts C' vars L' r) :
    Lowers D texts (C ∧ C') vars (L ++ L') (Lowering.binary B cx op l r) := by
  cases op with
  | plus => exact .arithmetic law int .add hl hr
  | minus => exact .arithmetic law int .sub hl hr
  | mul => exact .arithmetic law int .mul hl hr
  | div => exact .arithmetic law int .div hl hr
  | lt => exact .comparison law int .lt hl hr
  | le => exact .comparison law int .le hl hr
  | eq => exact .equality law hl hr

theorem Lowers.isVoid (law : D.Lawful) (he : Lowers D texts C vars L e) :
    Lowers D texts C vars L (isVoid B e) := by
  intro N ms G F K O H hN hms live
  refine (he hN hms live).free fun v _ => ?_
  refine (boolBlocks_emits law).then fun blocks _ => ?_
  refine (law.branchVoid (.inl (by simp)) (.inl (by simp))).lift.then fun _ _ => ?_
  exact selectBool_emits law

theorem Lowers.complement (law : D.Lawful) (bool : cx.Declares Builtin.boolName)
    (he : Lowers D texts C vars L e) : Lowers D texts C vars L (complement B cx e) := by
  intro N ms G F K O H hN hms live
  refine (he hN hms live).free fun v hv => ?_
  refine Emits.known bool fun k _ => ?_
  refine (law.unbox hv).kept.then fun raw _ => ?_
  refine (law.rawWord law.falsity).kept.then fun falsity _ => ?_
  refine (boolBlocks_emits law).then fun blocks _ => ?_
  refine (law.branchRaw (.inl (by simp)) (.inl (by simp))).lift.then fun _ _ => ?_
  exact selectBool_emits law

theorem Lowers.negation (law : D.Lawful) (int : cx.Declares Builtin.intName)
    (he : Lowers D texts C vars L e) : Lowers D texts C vars L (negation B cx e) := by
  intro N ms G F K O H hN hms live
  refine (he hN hms live).free fun v hv => ?_
  refine Emits.known int fun k _ => ?_
  refine (law.unbox hv).kept.then fun raw _ => ?_
  refine law.negate.kept.then fun negated _ => ?_
  exact law.boxInt.kept

theorem Lowers.unary (law : D.Lawful) (int : cx.Declares Builtin.intName)
    (bool : cx.Declares Builtin.boolName) (op : UnOp) (he : Lowers D texts C vars L e) :
    Lowers D texts C vars L (Lowering.unary B cx op e) := by
  cases op with
  | isVoid => exact .isVoid law he
  | not => exact .complement law bool he
  | neg => exact .negation law int he

end Operators

section Names

theorem Lowers.newObject (law : D.Lawful) (ty : String) :
    Lowers D texts (ty = selfType ∨ cx.Declares ty) vars [] (newObject B cx ty) := by
  intro N ms G F K O H _ _ _
  rw [List.append_nil]
  unfold Lowering.newObject
  split
  · rename_i same
    exact law.newSelfType.kept.when (by simp [same])
  · rename_i other
    refine (Emits.find (C := fun _ => True) fun k _ => ?_).when (by simp [other, Context.Declares])
    refine law.allocate.kept.then fun obj _ => ?_
    exact law.callInit.kept

theorem inScope_emits (law : D.Lawful) {name : String} {v : B.Value}
    (he : Lowers D texts C (insert name vars) L e) (hN : Names N vars) (live : Covers F K N) :
    Emits D.tolerates C (Sets texts N ms G (D.inside F K true O H)) (inScope B name v e) D.value
      fun _ => Sets texts N ms (G ++ L) (D.inside F K true O H) := by
  refine law.allocLocal.lift.then fun a _ => ?_
  refine Emits.pushScope.then fun _ _ => ?_
  refine (Emits.bindName (by simp)).then fun _ _ => ?_
  refine (he (hN.bind name _) (by simp) (live.bind name a)).free fun v hv => ?_
  refine (Emits.popScope [(name, .stack a)]).then fun _ _ => ?_
  refine law.freeLocal.lift.then fun _ _ => ?_
  exact Emits.ret hv fun _ hs => hs

theorem Lowers.letIn (law : D.Lawful) (name : String) (hl : Lowers D texts C vars L l)
    (he : Lowers D texts C' (insert name vars) L' e) :
    Lowers D texts (C ∧ C') vars (L ++ L') (Lowering.letIn B name l e) := by
  intro N ms G F K O H hN hms live
  rw [← List.append_assoc]
  refine (hl hN hms live).bind fun v _ => ?_
  exact inScope_emits law he hN live

theorem Lowers.assign (law : D.Lawful) (name : String)
    (he : Lowers D texts C vars L e) :
    Lowers D texts (C ∧ name ≠ selfName ∧ name ∈ vars) vars L (Lowering.assign B cx name e) := by
  intro N ms G F K O H hN hms live
  refine (he hN hms live).bind fun v hv => ?_
  by_cases same : name = selfName
  · intro s hs
    subst same
    exact fun c => absurd rfl c.1
  · refine ((Emits.binding same).free fun b bound => ?_).when (by simp [same, hN name])
    cases b with
    | field slot =>
      refine (law.storeField law.self).kept.then fun _ _ => ?_
      refine (law.writeBarrier law.self).kept.then fun _ _ => ?_
      exact Emits.ret hv fun _ hs => hs
    | stack a =>
      refine (law.storeLocal (live a (mem_locals bound))).lift.then fun _ _ => ?_
      exact Emits.ret hv fun _ hs => hs

end Names

section Control

variable {ι : Type} {is : List ι} {P : ι → Prop} {Q : ι → List Literal} {m : ι → Lowering B B.Value}

theorem Lowers.sequence (law : D.Lawful) (h : ∀ i ∈ is, Lowers D texts (P i) vars (Q i) (m i)) :
    Lowers D texts (∀ i ∈ is, P i) vars (is.flatMap Q) (Lowering.sequence B (is.map m)) := by
  induction is with
  | nil =>
    intro N ms G F K O H _ _ _
    rw [List.flatMap_nil, List.append_nil]
    exact Emits.when (C := True) (Emits.ret law.void fun _ hs => hs) (by simp)
  | cons i is ih =>
    cases is with
    | nil => exact (h i (by simp)).congr (by simp) (by simp)
    | cons j is =>
      intro N ms G F K O H hN hms live
      rw [List.flatMap_cons, ← List.append_assoc]
      refine Emits.when (C := P i ∧ ∀ k ∈ j :: is, P k) ?_ (by simp)
      refine (h i (by simp) hN hms live).bind fun v _ => ?_
      exact ih (fun k hk => h k (List.mem_cons_of_mem _ hk)) hN hms live

theorem Lowers.loop (law : D.Lawful) (bool : cx.Declares Builtin.boolName)
    (hl : Lowers D texts C vars L l) (he : Lowers D texts C' vars L' e) :
    Lowers D texts (C ∧ C') vars (L ++ L') (Lowering.loop B cx l e) := by
  intro N ms G F K O H hN hms live
  rw [← List.append_assoc]
  refine (law.newBlock (by decide) (.inl rfl)).lift.then fun header _ => ?_
  refine (law.newBlock (by decide) (.inl rfl)).lift.then fun looping _ => ?_
  refine (law.newBlock (by decide) (.inl rfl)).lift.then fun tail _ => ?_
  refine (law.jump (.inl (by simp))).lift.then fun _ _ => ?_
  refine (law.switchTo (R := [⟨tail, K, none⟩, ⟨looping, K, none⟩])).lift.then fun _ _ => ?_
  refine (hl hN hms live).bind fun p hp => ?_
  refine Emits.known bool fun k _ => ?_
  refine (law.unbox hp).kept.then fun raw _ => ?_
  refine (law.rawWord law.truth).kept.then fun truth _ => ?_
  refine (law.branchRaw (.inl (by simp)) (.inl (by simp))).lift.then fun _ _ => ?_
  refine (law.open [⟨tail, K, none⟩]).then fun _ _ => ?_
  refine (he hN hms live).free fun _ _ => ?_
  refine (law.jump (.inr (List.mem_cons_self ..))).lift.then fun _ _ => ?_
  refine (law.open []).then fun _ _ => ?_
  exact Emits.ret law.void fun s hs => ⟨hs.shows, hs.pooled, law.forget hs.target⟩

theorem Lowers.cond (law : D.Lawful) (bool : cx.Declares Builtin.boolName)
    (hp : Lowers D texts C vars L e) (hl : Lowers D texts C' vars L' l)
    (hr : Lowers D texts C'' vars L'' r) :
    Lowers D texts (C ∧ C' ∧ C'') vars (L ++ L' ++ L'') (Lowering.cond B cx e l r) := by
  intro N ms G F K O H hN hms live
  rw [← List.append_assoc, ← List.append_assoc]
  refine (hp hN hms live).bind fun v hv => ?_
  refine Emits.known bool fun k _ => ?_
  refine (law.unbox hv).kept.then fun raw _ => ?_
  refine (law.rawWord law.truth).kept.then fun truth _ => ?_
  refine (law.newBlock (by decide) (.inl rfl)).lift.then fun yes _ => ?_
  refine (law.newBlock (by decide) (.inl rfl)).lift.then fun no _ => ?_
  refine (law.newBlock (by decide) (.inr rfl)).lift.then fun join _ => ?_
  refine (law.branchRaw (.inl (by simp)) (.inl (by simp))).lift.then fun _ _ => ?_
  refine (law.open [⟨join, K, some []⟩, ⟨no, K, none⟩]).then fun _ _ => ?_
  refine (hl hN hms live).bind fun v _ => ?_
  refine (law.closeArm (R := [])).lift.then fun a _ => ?_
  refine (law.open [⟨join, K, some [a]⟩]).then fun _ _ => ?_
  refine (hr hN hms live).free fun v _ => ?_
  refine (law.closeArm (R := [])).lift.then fun b _ => ?_
  exact (law.merge (R := [])).lift

end Control

end Emission

end ClassBackend
