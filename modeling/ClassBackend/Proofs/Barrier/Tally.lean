import Mathlib.Algebra.BigOperators.Group.List.Basic
import Mathlib.Algebra.GroupWithZero.Nat
import ClassBackend.Proofs.Account.Forms

/-! Counting write barriers. A tally watches the code that emission adds: an operation adds none
that counts, but a store to a field of an object comes with one barrier. What an expression adds is
as many barriers as it has assignments to attributes. -/
namespace ClassBackend

open Lowering

/-- A name that is not bound by a variable in scope, but by an attribute of the class. -/
def ClassLayout.attributeIn (k : ClassLayout) (vars : List String) (name : String) : Bool :=
  !vars.contains name && k.fields.any (·.name == name)

namespace Expr

mutual

/-- The assignments in an expression whose target is an attribute of the class, where these
variables are in scope. -/
def attributeAssigns (k : ClassLayout) (vars : List String) : Expr → Nat
  | .bool .. | .int .. | .str .. | .ident .. | .new .. => 0
  | .binary _ _ lhs rhs => attributeAssigns k vars lhs + attributeAssigns k vars rhs
  | .unary _ _ e => attributeAssigns k vars e
  | .caseOf _ e branches => attributeAssigns k vars e + branchAssigns k vars branches
  | .letIn _ name _ none body => attributeAssigns k (name :: vars) body
  | .letIn _ name _ (some init) body =>
    attributeAssigns k vars init + attributeAssigns k (name :: vars) body
  | .block _ es => allAssigns k vars es
  | .loop _ pred body => attributeAssigns k vars pred + attributeAssigns k vars body
  | .cond _ pred onTrue onFalse => attributeAssigns k vars pred +
    (attributeAssigns k vars onTrue + attributeAssigns k vars onFalse)
  | .dispatch _ recv _ _ args => allAssigns k vars args + attributeAssigns k vars recv
  | .assign _ name e => attributeAssigns k vars e + (k.attributeIn vars name).toNat

def allAssigns (k : ClassLayout) (vars : List String) : List Expr → Nat
  | [] => 0
  | e :: es => attributeAssigns k vars e + allAssigns k vars es

def branchAssigns (k : ClassLayout) (vars : List String) : List (Branch Expr) → Nat
  | [] => 0
  | ⟨name, _, body⟩ :: bs => attributeAssigns k (name :: vars) body + branchAssigns k vars bs

end

end Expr

/-- Code in groups, some of which are the store to a field and its barrier. -/
inductive Grouped {ι : Type} (plain paired : List ι → Prop) : Nat → List ι → Prop
  | nil : Grouped plain paired 0 []
  | plain {n : Nat} {is js : List ι} :
    plain is → Grouped plain paired n js → Grouped plain paired n (is ++ js)
  | paired {n : Nat} {is js : List ι} :
    paired is → Grouped plain paired n js → Grouped plain paired (n + 1) (is ++ js)

namespace Grouped

variable {ι : Type} {plain plain' paired : List ι → Prop} {n m : Nat} {is js : List ι}

theorem append (h : Grouped plain paired n is) (h' : Grouped plain paired m js) :
    Grouped plain paired (n + m) (is ++ js) := by
  induction h with
  | nil => simpa using h'
  | plain group _ ih =>
    rw [List.append_assoc]
    exact .plain group ih
  | @paired n _ _ group _ ih =>
    rw [List.append_assoc, Nat.add_right_comm]
    exact .paired group ih

theorem one_plain (h : plain is) : Grouped plain paired 0 is := by
  rw [← List.append_nil is]
  exact .plain h .nil

theorem one_paired (h : paired is) : Grouped plain paired 1 is := by
  rw [← List.append_nil is]
  exact .paired h .nil

theorem each_plain (h : ∀ i ∈ is, plain [i]) : Grouped plain paired 0 is := by
  induction is with
  | nil => exact .nil
  | cons i is ih =>
    rw [← List.singleton_append]
    exact .plain (h i (by simp)) (ih fun j hj => h j (by simp [hj]))

theorem mono (h : Grouped plain paired n is) (more : ∀ {is}, plain is → plain' is) :
    Grouped plain' paired n is := by
  induction h with
  | nil => exact .nil
  | plain group _ ih => exact .plain (more group) ih
  | paired group _ ih => exact .paired group ih

theorem countP_eq {barrier : ι → Bool} (hplain : ∀ {is}, plain is → is.countP barrier = 0)
    (hpaired : ∀ {is}, paired is → is.countP barrier = 1) (h : Grouped plain paired n is) :
    is.countP barrier = n := by
  induction h with
  | nil => rfl
  | plain group _ ih => rw [List.countP_append, hplain group, ih, Nat.zero_add]
  | paired group _ ih => rw [List.countP_append, hpaired group, ih, Nat.add_comm]

end Grouped

/-- What is watched: the code between two states, with the number of its barriers, and the slots
that the open function has. It may be known of some classes only, and of some fields. -/
structure Tally (B : Backend) where
  adds : Nat → B.State → B.State → Prop
  slot : B.State → B.Local → Prop
  cls : ClassLayout → Prop := fun _ => True
  word : ClassLayout → Prop := fun _ => True
  field : ClassLayout → Nat → Prop := fun _ _ => True

namespace Tally

variable {B : Backend} {α β : Type} (T : Tally B)

/-- An operation that adds no barrier, and no store that needs one. -/
def Free (m : Emit B.State α) : Prop := ∀ s a s', m s = .ok (a, s') → T.adds 0 s s'

structure Lawful : Prop where
  refl : ∀ s, T.adds 0 s s
  trans : ∀ {n m s s' s''}, T.adds n s s' → T.adds m s' s'' → T.adds (n + m) s s''
  kept : ∀ {n s s' a}, T.adds n s s' → T.slot s a → T.slot s' a
  constant : ∀ c, T.Free (B.constant c)
  allocLocal : ∀ {v s a s'}, B.allocLocal v s = .ok (a, s') → T.adds 0 s s' ∧ T.slot s' a
  freeLocal : ∀ a, T.Free (B.freeLocal a)
  loadLocal : ∀ {a v s s'}, T.slot s a → B.loadLocal a s = .ok (v, s') → T.adds 0 s s'
  storeLocal : ∀ {a v s s'}, T.slot s a → B.storeLocal a v s = .ok ((), s') → T.adds 0 s s'
  loadField : ∀ obj {k i}, T.field k i → T.Free (B.loadField obj k i)
  /-- A store to a field of `self` and the barrier behind it. -/
  storeField : ∀ {k i v s s'}, T.field k i → (do B.storeField B.selfObject k i v
                                                 B.writeBarrier B.selfObject k i) s = .ok ((), s') →
    T.adds 1 s s'
  preserve : ∀ v, T.Free (B.preserve v)
  restore : ∀ v, T.Free (B.restore v)
  unbox : ∀ v {k}, T.word k → T.Free (B.unbox v k)
  boxInt : ∀ r {k}, T.word k → T.Free (B.boxInt r k)
  rawWord : ∀ n, T.Free (B.rawWord n)
  arith : ∀ op a b, T.Free (B.arith op a b)
  negate : ∀ a, T.Free (B.negate a)
  loadTag : ∀ v, T.Free (B.loadTag v)
  newBlock : ∀ hint, T.Free (B.newBlock hint)
  switchTo : ∀ b, T.Free (B.switchTo b)
  jump : ∀ b, T.Free (B.jump b)
  branchRaw : ∀ op a b yes no, T.Free (B.branchRaw op a b yes no)
  branchVoid : ∀ v yes no, T.Free (B.branchVoid v yes no)
  branchSame : ∀ v w yes no, T.Free (B.branchSame v w yes no)
  closeArm : ∀ v join, T.Free (B.closeArm v join)
  merge : ∀ arms join, T.Free (B.merge arms join)
  allocate : ∀ {k}, T.cls k → T.Free (B.allocate k)
  callInit : ∀ k v, T.Free (B.callInit k v)
  newSelfType : T.Free B.newSelfType
  callEquality : ∀ v w, T.Free (B.callEquality v w)
  callDirect : ∀ {k : ClassLayout} {m label : String}, k.methodLabel m = .ok label → ∀ recv args,
    T.Free (B.callDirect label recv args)
  callDynamic : ∀ recv k i args, T.Free (B.callDynamic recv k i args)
  abort : ∀ kind file line, T.Free (B.abort kind file line)

/-- What is known of the classes that code in this context has to do with. -/
structure Knows (cx : Context) : Prop where
  found : ∀ {name k}, cx.classes.find name = .ok k → T.cls k
  int : ∀ {k}, cx.classes.find Builtin.intName = .ok k → T.word k
  bool : ∀ {k}, cx.classes.find Builtin.boolName = .ok k → T.word k
  field : ∀ {name slot}, cx.current.fieldSlot name = .ok slot → T.field cx.current slot

/-- Emission that adds so many barriers, where these slots are there. -/
def Adds (n : Nat) (held : List B.Local) (m : Lowering B α) : Prop :=
  ∀ s a s', (∀ x ∈ held, T.slot s.target x) → m s = .ok (a, s') → T.adds n s.target s'.target

variable {T} {n n' : Nat} {held : List B.Local} {m : Lowering B α} {f : α → Lowering B β}
variable {x : Emit B.State α} {cx : Context}

section Rules

theorem Adds.ret (law : T.Lawful) {a : α} : T.Adds 0 held (pure a) := by
  intro s b s' _ run
  obtain ⟨_, rfl⟩ := pure_ok.mp run
  exact law.refl _

theorem Adds.bind (law : T.Lawful) (h : T.Adds n held m) (k : ∀ a, T.Adds n' held (f a)) :
    T.Adds (n + n') held (m >>= f) := by
  intro s b s' there run
  obtain ⟨a, s₁, first, second⟩ := bind_ok.mp run
  have front := h s a s₁ there first
  exact law.trans front (k a s₁ b s' (fun x hx => law.kept front (there x hx)) second)

theorem Adds.op (h : T.Free x) : T.Adds 0 held (target x) := by
  intro s a s' _ run
  obtain ⟨t, op, rfl⟩ := target_ok.mp run
  exact h _ _ _ op

theorem Adds.then (law : T.Lawful) (h : T.Adds 0 held m) (k : ∀ a, T.Adds n held (f a)) :
    T.Adds n held (m >>= f) := by
  have both := h.bind law k
  rwa [Nat.zero_add] at both

theorem Adds.before (law : T.Lawful) (h : T.Adds n held m) (k : ∀ a, T.Adds 0 held (f a)) :
    T.Adds n held (m >>= f) :=
  h.bind law k

theorem Adds.step (law : T.Lawful) (h : T.Free x) {f : α → Lowering B β}
    (k : ∀ a, T.Adds n held (f a)) : T.Adds n held (target x >>= f) :=
  Adds.then law (.op h) k

theorem Adds.found {y : Except Fault α} {f : α → Lowering B β}
    (k : ∀ a, y = .ok a → T.Adds n held (f a)) : T.Adds n held (Lowering.ofExcept y >>= f) := by
  intro s b s' there run
  obtain ⟨a, s₁, first, second⟩ := bind_ok.mp run
  obtain ⟨found, rfl⟩ := ofExcept_ok.mp first
  exact k a found _ b s' there second

theorem Adds.pooled {g : Pool → α × Pool} {f : α → Lowering B β}
    (k : ∀ a, T.Adds n held (f a)) : T.Adds n held (pooled g >>= f) := by
  intro s b s' there run
  obtain ⟨a, s₁, first, second⟩ := bind_ok.mp run
  cases first
  exact k _ ⟨(g s.pool).2, s.names, s.scopes, s.target⟩ b s' there second

end Rules

section Forms

variable {k : Nat} {l r e : Lowering B B.Value} {es : List (Lowering B B.Value)}
variable {u v w : Nat}

theorem literal_adds (law : T.Lawful) (g : Pool → Const × Pool) :
    T.Adds 0 held (do let c ← pooled g; target (B.constant c)) :=
  .pooled fun c => .op (law.constant c)

theorem defaultValue_adds (law : T.Lawful) (ty : String) :
    T.Adds 0 held (defaultValue B ty) := by
  refine .pooled fun c => ?_
  cases c with
  | some c => exact .op (law.constant c)
  | none => exact .ret law

theorem operands_adds (law : T.Lawful) (hl : T.Adds u held l) (hr : T.Adds v held r) :
    T.Adds (u + v) held (operands B l r) :=
  hl.bind law fun x => .step law (law.preserve x) fun y => hr.before law fun _ =>
    .step law (law.restore y) fun _ => .ret law

theorem arithmetic_adds (law : T.Lawful) (knows : T.Knows cx) (op : ArithOp) (hl : T.Adds u held l)
    (hr : T.Adds v held r) : T.Adds (u + v) held (arithmetic B cx op l r) :=
  .found fun _ known => (operands_adds law hl hr).before law fun p =>
    .step law (law.unbox p.1 (knows.int known)) fun a =>
    .step law (law.unbox p.2 (knows.int known)) fun b =>
    .step law (law.arith op a b) fun raw => .op (law.boxInt raw (knows.int known))

theorem boolBlocks_adds (law : T.Lawful) : T.Adds 0 held (boolBlocks B) :=
  .step law (law.newBlock _) fun _ => .step law (law.newBlock _) fun _ => .ret law

theorem selectBool_adds (law : T.Lawful) (yes no : BlockName) :
    T.Adds 0 held (selectBool B yes no) :=
  .step law (law.newBlock _) fun join => .step law (law.switchTo yes) fun _ =>
    .step law (law.constant _) fun t => .step law (law.closeArm t join) fun _ =>
    .step law (law.switchTo no) fun _ => .step law (law.constant _) fun f =>
    .step law (law.closeArm f join) fun _ => .op (law.merge _ join)

theorem comparison_adds (law : T.Lawful) (knows : T.Knows cx) (op : Relop) (hl : T.Adds u held l)
    (hr : T.Adds v held r) : T.Adds (u + v) held (comparison B cx op l r) :=
  .found fun _ known => (operands_adds law hl hr).before law fun p =>
    .step law (law.unbox p.1 (knows.int known)) fun a =>
    .step law (law.unbox p.2 (knows.int known)) fun b =>
    .then law (boolBlocks_adds law) fun q =>
    .step law (law.branchRaw op a b q.1 q.2) fun _ => selectBool_adds law q.1 q.2

theorem equality_adds (law : T.Lawful) (hl : T.Adds u held l) (hr : T.Adds v held r) :
    T.Adds (u + v) held (equality B l r) :=
  (operands_adds law hl hr).before law fun p => .then law (boolBlocks_adds law) fun q =>
    .step law (law.newBlock _) fun slow =>
    .step law (law.branchSame p.1 p.2 q.1 slow) fun _ => .step law (law.switchTo slow) fun _ =>
    .step law (law.callEquality p.1 p.2) fun equal => .step law (law.rawWord 1) fun truth =>
    .step law (law.branchRaw .eq equal truth q.1 q.2) fun _ => selectBool_adds law q.1 q.2

theorem binary_adds (law : T.Lawful) (knows : T.Knows cx) (op : BinOp) (hl : T.Adds u held l)
    (hr : T.Adds v held r) : T.Adds (u + v) held (Lowering.binary B cx op l r) := by
  cases op with
  | plus | minus | mul | div => exact arithmetic_adds law knows _ hl hr
  | lt | le => exact comparison_adds law knows _ hl hr
  | eq => exact equality_adds law hl hr

theorem unary_adds (law : T.Lawful) (knows : T.Knows cx) (op : UnOp) (he : T.Adds u held e) :
    T.Adds u held (Lowering.unary B cx op e) := by
  cases op with
  | isVoid =>
    exact he.before law fun x => .then law (boolBlocks_adds law) fun q =>
      .step law (law.branchVoid x q.1 q.2) fun _ => selectBool_adds law q.1 q.2
  | not =>
    exact he.before law fun x => .found fun _ known =>
      .step law (law.unbox x (knows.bool known)) fun raw =>
      .step law (law.rawWord 0) fun falsity => .then law (boolBlocks_adds law) fun q =>
      .step law (law.branchRaw .eq raw falsity q.1 q.2) fun _ => selectBool_adds law q.1 q.2
  | neg =>
    exact he.before law fun x => .found fun _ known =>
      .step law (law.unbox x (knows.int known)) fun raw =>
      .step law (law.negate raw) fun negated => .op (law.boxInt negated (knows.int known))

theorem newObject_adds (law : T.Lawful) (knows : T.Knows cx) (ty : String) :
    T.Adds 0 held (newObject B cx ty) := by
  unfold newObject
  split
  · exact .op law.newSelfType
  · exact .found fun k known => .step law (law.allocate (knows.found known)) fun obj =>
      .op (law.callInit k obj)

theorem loop_adds (law : T.Lawful) (knows : T.Knows cx) (hp : T.Adds u held l)
    (hb : T.Adds v held e) : T.Adds (u + v) held (Lowering.loop B cx l e) :=
  .step law (law.newBlock _) fun header => .step law (law.newBlock _) fun looping =>
    .step law (law.newBlock _) fun tail => .step law (law.jump header) fun _ =>
    .step law (law.switchTo header) fun _ => hp.bind law fun p => .found fun _ known =>
    .step law (law.unbox p (knows.bool known)) fun raw => .step law (law.rawWord 1) fun truth =>
    .step law (law.branchRaw .eq raw truth looping tail) fun _ =>
    .step law (law.switchTo looping) fun _ => hb.before law fun _ =>
    .step law (law.jump header) fun _ => .step law (law.switchTo tail) fun _ => .ret law

theorem cond_adds (law : T.Lawful) (knows : T.Knows cx) (hp : T.Adds u held l)
    (ht : T.Adds v held r) (hf : T.Adds w held e) :
    T.Adds (u + (v + w)) held (Lowering.cond B cx l r e) :=
  hp.bind law fun p => .found fun _ known =>
    .step law (law.unbox p (knows.bool known)) fun raw => .step law (law.rawWord 1) fun truth =>
      .step law (law.newBlock _) fun yes =>
    .step law (law.newBlock _) fun no => .step law (law.newBlock _) fun join =>
    .step law (law.branchRaw .eq raw truth yes no) fun _ => .step law (law.switchTo yes) fun _ =>
    ht.bind law fun x => .step law (law.closeArm x join) fun _ =>
    .step law (law.switchTo no) fun _ => hf.before law fun y =>
    .step law (law.closeArm y join) fun _ => .op (law.merge _ join)

theorem sequence_adds (law : T.Lawful) {ns : List Nat}
    (h : List.Forall₂ (fun n e => T.Adds n held e) ns es) :
    T.Adds ns.sum held (sequence B es) := by
  induction h with
  | nil => exact .ret law
  | @cons n e ns es first rest ih =>
    cases rest with
    | nil => simpa [Lowering.sequence] using first
    | cons _ _ =>
      rw [List.sum_cons]
      exact first.bind law fun _ => ih

theorem arguments_adds (law : T.Lawful) {ns : List Nat}
    (h : List.Forall₂ (fun n e => T.Adds n held e) ns es) :
    T.Adds ns.sum held (arguments B es) := by
  induction h with
  | nil => exact .ret law
  | cons first _ ih =>
    rw [List.sum_cons]
    exact first.bind law fun x => .step law (law.preserve x) fun _ =>
      ih.before law fun _ => .ret law

theorem dispatch_adds (law : T.Lawful) (line : UInt64) (ty : String) (static : Option String)
    (method : String) {ns : List Nat} (he : T.Adds u held e)
    (h : List.Forall₂ (fun n e => T.Adds n held e) ns es) :
    T.Adds (ns.sum + u) held (Lowering.dispatch B cx line ty e static method es) := by
  refine .pooled fun file => (arguments_adds law h).bind law fun saved => ?_
  refine he.before law fun recv => ?_
  refine .step law (law.newBlock _) fun onVoid => .step law (law.newBlock _) fun call => ?_
  refine .step law (law.branchVoid recv onVoid call) fun _ => ?_
  refine .step law (law.switchTo onVoid) fun _ => .step law (law.abort _ file line) fun _ => ?_
  refine .step law (law.switchTo call) fun _ => ?_
  cases static with
  | some name => exact .found fun k _ => .found fun _ known => .op (law.callDirect known _ _)
  | none => exact .found fun k _ => .found fun slot _ => .op (law.callDynamic _ k slot _)

end Forms

section Names

variable {vars : Resolved.Vars B} {name : String} {e : Lowering B B.Value}

theorem identifier_adds (law : T.Lawful) (knows : T.Knows cx) (hvars : ∀ v ∈ vars, v.2 ∈ held) :
    T.Adds 0 held (Resolved.identifier B cx vars name) := by
  unfold Resolved.identifier
  split
  · exact .ret law
  · refine .found fun b found => ?_
    cases b with
    | field slot => exact .op (law.loadField _ (knows.field (Resolved.fieldSlot_of_resolve found)))
    | stack access =>
      intro s a s' there run
      obtain ⟨t, op, rfl⟩ := target_ok.mp run
      exact law.loadLocal (there access (hvars _ (Resolved.mem_of_resolve found))) op

theorem attributeIn_of_stack {k : ClassLayout} {access : B.Local}
    (h : Resolved.resolve B k vars name = .ok (.stack access)) :
    k.attributeIn (vars.map Prod.fst) name = false := by
  have bound : name ∈ vars.map Prod.fst := List.mem_map.mpr ⟨_, Resolved.mem_of_resolve h, rfl⟩
  simp [ClassLayout.attributeIn, bound]

theorem attributeIn_of_field {k : ClassLayout} {slot : Nat}
    (h : Resolved.resolve B k vars name = .ok (.field slot)) :
    k.attributeIn (vars.map Prod.fst) name = true := by
  unfold Resolved.resolve at h
  split at h
  · cases h
  · split at h
    · cases h
    · rename_i unbound
      have free : name ∉ vars.map Prod.fst := by
        intro mem
        obtain ⟨v, hv, rfl⟩ := List.mem_map.mp mem
        have other := List.lookup_eq_none_iff.mp unbound v hv
        simp at other
      have field : k.fields.any (·.name == name) = true := by
        unfold ClassLayout.fieldSlot at h
        split at h
        · rename_i i found
          obtain ⟨inside, named, _⟩ := List.findIdx?_eq_some_iff_getElem.mp found
          exact List.any_eq_true.mpr ⟨_, List.mem_reverse.mp (List.getElem_mem inside), named⟩
        · cases h
      simp [ClassLayout.attributeIn, free, field]

theorem assign_adds (law : T.Lawful) (knows : T.Knows cx) (hvars : ∀ v ∈ vars, v.2 ∈ held)
    (he : T.Adds n held e) :
    T.Adds (n + (cx.current.attributeIn (vars.map Prod.fst) name).toNat) held
      (Resolved.assign B cx vars name e) := by
  refine he.bind law fun v => .found fun b found => ?_
  cases b with
  | field slot =>
    rw [attributeIn_of_field found]
    intro s a s' _ run
    simp only [bind_ok, pure_ok] at run
    obtain ⟨_, s₁, stored, _, s₂, barred, _, rfl⟩ := run
    obtain ⟨t₁, first, rfl⟩ := target_ok.mp stored
    obtain ⟨t₂, second, rfl⟩ := target_ok.mp barred
    exact law.storeField (knows.field (Resolved.fieldSlot_of_resolve found))
      (bind_ok.mpr ⟨_, t₁, first, second⟩)
  | stack access =>
    rw [attributeIn_of_stack found]
    refine Adds.then law (n := 0) ?_ fun _ => .ret law
    intro s a s' there run
    obtain ⟨t, op, rfl⟩ := target_ok.mp run
    exact law.storeLocal (there access (hvars _ (Resolved.mem_of_resolve found))) op

theorem hold_adds (law : T.Lawful) {v : B.Value} {body : B.Local → Lowering B B.Value}
    (hb : ∀ a, T.Adds n (a :: held) (body a)) : T.Adds n held (Resolved.hold B v body) := by
  intro s x s' there run
  obtain ⟨a, s₁, made, rest⟩ := bind_ok.mp run
  obtain ⟨t, op, rfl⟩ := target_ok.mp made
  obtain ⟨front, slot⟩ := law.allocLocal op
  have inside : ∀ y ∈ a :: held, T.slot t y := by
    rintro y (_ | ⟨_, hy⟩)
    · exact slot
    · exact law.kept front (there y hy)
  have body : T.Adds n (a :: held) (do
      let v ← body a
      target (B.freeLocal a)
      pure v) :=
    (hb a).before law fun _ => .step law (law.freeLocal a) fun _ => .ret law
  have whole := law.trans front (body _ _ _ inside rest)
  rwa [Nat.zero_add] at whole

theorem letIn_adds (law : T.Lawful) {u : Nat} {body : B.Local → Lowering B B.Value}
    (he : T.Adds u held e) (hb : ∀ a, T.Adds n (a :: held) (body a)) :
    T.Adds (u + n) held (Resolved.letIn B e body) :=
  he.bind law fun _ => hold_adds law hb

end Names

section Cases

variable {ε : Type} {e : Lowering B B.Value} {cs : List (ClassLayout × Branch ε)} {ns : List Nat}
variable {enter : B.Value → Branch ε → Lowering B B.Value}

theorem caseArm_adds (law : T.Lawful) {tag : B.Raw} {join : BlockName} {k : ClassLayout}
    (he : T.Adds n held e) : T.Adds n held (Resolved.caseArm B tag join k e) :=
  .step law (law.newBlock _) fun next => .step law (law.newBlock _) fun upper =>
    .step law (law.newBlock _) fun matched => .step law (law.rawWord _) fun lo =>
    .step law (law.branchRaw .lt tag lo next upper) fun _ => .step law (law.switchTo upper) fun _ =>
    .step law (law.rawWord _) fun hi => .step law (law.branchRaw .gt tag hi next matched) fun _ =>
    .step law (law.switchTo matched) fun _ => he.before law fun x =>
    .step law (law.closeArm x join) fun _ => .step law (law.switchTo next) fun _ => .ret law

theorem caseArms_adds (law : T.Lawful) {tag : B.Raw} {join : BlockName} {v : B.Value}
    (h : List.Forall₂ (fun n c => T.Adds n held (enter v c.2)) ns cs) :
    T.Adds ns.sum held (Resolved.caseArms B (enter v) tag join cs) := by
  induction h with
  | nil => exact .ret law
  | cons first _ ih =>
    rw [List.sum_cons]
    exact (caseArm_adds law first).bind law fun _ => ih.before law fun _ => .ret law

theorem branchClasses_adds {bs : List (Branch ε)}
    {f : List (ClassLayout × Branch ε) → Lowering B β}
    (k : ∀ cs, cs.map Prod.snd = bs → T.Adds n held (f cs)) :
    T.Adds n held (Resolved.branchClasses B cx bs >>= f) := by
  induction bs generalizing f with
  | nil =>
    rw [Resolved.branchClasses, pure_bind]
    exact k [] rfl
  | cons b bs ih =>
    simp only [Resolved.branchClasses, bind_assoc, pure_bind]
    refine .found fun c _ => ih fun cs names => k _ ?_
    rw [List.map_cons, names]

theorem caseOf_adds (law : T.Lawful) (line : UInt64) {bs : List (Branch ε)}
    (he : T.Adds n held e)
    (h : ∀ v, List.Forall₂ (fun n b => T.Adds n held (enter v b)) ns bs) :
    T.Adds (n + ns.sum) held (Resolved.caseOf B cx enter line e bs) := by
  refine .pooled fun file => he.bind law fun v => ?_
  refine .step law (law.newBlock _) fun onVoid => .step law (law.newBlock _) fun dispatch => ?_
  refine .step law (law.branchVoid v onVoid dispatch) fun _ => ?_
  refine .step law (law.switchTo onVoid) fun _ => .step law (law.abort _ file line) fun _ => ?_
  refine .step law (law.switchTo dispatch) fun _ => .step law (law.loadTag v) fun tag => ?_
  refine .step law (law.newBlock _) fun join => branchClasses_adds fun cs names => ?_
  have counted : List.Forall₂ (fun c n => T.Adds n held (enter v c.2)) cs ns := by
    have branches := h v
    rw [← names, List.forall₂_map_right_iff] at branches
    exact branches.flip
  obtain ⟨ms, tested, perm⟩ := List.perm_comp_forall₂ (testOrder_perm cs) counted
  rw [← perm.sum_eq]
  exact (caseArms_adds law tested.flip).before law fun arms =>
    .step law (law.abort _ file line) fun _ => .op (law.merge arms join)

end Cases

section Expressions

open ClassBackend.Expr

theorem held_cons {vars : Resolved.Vars B} {name : String} (h : ∀ v ∈ vars, v.2 ∈ held)
    (a : B.Local) : ∀ v ∈ (name, a) :: vars, v.2 ∈ a :: held := by
  rintro v (_ | ⟨_, hv⟩)
  · exact List.mem_cons_self
  · exact List.mem_cons_of_mem _ (h v hv)

theorem allAssigns_eq (k : ClassLayout) (vars : List String) (es : List Expr) :
    allAssigns k vars es = (es.map (attributeAssigns k vars)).sum := by
  induction es with
  | nil => rfl
  | cons e es ih => rw [allAssigns, ih, List.map_cons, List.sum_cons]

theorem branchAssigns_eq (k : ClassLayout) (vars : List String) (bs : List (Branch Expr)) :
    branchAssigns k vars bs = (bs.map fun b => attributeAssigns k (b.name :: vars) b.body).sum := by
  induction bs with
  | nil => rfl
  | cons b bs ih => rw [branchAssigns, ih, List.map_cons, List.sum_cons]

mutual

/-- An expression adds a barrier for each of its assignments to an attribute. -/
theorem lower_adds (law : T.Lawful) (knows : T.Knows cx) {held : List B.Local}
    {vars : Resolved.Vars B}
    (hvars : ∀ v ∈ vars, v.2 ∈ held) (e : Expr) :
    T.Adds (e.attributeAssigns cx.current (vars.map Prod.fst)) held
      (Resolved.lower B cx vars e) := by
  match e with
  | .bool _ b => exact .op (law.constant _)
  | .int _ n => exact literal_adds law _
  | .str _ t => exact literal_adds law _
  | .ident _ name => exact identifier_adds law knows hvars
  | .binary _ op lhs rhs =>
    exact binary_adds law knows op (lower_adds law knows hvars lhs) (lower_adds law knows hvars rhs)
  | .unary _ op e => exact unary_adds law knows op (lower_adds law knows hvars e)
  | .new _ ty => exact newObject_adds law knows ty
  | .caseOf _ e branches =>
    rw [attributeAssigns, branchAssigns_eq]
    exact caseOf_adds law e.line (lower_adds law knows hvars e)
      (lowerBranches_add law knows hvars branches)
  | .letIn _ name ty none body =>
    rw [← Nat.zero_add (attributeAssigns ..)]
    exact letIn_adds law (defaultValue_adds law ty) fun a =>
      lower_adds law knows (held_cons hvars a) body
  | .letIn _ name _ (some init) body =>
    exact letIn_adds law (lower_adds law knows hvars init) fun a =>
      lower_adds law knows (held_cons hvars a) body
  | .block _ es =>
    rw [attributeAssigns, allAssigns_eq]
    exact sequence_adds law (lowerAll_add law knows hvars es)
  | .loop _ pred body =>
    exact loop_adds law knows (lower_adds law knows hvars pred) (lower_adds law knows hvars body)
  | .cond _ pred onTrue onFalse =>
    exact cond_adds law knows (lower_adds law knows hvars pred) (lower_adds law knows hvars onTrue)
      (lower_adds law knows hvars onFalse)
  | .dispatch _ recv static method args =>
    rw [attributeAssigns, allAssigns_eq]
    exact dispatch_adds law recv.line recv.ty static method (lower_adds law knows hvars recv)
      (lowerAll_add law knows hvars args)
  | .assign _ name e => exact assign_adds law knows hvars (lower_adds law knows hvars e)

theorem lowerAll_add (law : T.Lawful) (knows : T.Knows cx) {held : List B.Local}
    {vars : Resolved.Vars B}
    (hvars : ∀ v ∈ vars, v.2 ∈ held) (es : List Expr) :
    List.Forall₂ (fun n e => T.Adds n held e)
      (es.map (attributeAssigns cx.current (vars.map Prod.fst)))
      (Resolved.lowerAll B cx vars es) := by
  match es with
  | [] => exact .nil
  | e :: es => exact .cons (lower_adds law knows hvars e) (lowerAll_add law knows hvars es)

theorem lowerBranches_add (law : T.Lawful) (knows : T.Knows cx) {held : List B.Local}
    {vars : Resolved.Vars B}
    (hvars : ∀ v ∈ vars, v.2 ∈ held) (bs : List (Branch Expr)) (v : B.Value) :
    List.Forall₂ (fun n b => T.Adds n held (Resolved.enter B v b))
      (bs.map fun b => attributeAssigns cx.current (b.name :: vars.map Prod.fst) b.body)
      (Resolved.lowerBranches B cx vars bs) := by
  match bs with
  | [] => exact .nil
  | ⟨name, ty, body⟩ :: bs =>
    refine .cons (hold_adds law fun a => ?_) (lowerBranches_add law knows hvars bs v)
    exact lower_adds law knows (held_cons hvars a) body

end

end Expressions

end Tally

end ClassBackend
