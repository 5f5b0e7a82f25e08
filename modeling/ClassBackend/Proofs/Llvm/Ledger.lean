import ClassBackend.Llvm.Target
import ClassBackend.Proofs.Account.Judgement
import ClassBackend.Proofs.Llvm.Dominance

/-! Accounts of the native backend. There every operation is a row of instructions, so that it is
enough to know what an instruction may read, and what is known after it. -/
namespace ClassBackend.Llvm

open Lowering

namespace Rhs

def structs : Rhs → List String
  | .element s _ _ | .row s _ _ => [s]
  | _ => []

end Rhs

def Instr.structs : Instr → List String
  | .assign _ rhs => rhs.structs
  | _ => []

/-- An account in which all that code reads is kept alike. -/
structure Ledger where
  World : Type
  le : World → World → Prop
  later : World → World → Prop
  idle : List String → Pool → State → Prop
  inside : World → Pool → State → Prop
  shut : World → Pool → State → Prop
  frame : World → List String → Nat → Prop
  const : World → Const → Prop
  has : World → Operand → Prop
  struct : String → Prop
  entered : World → BlockName → World → Prop
  arm : World → BlockName → Operand × Label → Prop
  cls : ClassLayout → Prop
  label : String → Prop

namespace Ledger

@[reducible] def account (G : Ledger) : Account backend where
  World := G.World
  le := G.le
  later := G.later
  idle := G.idle
  inside := G.inside
  shut := G.shut
  frame := G.frame
  const := G.const
  value := G.has
  raw := G.has
  slot := G.has
  saved := G.has
  entered := G.entered
  arm := G.arm
  cls := G.cls
  label := G.label

structure Reads (G : Ledger) : Prop where
  self : ∀ {w}, G.has w .self
  null : ∀ {w}, G.has w .null
  int : ∀ {w n}, G.has w (.int n)
  literal : ∀ {w c}, G.const w c → G.has w (.const c)
  bool : ∀ {w b}, G.const w (.bool b)
  routine : ∀ {w} (r : Routine), G.has w (.symbol r.symbol)
  objects : ∀ {w}, G.has w (.symbol Linkage.classObjects)
  table : ∀ {w k}, G.cls k → G.has w (.symbol (Linkage.dispatchTable k.name))
  initializer : ∀ {w k}, G.cls k → G.has w (.symbol (Linkage.initializer k.name))
  method : ∀ {w l}, G.label l → G.has w (.symbol l)
  own : ∀ {k}, G.cls k → G.struct k.name
  header : G.struct Builtin.objectName
  row : G.struct classObject

/-- What the instructions may be, and where they lead. -/
structure Steps (G : Ledger) : Prop where
  pool : ∀ {w p q s}, G.inside w p s → PoolLe p q → (p.Measured → q.Measured) →
    ∃ w', G.le w w' ∧ G.inside w' q s ∧ ∀ c l, Denotes q c l → G.const w' c
  emit : ∀ {w i}, (∀ v ∈ i.operands, G.has w v) → (∀ s ∈ i.structs, G.struct s) →
    i.result? = none → i.incoming = [] → i.targets = [] →
    G.account.Keeps w (Gen.emit i) G.account.whatever
  assign : ∀ {w rhs}, (∀ v ∈ rhs.operands, G.has w v) → (∀ s ∈ rhs.structs, G.struct s) →
    (∀ t, (Instr.assign t rhs).incoming = []) → G.account.Keeps w (Gen.assign rhs) G.has
  slotFor : ∀ {w v}, G.has w v → G.account.Keeps w (Gen.slotFor v) G.has
  terminate : ∀ {w i}, (∀ v ∈ i.operands, G.has w v) → i.structs = [] → i.result? = none →
    i.incoming = [] →
    (∀ l ∈ i.targets, ∃ b u, l = .block b ∧ G.entered w b u ∧ G.le u w) →
    G.account.Shuts w (Gen.terminate i) G.account.whatever

/-- Names of blocks, their places, and the arms that meet at a join. -/
structure Joins (G : Ledger) : Prop where
  newBlock : ∀ {w u hint}, hint ∈ blockHints → G.le u w →
    G.account.Keeps w (Gen.newBlock hint) fun w' b => G.entered w' b u
  nextBlock : ∀ {w u hint p s b s'}, hint ∈ blockHints → G.le u w → G.shut w p s →
    Gen.newBlock hint s = .ok (b, s') → ∃ w', G.le w w' ∧ G.shut w' p s' ∧ G.entered w' b u
  switchTo : ∀ {w u b}, G.entered w b u →
    G.account.Opens w u (Gen.switchTo b) G.account.whatever
  closeArm : ∀ {w u v join}, G.has w v → G.entered w join u → G.le u w →
    G.account.Shuts w (Gen.closeArm v join) fun w' a => G.arm w' join a
  merge : ∀ {w u arms join}, G.entered w join u → (∀ a ∈ arms, G.arm w join a) →
    G.account.Opens w u (Gen.merge arms join) G.has

structure Balanced (G : Ledger) : Prop extends G.account.Ordered, G.Reads, G.Steps, G.Joins

variable {G : Ledger} {w : G.World} {obj a c v : Operand} {k : ClassLayout}

section Addresses

theorem fieldAddress_keeps (law : G.Balanced) (slot : Nat) (hobj : G.has w obj) (hk : G.cls k) :
    G.account.Keeps w (Gen.fieldAddress obj k slot) G.has := by
  unfold Gen.fieldAddress
  cases fieldIndex slot with
  | ok index =>
    exact law.assign (by simpa [Rhs.operands] using hobj) (by simpa [Rhs.structs] using law.own hk)
      fun _ => rfl
  | error f => exact fun _ _ _ _ _ run => nomatch run

theorem headerAddress_keeps (law : G.Balanced) (index : Nat) (hobj : G.has w obj) :
    G.account.Keeps w (Gen.headerAddress obj index) G.has :=
  law.assign (by simpa [Rhs.operands] using hobj) (by simpa [Rhs.structs] using law.header)
    fun _ => rfl

theorem store_keeps (law : G.Balanced) {ty : Ty} (hv : G.has w v) (ha : G.has w a) :
    G.account.Keeps w (Gen.emit (.store ty v a)) G.account.whatever :=
  law.emit (by simp [Instr.operands, hv, ha]) (by simp [Instr.structs]) rfl rfl rfl

theorem load_keeps (law : G.Balanced) {ty : Ty} (ha : G.has w a) :
    G.account.Keeps w (Gen.assign (.load ty a)) G.has :=
  law.assign (by simpa [Rhs.operands] using ha) (by simp [Rhs.structs]) fun _ => rfl

theorem loadTag_keeps (law : G.Balanced) (hobj : G.has w obj) :
    G.account.Keeps w (Gen.loadTag obj) G.has :=
  (headerAddress_keeps law 0 hobj).bind law.toOrdered fun _ _ _ => load_keeps law

theorem storeField_keeps (law : G.Balanced) (slot : Nat) (hobj : G.has w obj) (hk : G.cls k)
    (hv : G.has w v) :
    G.account.Keeps w (Gen.storeField obj k slot v) G.account.whatever :=
  (fieldAddress_keeps law slot hobj hk).bind law.toOrdered fun _ _ grown hp =>
    store_keeps law (law.value grown hv) hp

end Addresses

theorem arith_keeps (law : G.Balanced) (op : ArithOp) (ha : G.has w a) (hc : G.has w c) :
    G.account.Keeps w (Gen.arith op a c) G.has :=
  law.assign (by simp [Rhs.operands, ha, hc]) (by simp [Rhs.structs]) fun _ => rfl

section Calls

theorem call_keeps (law : G.Balanced) {ty : Ty} {callee : Operand} {args : List (Ty × Operand)}
    (hcallee : G.has w callee) (hargs : ∀ a ∈ args, G.has w a.2) :
    G.account.Keeps w (Gen.assign (.call ty callee args)) G.has := by
  refine law.assign ?_ (by simp [Rhs.structs]) fun _ => rfl
  simp only [Rhs.operands, List.mem_cons, List.mem_map, forall_eq_or_imp]
  refine ⟨hcallee, ?_⟩
  rintro _ ⟨a, ha, rfl⟩
  exact hargs a ha

theorem objects_known {vs : List Operand} (h : ∀ v ∈ vs, G.has w v) :
    ∀ a ∈ Gen.objects vs, G.has w a.2 := by
  intro a ha
  obtain ⟨v, hv, rfl⟩ := List.mem_map.mp ha
  exact h v hv

theorem header_known (law : G.Balanced) (hk : G.cls k) : ∀ a ∈ Module.header k, G.has w a.2 := by
  intro a ha
  simp only [Module.header, List.mem_cons, List.not_mem_nil, or_false] at ha
  rcases ha with rfl | rfl | rfl
  · exact law.int
  · exact law.int
  · exact law.table hk

theorem allocate_keeps (law : G.Balanced) (hk : G.cls k) :
    G.account.Keeps w (Gen.allocate k) G.has :=
  call_keeps law (law.routine .gcAlloc) (header_known law hk)

theorem callEquality_keeps (law : G.Balanced) (ha : G.has w a) (hc : G.has w c) :
    G.account.Keeps w (Gen.callEquality a c) G.has :=
  call_keeps law (law.routine .equals) (objects_known (by simp [ha, hc]))

theorem boxInt_keeps (law : G.Balanced) (ha : G.has w a) (hk : G.cls k) :
    G.account.Keeps w (Gen.boxInt a k) G.has := by
  refine (allocate_keeps law hk).bind law.toOrdered fun obj w₁ g₁ hobj => ?_
  refine (fieldAddress_keeps law _ hobj hk).bind law.toOrdered fun p w₂ g₂ hp => ?_
  refine (store_keeps law (law.value (law.trans g₁ g₂) ha) hp).bind law.toOrdered
    fun _ w₃ g₃ _ => ?_
  exact .ret law.toOrdered (law.value (law.trans g₂ g₃) hobj)

theorem classElement_keeps (law : G.Balanced) {row : Operand} (index : Nat) (ty : Ty)
    (h : G.has w row) : G.account.Keeps w (Gen.classElement row index ty) G.has := by
  have address : G.account.Keeps w (Gen.assign (.element classObject row index)) G.has :=
    law.assign (by simpa [Rhs.operands] using h) (by simpa [Rhs.structs] using law.row) fun _ => rfl
  exact address.bind law.toOrdered fun _ _ _ => load_keeps law

theorem newSelfType_keeps (law : G.Balanced) : G.account.Keeps w Gen.newSelfType G.has := by
  refine (loadTag_keeps law law.self).bind law.toOrdered fun tag w₁ _ htag => ?_
  have entry : G.account.Keeps w₁ (Gen.assign (.row classObject (.symbol Linkage.classObjects) tag))
      G.has := law.assign (by simp [Rhs.operands, law.objects, htag])
    (by simpa [Rhs.structs] using law.row) fun _ => rfl
  refine entry.bind law.toOrdered fun row w₂ g₂ hrow => ?_
  refine (classElement_keeps law 1 .i64 hrow).bind law.toOrdered fun size w₃ g₃ hsize => ?_
  refine (classElement_keeps law 2 .ptr (law.value g₃ hrow)).bind law.toOrdered
    fun table w₄ g₄ htable => ?_
  refine (classElement_keeps law 3 .ptr (law.value (law.trans g₃ g₄) hrow)).bind law.toOrdered
    fun init w₅ g₅ hinit => ?_
  have allocation : G.account.Keeps w₅ (Gen.assign (.call .ptr (.symbol Routine.gcAlloc.symbol)
      [(.i64, tag), (.i64, size), (.ptr, table)])) G.has := by
    refine call_keeps law (law.routine .gcAlloc) ?_
    simp only [List.mem_cons, List.not_mem_nil, or_false, forall_eq_or_imp, forall_eq]
    have later := law.trans g₄ g₅
    exact ⟨law.value (law.trans g₂ (law.trans g₃ later)) htag, law.value later hsize,
      law.value g₅ htable⟩
  refine allocation.bind law.toOrdered fun obj w₆ g₆ hobj => ?_
  exact call_keeps law (law.value g₆ hinit) (objects_known (by simpa using hobj))

theorem callDynamic_keeps (law : G.Balanced) {recv : Operand} (i : Nat) {args : List Operand}
    (hrecv : G.has w recv) (hargs : ∀ a ∈ args, G.has w a) :
    G.account.Keeps w (Gen.callDynamic recv i args) G.has := by
  refine (headerAddress_keeps law 2 hrecv).bind law.toOrdered fun p w₁ g₁ hp => ?_
  refine (load_keeps law hp).bind law.toOrdered fun table w₂ g₂ htable => ?_
  have entry : G.account.Keeps w₂ (Gen.assign (.entry table i)) G.has :=
    law.assign (by simpa [Rhs.operands] using htable) (by simp [Rhs.structs]) fun _ => rfl
  refine entry.bind law.toOrdered fun q w₃ g₃ hq => ?_
  refine (load_keeps law hq).bind law.toOrdered fun method w₄ g₄ hmethod => ?_
  have grown := law.trans g₁ (law.trans g₂ (law.trans g₃ g₄))
  refine call_keeps law hmethod (objects_known ?_)
  simp only [List.mem_cons, forall_eq_or_imp]
  exact ⟨law.value grown hrecv, fun s hs => law.value grown (hargs s hs)⟩

theorem branchOn_shuts (law : G.Balanced) {u u' : G.World} {op : Relop} {ty : Ty}
    {yes no : BlockName} (ha : G.has w a) (hc : G.has w c) (hyes : G.entered w yes u)
    (hu : G.le u w) (hno : G.entered w no u') (hu' : G.le u' w) :
    G.account.Shuts w (Gen.branchOn op ty a c yes no) G.account.whatever := by
  have compare : G.account.Keeps w (Gen.assign (.compare op ty a c)) G.has :=
    law.assign (by simp [Rhs.operands, ha, hc]) (by simp [Rhs.structs]) fun _ => rfl
  refine compare.shuts law.toOrdered fun t w₁ g₁ ht => ?_
  refine law.terminate (by simpa [Instr.operands] using ht) rfl rfl rfl fun l hl => ?_
  rcases List.mem_cons.mp hl with rfl | hl
  · exact ⟨yes, u, rfl, law.entered (law.later g₁) hyes, law.trans hu g₁⟩
  · rw [List.mem_singleton.mp hl]
    exact ⟨no, u', rfl, law.entered (law.later g₁) hno, law.trans hu' g₁⟩

theorem jump_shuts (law : G.Balanced) {u : G.World} {b : BlockName} (hb : G.entered w b u)
    (known : G.le u w) : G.account.Shuts w (Gen.jump b) G.account.whatever :=
  law.terminate (by simp [Instr.operands]) rfl rfl rfl fun l hl =>
    ⟨b, u, List.mem_singleton.mp hl, hb, known⟩

end Calls

section Laws

theorem Balanced.storage (law : G.Balanced) : G.account.Storage where
  self := law.self
  void := law.null
  bool := law.bool
  pool there grown measured _ := law.pool there grown measured
  constant hc := .ret law.toOrdered (law.literal hc)
  allocLocal := law.slotFor
  freeLocal _ := .ret law.toOrdered trivial
  loadLocal := load_keeps law
  storeLocal ha hv := store_keeps law hv ha
  loadField hobj hk :=
    (fieldAddress_keeps law _ hobj hk).bind law.toOrdered fun _ _ _ => load_keeps law
  storeField := storeField_keeps law _
  storeNative {w obj k i n} hobj hk := by
    refine (fieldAddress_keeps law i hobj hk).bind law.toOrdered fun p w' _ hp => ?_
    cases n with
    | int | bool => exact store_keeps law law.int hp
    | string => exact store_keeps law law.null hp
  writeBarrier hobj hk := (fieldAddress_keeps law _ hobj hk).bind law.toOrdered fun _ _ _ hp =>
    law.emit (by simp [Instr.operands, Gen.objects, law.routine, hp]) (by simp [Instr.structs])
      rfl rfl rfl
  preserve hv := .ret law.toOrdered hv
  restore hs := .ret law.toOrdered hs

theorem Balanced.words (law : G.Balanced) : G.account.Words where
  unbox hv hk := (fieldAddress_keeps law _ hv hk).bind law.toOrdered fun _ _ _ => load_keeps law
  boxInt := boxInt_keeps law
  rawWord := .ret law.toOrdered law.int
  arith := arith_keeps law _
  negate := arith_keeps law .sub law.int
  loadTag := loadTag_keeps law

theorem Balanced.blocks (law : G.Balanced) : G.account.Blocks where
  newBlock := law.newBlock
  nextBlock := law.nextBlock
  switchTo := law.switchTo
  jump := jump_shuts law
  branchRaw := branchOn_shuts law
  branchVoid hv := branchOn_shuts law hv law.null
  branchSame := branchOn_shuts law
  closeArm := law.closeArm
  merge := law.merge
  abort {w kind file line} hfile := by
    refine (law.emit ?_ (by simp [Instr.structs]) rfl rfl rfl).shuts law.toOrdered fun _ _ _ _ => ?_
    · simp [Instr.operands, law.routine, law.int, law.literal hfile]
    · exact law.terminate (by simp [Instr.operands]) rfl rfl rfl (by simp [Instr.targets])

theorem Balanced.calls (law : G.Balanced) : G.account.Calls where
  allocate := allocate_keeps law
  callInit hk hv := call_keeps law (law.initializer hk) (objects_known (by simpa using hv))
  newSelfType := newSelfType_keeps law
  callEquality := callEquality_keeps law
  callDirect hl hrecv hargs :=
    call_keeps law (law.method hl) (objects_known (by simpa using ⟨hrecv, hargs⟩))
  callDynamic hrecv _ hargs := callDynamic_keeps law _ hrecv hargs

theorem Balanced.lawful (law : G.Balanced) : G.account.Lawful where
  toOrdered := law.toOrdered
  toStorage := law.storage
  toWords := law.words
  toBlocks := law.blocks
  toCalls := law.calls

end Laws

end Ledger

end ClassBackend.Llvm
