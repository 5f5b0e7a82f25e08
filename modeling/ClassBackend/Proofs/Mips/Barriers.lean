import ClassBackend.Proofs.Barrier.Sources
import ClassBackend.Proofs.Mips.Transcript

/-! Write barriers in MIPS code. Behind the head of a function, stores go to the stack, put the word
of a new Int in place, or stand before their barrier. -/
namespace ClassBackend.Mips

open Lowering

/-- No store but to the stack, and no call of the write barrier. -/
def Instr.quiet : Instr → Bool
  | .sw _ _ base => base = .sp || base = .fp
  | .jal s => s ≠ Routine.gcAssign.symbol
  | _ => true

def Instr.barrier (i : Instr) : Bool := i = .jal Routine.gcAssign.symbol

inductive Unguarded : List Instr → Prop
  | quiet {i : Instr} : i.quiet = true → Unguarded [i]
  | boxed (raw : Operand) (prototype : String) (off : Int) :
    Unguarded (carryCode raw ++ [.la .a0 prototype, .jal Routine.objectCopy.symbol,
      .sw .t5 off .a0])

def Guarded (is : List Instr) : Prop := ∃ v slot off, fieldOffset slot = .ok off ∧
  is = [.sw v off .s0, .addiu .a1 .s0 off, .jal Routine.gcAssign.symbol]

def DefaultStore (slot : Nat) (is : List Instr) : Prop := ∃ off, fieldOffset slot = .ok off ∧
  (is = [.sw .zero off .s0] ∨ ∃ c : Const, is = [.la .a0 c.label, .sw .a0 off .s0])

/-- The code between two states has so many barriers. -/
def Barred (n : Nat) (s s' : State) : Prop :=
  ∃ is, s'.code.toList = s.code.toList ++ is ∧ Grouped Unguarded Guarded n is

def watch : Watch backend (List Instr) Instr where
  adds := Barred
  slot _ _ := True
  idle := transcript.idle
  begun := transcript.inside
  inside fs head n s := ∃ is, transcript.inside fs (head ++ is) s ∧ Grouped Unguarded Guarded n is
  opening label _ := .label (.symbol label) :: Frame.prologue
  default _ := DefaultStore
  closed head n f := ∃ is, f = head ++ is ∧ Grouped Unguarded Guarded n is

variable {α β : Type} {m : Asm α} {i : Instr} {is : List Instr} {s s' t : State} {v : Reg}

section Operations

theorem Barred.refl (s : State) : Barred 0 s s := ⟨[], by simp, .nil⟩

theorem Barred.trans {n k : Nat} (h : Barred n s t) (h' : Barred k t s') : Barred (n + k) s s' := by
  obtain ⟨is, code, groups⟩ := h
  obtain ⟨js, code', groups'⟩ := h'
  exact ⟨is ++ js, by rw [code', code, List.append_assoc], groups.append groups'⟩

theorem barred_add {n : Nat} (h : Grouped Unguarded Guarded n is) : Barred n s (s.add is) :=
  ⟨is, State.add_code .., h⟩

theorem quiet_add (same : t.code = s.code) (h : is.all Instr.quiet = true) :
    Barred 0 s (t.add is) :=
  ⟨is, by rw [State.add_code, same],
    .each_plain fun i hi => .quiet (List.all_eq_true.mp h i hi)⟩

theorem quiet_same (same : t.code = s.code) : Barred 0 s t := by
  rw [← t.add_nil]
  exact quiet_add same rfl

theorem intoAcc_quiet (v : Reg) : (intoAccCode v).all Instr.quiet = true := by
  unfold intoAccCode
  split <;> rfl

theorem inReg_code {a : Operand} {q : Reg} (h : Asm.inReg a s = .ok (q, t)) :
    ∃ (u : State) (is : List Instr), u.code = s.code ∧ is.all Instr.quiet = true ∧
      t = u.add is := by
  obtain ⟨_, rfl⟩ | ⟨n, _, _, rfl⟩ := inReg_ok.mp h
  · exact ⟨t, [], rfl, rfl, t.add_nil.symm⟩
  · exact ⟨s.drawn, _, rfl, rfl, rfl⟩

theorem inReg_quiet {a : Operand} {q : Reg} (h : Asm.inReg a s = .ok (q, t)) : Barred 0 s t := by
  obtain ⟨u, is, same, quiet, rfl⟩ := inReg_code h
  exact quiet_add same quiet

theorem abort_unlike (kind : AbortKind) :
    (Routine.ofAbort kind).symbol ≠ Routine.gcAssign.symbol := by
  cases kind <;> decide

end Operations

theorem push_quiet {r : Reg} {slot : Int} (h : Asm.push r s = .ok (slot, s')) : Barred 0 s s' := by
  obtain ⟨f, _, _, _, rfl⟩ := push_ok h
  exact quiet_add rfl rfl

theorem branch_quiet {op : Relop} {a b : Operand} {yes no : BlockName} {u : Unit}
    (h : Asm.branchRaw op a b yes no s = .ok (u, s')) : Barred 0 s s' := by
  obtain ⟨q, mid, first, rfl⟩ := branchRaw_ok h
  have front := inReg_quiet first
  exact front.trans (quiet_add rfl rfl)

/-- The operation adds quiet code. -/
def Quiet (m : Asm α) : Prop := ∀ s a s', m s = .ok (a, s') → Barred 0 s s'

section Quiet

variable {k : ClassLayout}

theorem Quiet.emit (h : i.quiet = true) : Quiet (Asm.emit i) := by
  intro s a s' run
  rw [emit_ok.mp run]
  exact quiet_add rfl (by simpa using h)

theorem Quiet.emitted (h : i.quiet = true) (a : α) : Quiet (Asm.emit i >>= fun _ => pure a) := by
  intro s b s' run
  obtain ⟨_, s₁, first, rest⟩ := bind_ok.mp run
  obtain ⟨_, rfl⟩ := pure_ok.mp rest
  exact Quiet.emit h _ _ _ first

theorem arith_quiet (op : ArithOp) (a b : Operand) : Quiet (Asm.arith op a b) := by
  intro s w s' run
  obtain ⟨q, mid, first, _, rfl⟩ := arith_ok run
  have front := inReg_quiet first
  exact front.trans (quiet_add rfl rfl)

theorem negate_quiet (a : Operand) : Quiet (Asm.negate a) := by
  intro s w s' run
  obtain ⟨q, mid, first, _, rfl⟩ := negate_ok run
  have front := inReg_quiet first
  exact front.trans (quiet_add rfl rfl)

theorem closeArm_quiet (v : Reg) (join : BlockName) : Quiet (Asm.closeArm v join) := by
  intro s a s' run
  rw [closeArm_ok run]
  exact quiet_add rfl (by simp [List.all_append, intoAcc_quiet, Instr.quiet])

theorem callInit_quiet (k : ClassLayout) (v : Reg) : Quiet (Asm.callInit k v) := by
  intro s w s' run
  obtain ⟨_, rfl⟩ := callInit_ok run
  have unlike : Linkage.initializer k.name ≠ Routine.gcAssign.symbol :=
    initializer_unlike _ (by decide)
  exact quiet_add rfl (by simp [List.all_append, intoAcc_quiet, Instr.quiet, unlike])

theorem newSelfType_quiet : Quiet Asm.newSelfType := by
  intro s v s' run
  obtain ⟨_, f, _, _, rfl⟩ := newSelfType_ok run
  exact quiet_add rfl rfl

theorem callEquality_quiet (v w : Reg) : Quiet (Asm.callEquality v w) := by
  intro s a s' run
  obtain ⟨_, _, off, _, rfl⟩ := callEquality_ok run
  refine quiet_add rfl ?_
  split <;> split <;> rfl

theorem callDirect_quiet {m label : String} (known : k.methodLabel m = .ok label) (recv : Reg)
    (args : List Int) : Quiet (Asm.callDirect label recv args) := by
  intro s v s' run
  obtain ⟨_, f, _, _, rfl⟩ := callDirect_ok run
  have unlike := methodLabel_unlike known (show '.' ∉ Routine.gcAssign.symbol.toList by decide)
  exact quiet_add rfl (by simp [List.all_append, intoAcc_quiet, Instr.quiet, unlike])

theorem callDynamic_quiet (recv : Reg) (n : Nat) (args : List Int) :
    Quiet (Asm.callDynamic recv n args) := by
  intro s v s' run
  obtain ⟨_, f, _, _, rfl⟩ := callDynamic_ok run
  exact quiet_add rfl (by simp [List.all_append, intoAcc_quiet, Instr.quiet])

end Quiet

theorem watch_tally : watch.toTally.Lawful where
  refl := .refl
  trans := .trans
  kept _ _ := trivial
  constant _ := Quiet.emitted rfl _
  allocLocal run := ⟨push_quiet run, trivial⟩
  freeLocal a s u s' run := by
    obtain ⟨f, _, _, _, rfl⟩ := discard_ok run
    exact quiet_add rfl rfl
  loadLocal _ run := Quiet.emitted rfl _ _ _ _ run
  storeLocal _ run := Quiet.emit rfl _ _ _ run
  loadField obj _ _ _ s v s' run := by
    obtain ⟨_, off, _, rfl⟩ := loadField_ok run
    exact quiet_add rfl rfl
  storeField _ run := by
    obtain ⟨_, s₁, stored, barred⟩ := bind_ok.mp run
    obtain ⟨off, known, rfl⟩ := storeField_ok stored
    obtain ⟨off', known', rfl⟩ := writeBarrier_ok barred
    cases known.symm.trans known'
    rw [State.add_add]
    exact barred_add (.one_paired ⟨_, _, off, known, rfl⟩)
  preserve v s a s' run := push_quiet run
  restore v s a s' run := by
    obtain ⟨_, s₁, popped, rest⟩ := bind_ok.mp run
    obtain ⟨rfl, rfl⟩ := pure_ok.mp rest
    obtain ⟨f, _, _, _, rfl⟩ := pop_ok popped
    exact quiet_add rfl rfl
  unbox v _ _ s a s' run := by
    obtain ⟨_, off, _, rfl⟩ := unbox_ok run
    exact quiet_add rfl rfl
  boxInt r _ _ s v s' run := by
    obtain ⟨_, off, _, rfl⟩ := boxInt_ok run
    exact barred_add (.one_plain (.boxed r _ off))
  rawWord n s a s' run := by
    obtain ⟨_, rfl⟩ := asm_ofExcept_ok.mp run
    exact .refl _
  arith := arith_quiet
  negate := negate_quiet
  loadTag v s w s' run := by
    obtain ⟨_, rfl⟩ := loadTag_ok run
    exact quiet_add rfl rfl
  newBlock hint s b s' run := by
    cases run
    exact quiet_same rfl
  switchTo _ := Quiet.emit rfl
  jump _ := Quiet.emit rfl
  branchRaw _ _ _ _ _ _ _ _ run := branch_quiet run
  branchVoid _ _ _ _ _ _ run := branch_quiet run
  branchSame _ _ _ _ _ _ _ run := branch_quiet run
  closeArm := closeArm_quiet
  merge arms join s v s' run := by
    obtain ⟨_, rfl⟩ := merge_ok run
    exact quiet_add rfl rfl
  allocate _ s v s' run := by
    obtain ⟨_, rfl⟩ := allocate_ok run
    exact quiet_add rfl rfl
  callInit := callInit_quiet
  newSelfType := newSelfType_quiet
  callEquality := callEquality_quiet
  callDirect := callDirect_quiet
  callDynamic recv _ n args := callDynamic_quiet recv n args
  abort kind file line s u s' run := by
    rw [abort_ok run]
    exact quiet_add rfl (by simp [Instr.quiet, abort_unlike])

theorem watch_lawful : watch.Lawful where
  toLawful := watch_tally
  knows := ⟨fun _ => trivial, fun _ => trivial, fun _ => trivial, fun _ => trivial⟩
  field := trivial
  start := rfl
  begin_ there run := beginFunction_adds there run
  native there run := by
    obtain ⟨off, known, rfl⟩ := storeField_ok run
    exact ⟨_, inside_add there (State.add_code ..), off, known, .inl rfl⟩
  object there run := by
    obtain ⟨v, s₁, loaded, stored⟩ := bind_ok.mp run
    obtain ⟨_, s₂, emitted, rest⟩ := bind_ok.mp loaded
    obtain ⟨rfl, rfl⟩ := pure_ok.mp rest
    obtain ⟨off, known, rfl⟩ := storeField_ok stored
    rw [emit_ok.mp emitted, State.add_add]
    exact ⟨_, inside_add there (State.add_code ..), off, known, .inr ⟨_, rfl⟩⟩
  void there run := by
    obtain ⟨off, known, rfl⟩ := storeField_ok run
    exact ⟨_, inside_add there (State.add_code ..), off, known, .inl rfl⟩
  begun_inside there := ⟨[], by rwa [List.append_nil], .nil⟩
  inside_adds there more := by
    obtain ⟨is, there, groups⟩ := there
    obtain ⟨js, code, groups'⟩ := more
    refine ⟨is ++ js, ?_, groups.append groups'⟩
    rw [← List.append_assoc]
    exact inside_add there code
  formal run := by
    obtain ⟨f, s₁, read, found⟩ := bind_ok.mp run
    obtain ⟨_, rfl⟩ := frame_ok.mp read
    obtain ⟨_, rfl⟩ := asm_ofExcept_ok.mp found
    exact ⟨.refl _, trivial⟩
  end_ there run := by
    obtain ⟨is, there, groups⟩ := there
    obtain ⟨popped, _, there'⟩ := endFunction_adds there run
    refine ⟨_, there', _, List.append_assoc .., ?_⟩
    refine groups.append (.each_plain fun i hi => .quiet (List.all_eq_true.mp ?_ i hi))
    simp [List.all_append, intoAcc_quiet, Instr.quiet]

section Functions

/-- A function of MIPS code guards its fields: it has its head, where each default is stored once,
and behind it a barrier for each object put in a field, and nowhere else. -/
structure GuardsFields (src : Source) (f : List Instr) : Prop where
  code : ∃ defaults body, f = .label (.symbol src.label) :: Frame.prologue ++
      List.flatten defaults ++ body ∧
    List.Forall₂ DefaultStore src.fills defaults ∧
    Grouped Unguarded Guarded (src.assigns + src.inits) body
  barriers : f.countP Instr.barrier = src.assigns + src.inits

theorem carryCode_barrier (a : Operand) : (carryCode a).countP Instr.barrier = 0 := by
  unfold carryCode
  split <;> rfl

theorem Unguarded.barrier (h : Unguarded is) : is.countP Instr.barrier = 0 := by
  cases h with
  | @quiet i quiet =>
    cases i with
    | jal s => simpa [Instr.quiet, Instr.barrier] using quiet
    | _ => rfl
  | boxed raw prototype off =>
    rw [List.countP_append, carryCode_barrier]
    rfl

theorem Guarded.barrier (h : Guarded is) : is.countP Instr.barrier = 1 := by
  obtain ⟨v, slot, off, _, rfl⟩ := h
  rfl

theorem DefaultStore.barrier {slot : Nat} (h : DefaultStore slot is) :
    is.countP Instr.barrier = 0 := by
  obtain ⟨off, _, rfl | ⟨c, rfl⟩⟩ := h <;> rfl

theorem defaults_barrier {slots : List Nat} {ps : List (List Instr)}
    (h : List.Forall₂ DefaultStore slots ps) : ps.flatten.countP Instr.barrier = 0 := by
  induction h with
  | nil => rfl
  | cons store _ ih => rw [List.flatten_cons, List.countP_append, store.barrier, ih]

theorem guardsFields {src : Source} {f : List Instr} (h : watch.Keeps src f) :
    GuardsFields src f := by
  obtain ⟨_, ⟨defaults, stores, rfl⟩, body, rfl, groups⟩ := h
  refine ⟨⟨defaults, body, rfl, stores, groups⟩, ?_⟩
  have some := groups.countP_eq Unguarded.barrier Guarded.barrier
  have head : (watch.opening src.label src.formals).countP Instr.barrier = 0 := rfl
  rw [List.countP_append, List.countP_append, head, defaults_barrier stores, some]
  omega

end Functions

end ClassBackend.Mips
