import ClassBackend.Proofs.Account.Laws
import ClassBackend.Proofs.Mips.Emission
import ClassBackend.Proofs.Mips.StackPaths

/-! What the operations of the MIPS backend append, as far as names go: the symbols that
instructions refer to, where they branch to, and that no operation but one places a label. -/
namespace ClassBackend.Mips

open Lowering

namespace Instr

/-- The symbol that the instruction refers to. Branches go to labels of blocks. -/
def reference? : Instr → Option String
  | .la _ s | .jal s => some s
  | _ => none

def label? : Instr → Option Label
  | .label l => some l
  | _ => none

def known : Instr → Bool
  | .arith (.other _) .. | .branch (.other _) .. => false
  | _ => true

end Instr

def codeLabels (is : List Instr) : List Label := is.filterMap Instr.label?

/-- An instruction that is no label, and refers and branches only to these. -/
structure Silent (P : String → Prop) (T : Label → Prop) (i : Instr) : Prop where
  reference : ∀ r, i.reference? = some r → P r
  label : i.label? = none
  targets : ∀ l ∈ i.targets, T l
  known : i.known = true

structure Common (P : String → Prop) : Prop where
  routine : ∀ r : Routine, P r.symbol
  bool : ∀ b, P (Const.bool b).label
  classObjects : P Linkage.classObjects

def Appends {α : Type} (P : String → Prop) (T : Label → Prop) (m : Asm α) : Prop :=
  ∀ s a s', m s = .ok (a, s') → s'.fresh = s.fresh ∧
    ∃ is, s'.code.toList = s.code.toList ++ is ∧ ∀ i ∈ is, Silent P T i

variable {P : String → Prop} {T : Label → Prop} {i : Instr} {is : List Instr}

theorem silent_plain (reference : i.reference? = none) (label : i.label? = none)
    (targets : i.targets = []) (known : i.known = true) : Silent P T i :=
  ⟨by simp [reference], label, by simp [targets], known⟩

theorem silent_la {r : Reg} {s : String} (h : P s) : Silent P T (.la r s) :=
  ⟨fun _ hr => by cases hr; exact h, rfl, by simp [Instr.targets], rfl⟩

theorem silent_jal {s : String} (h : P s) : Silent P T (.jal s) :=
  ⟨fun _ hr => by cases hr; exact h, rfl, by simp [Instr.targets], rfl⟩

theorem silent_branch {c : Cond} {a : Reg} {b : Operand} {l : Label} (h : T l)
    (known : (Instr.branch c a b l).known = true) : Silent P T (.branch c a b l) :=
  ⟨by simp [Instr.reference?], rfl, by simpa [Instr.targets] using h, known⟩

theorem silent_goto {l : Label} (h : T l) : Silent P T (.goto l) :=
  ⟨by simp [Instr.reference?], rfl, by simpa [Instr.targets] using h, rfl⟩

theorem codeLabels_append (is js : List Instr) :
    codeLabels (is ++ js) = codeLabels is ++ codeLabels js := List.filterMap_append

theorem codeLabels_silent (h : ∀ i ∈ is, Silent P T i) : codeLabels is = [] :=
  List.filterMap_eq_nil_iff.mpr fun i hi => (h i hi).label

namespace Appends

variable {α β : Type} {m : Asm α} {f : α → Asm β}

theorem bind (h : Appends P T m) (k : ∀ a, Appends P T (f a)) : Appends P T (m >>= f) := by
  intro s b s'' run
  obtain ⟨a, s', first, second⟩ := bind_ok.mp run
  obtain ⟨fresh, is, code, silent⟩ := h s a s' first
  obtain ⟨fresh', js, code', silent'⟩ := k a s' b s'' second
  refine ⟨fresh'.trans fresh, is ++ js, by rw [code', code, List.append_assoc], fun i hi => ?_⟩
  exact (List.mem_append.mp hi).elim (silent i) (silent' i)

theorem still (h : ∀ s a s', m s = .ok (a, s') → s'.fresh = s.fresh ∧ s'.code = s.code) :
    Appends P T m := fun s a s' run =>
  ⟨(h s a s' run).1, [], by rw [(h s a s' run).2, List.append_nil], by simp⟩

theorem ret (a : α) : Appends P T (pure a : Asm α) :=
  still fun s b s' run => by obtain ⟨_, rfl⟩ := pure_ok.mp run; exact ⟨rfl, rfl⟩

theorem ofExcept (x : Except Fault α) : Appends P T (Asm.ofExcept x) :=
  still fun s b s' run => by rw [(asm_ofExcept_ok.mp run).2]; exact ⟨rfl, rfl⟩

theorem frame : Appends P T Asm.frame :=
  still fun s b s' run => by rw [(frame_ok.mp run).2]; exact ⟨rfl, rfl⟩

theorem setFrame (g : Frame) : Appends P T (Asm.setFrame g) :=
  still fun s b s' run => by rw [setFrame_ok.mp run]; exact ⟨rfl, rfl⟩

theorem scratch : Appends P T Asm.scratch :=
  still fun s b s' run => by rw [(scratch_ok.mp run).2]; exact ⟨rfl, rfl⟩

theorem closeFrame : Appends P T Asm.closeFrame :=
  still fun s b s' run => by
    unfold Asm.closeFrame at run
    split at run
    · cases run
      exact ⟨rfl, rfl⟩
    · cases run

theorem emitAll (h : ∀ i ∈ is, Silent P T i) : Appends P T (Asm.emitAll is) := by
  intro s a s' run
  rw [emitAll_ok.mp run]
  exact ⟨rfl, is, State.add_code .., h⟩

theorem emit (h : Silent P T i) : Appends P T (Asm.emit i) := by
  intro s a s' run
  rw [emit_ok.mp run]
  exact ⟨rfl, [i], State.add_code .., by simpa using h⟩

theorem plain (reference : i.reference? = none) (label : i.label? = none)
    (targets : i.targets = []) (known : i.known = true) : Appends P T (Asm.emit i) :=
  emit (silent_plain reference label targets known)

theorem call (h : Common P) (r : Routine) : Appends P T (Asm.call r) :=
  emit (silent_jal (h.routine r))

theorem intoAcc (v : Reg) : Appends P T (Asm.intoAcc v) := by
  unfold Asm.intoAcc
  split
  · exact ret ()
  · exact plain rfl rfl rfl rfl

theorem push (r : Reg) : Appends P T (Asm.push r) :=
  frame.bind fun _ => (ofExcept _).bind fun _ => (setFrame _).bind fun _ =>
    (emitAll (by
      simpa [Frame.pushCode] using
        ⟨silent_plain rfl rfl rfl rfl, silent_plain rfl rfl rfl rfl⟩)).bind
    fun _ => ret _

theorem pop (r : Reg) (slot : Int) : Appends P T (Asm.pop r slot) :=
  frame.bind fun _ => (ofExcept _).bind fun _ => (setFrame _).bind fun _ =>
    emitAll (by
      simpa [Frame.popCode] using
        ⟨silent_plain rfl rfl rfl rfl, silent_plain rfl rfl rfl rfl⟩)

theorem discard (slot : Int) : Appends P T (Asm.discard slot) :=
  frame.bind fun _ => (ofExcept _).bind fun _ => (setFrame _).bind fun _ =>
    emitAll (by simpa [Frame.discardCode] using silent_plain rfl rfl rfl rfl)

theorem afterCall (args : List Int) : Appends P T (Asm.afterCall args) :=
  still fun s a s' run => by
    obtain ⟨_, _, _, rfl⟩ := afterCall_ok run
    exact ⟨rfl, rfl⟩

theorem inReg (a : Operand) : Appends P T (Asm.inReg a) := by
  cases a with
  | reg r => exact ret r
  | imm n => exact scratch.bind fun _ => .bind (plain rfl rfl rfl rfl) fun _ => ret _

theorem branchRaw (op : Relop) (a b : Operand) {yes no : BlockName} (hy : T (.block yes))
    (hn : T (.block no)) : Appends P T (Asm.branchRaw op a b yes no) :=
  (inReg a).bind fun _ => .bind (emit (silent_branch hy (by cases op <;> rfl))) fun _ =>
    emit (silent_goto hn)

theorem jump {b : BlockName} (h : T (.block b)) : Appends P T (Asm.jump b) := emit (silent_goto h)

theorem storeField (obj : Reg) (slot : Nat) (v : Reg) : Appends P T (Asm.storeField obj slot v) :=
  (ofExcept _).bind fun _ => plain rfl rfl rfl rfl

theorem boxInt (h : Common P) (a : Operand) {k : ClassLayout}
    (hk : P (Linkage.prototype k.name)) : Appends P T (Asm.boxInt a k) := by
  have rest : Appends P T (do
      Asm.emit (.la .a0 (Linkage.prototype k.name))
      Asm.call .objectCopy
      Asm.emit (.sw .t5 (← Asm.ofExcept (fieldOffset k.ownStart)) .a0)
      pure .a0 : Asm Reg) :=
    (emit (silent_la hk)).bind fun _ => (call h _).bind fun _ => (ofExcept _).bind fun _ =>
      .bind (plain rfl rfl rfl rfl) fun _ => ret _
  unfold Asm.boxInt
  split
  · exact rest
  · exact .bind (plain rfl rfl rfl rfl) fun _ => rest
  · exact .bind (plain rfl rfl rfl rfl) fun _ => rest

theorem newSelfType (h : Common P) : Appends P T Asm.newSelfType :=
  (emit (silent_la h.classObjects)).bind fun _ => .bind (plain rfl rfl rfl rfl) fun _ =>
    .bind (plain rfl rfl rfl rfl) fun _ => .bind (plain rfl rfl rfl rfl) fun _ =>
    (push _).bind fun _ => .bind (plain rfl rfl rfl rfl) fun _ => (call h _).bind fun _ =>
    .bind (plain rfl rfl rfl rfl) fun _ => .bind (plain rfl rfl rfl rfl) fun _ =>
    .bind (plain rfl rfl rfl rfl) fun _ => (discard _).bind fun _ => ret _

theorem callEquality (h : Common P) (a b : Reg) : Appends P T (Asm.callEquality a b) := by
  intro s x s' run
  obtain ⟨_, rfl, off, _, rfl⟩ := callEquality_ok run
  refine ⟨rfl, _, by rw [State.add_code, State.drawn_code], fun i hi => ?_⟩
  have moved {q : Prop} [Decidable q] {d r : Reg} (mem : i ∈ if q then [] else [Instr.move d r]) :
      Silent P T i := by
    split at mem
    · cases mem
    · cases List.mem_singleton.mp mem
      exact silent_plain rfl rfl rfl rfl
  simp only [List.mem_append, List.mem_cons, List.not_mem_nil, or_false] at hi
  obtain first | second | rfl | rfl | rfl | rfl := hi
  · exact moved first
  · exact moved second
  · exact silent_la (h.bool true)
  · exact silent_la (h.bool false)
  · exact silent_jal (h.routine _)
  · exact silent_plain rfl rfl rfl rfl

theorem abort (h : Common P) (kind : AbortKind) {file : Const} (line : UInt64) (hf : P file.label) :
    Appends P T (Asm.abort kind file line) :=
  (emit (silent_la hf)).bind fun _ => .bind (plain rfl rfl rfl rfl) fun _ => call h _

theorem writeBarrier (h : Common P) (obj : Reg) (slot : Nat) :
    Appends P T (Asm.writeBarrier obj slot) :=
  (ofExcept _).bind fun _ => .bind (plain rfl rfl rfl rfl) fun _ => call h _

theorem loadField (obj : Reg) (slot : Nat) : Appends P T (Asm.loadField obj slot) :=
  (ofExcept _).bind fun _ => .bind (plain rfl rfl rfl rfl) fun _ => ret _

theorem constant {c : Const} (hc : P c.label) : Appends P T (Asm.constant c) :=
  (emit (silent_la hc)).bind fun _ => ret _

theorem loadLocal (slot : Int) : Appends P T (Asm.loadLocal slot) :=
  .bind (plain rfl rfl rfl rfl) fun _ => ret _

theorem restore (slot : Int) : Appends P T (Asm.restore slot) := (pop _ _).bind fun _ => ret _

theorem unbox (v : Reg) (k : ClassLayout) : Appends P T (Asm.unbox v k) :=
  scratch.bind fun _ => (ofExcept _).bind fun _ => .bind (plain rfl rfl rfl rfl) fun _ => ret _

theorem arith (op : ArithOp) (a b : Operand) : Appends P T (Asm.arith op a b) :=
  (inReg _).bind fun _ => scratch.bind fun _ =>
    .bind (plain rfl rfl rfl (by cases op <;> rfl)) fun _ => ret _

theorem negate (a : Operand) : Appends P T (Asm.negate a) :=
  (inReg _).bind fun _ => scratch.bind fun _ => .bind (plain rfl rfl rfl rfl) fun _ => ret _

theorem loadTag (obj : Reg) : Appends P T (Asm.loadTag obj) :=
  scratch.bind fun _ => .bind (plain rfl rfl rfl rfl) fun _ => ret _

theorem closeArm (v : Reg) {join : BlockName} (h : T (.block join)) :
    Appends P T (Asm.closeArm v join) :=
  (intoAcc _).bind fun _ => emit (silent_goto h)

theorem allocate (h : Common P) {k : ClassLayout} (hk : P (Linkage.prototype k.name)) :
    Appends P T (Asm.allocate k) :=
  (emit (silent_la hk)).bind fun _ => (call h _).bind fun _ => ret _

theorem callInit {k : ClassLayout} (hk : P (Linkage.initializer k.name)) (obj : Reg) :
    Appends P T (Asm.callInit k obj) :=
  (intoAcc _).bind fun _ => (emit (silent_jal hk)).bind fun _ => ret _

theorem callDirect {label : String} (hl : P label) (recv : Reg) (args : List Int) :
    Appends P T (Asm.callDirect label recv args) :=
  (intoAcc _).bind fun _ => (emit (silent_jal hl)).bind fun _ => (afterCall _).bind fun _ => ret _

theorem callDynamic (recv : Reg) (slot : Nat) (args : List Int) :
    Appends P T (Asm.callDynamic recv slot args) :=
  (intoAcc _).bind fun _ => .bind (plain rfl rfl rfl rfl) fun _ => (ofExcept _).bind fun _ =>
    .bind (plain rfl rfl rfl rfl) fun _ => .bind (plain rfl rfl rfl rfl) fun _ =>
      (afterCall _).bind fun _ => ret _

theorem prologue (n : Nat) : Appends P T (do
    Asm.emitAll Frame.prologue
    fun s => .ok ((), { s with frame := some (Frame.new n), nextScratch := 0 })) := by
  refine (emitAll ?_).bind fun _ => .still fun s _ s' run => by cases run; exact ⟨rfl, rfl⟩
  simpa [Frame.prologue] using
    ⟨silent_plain rfl rfl rfl rfl, silent_plain rfl rfl rfl rfl, silent_plain rfl rfl rfl rfl,
      silent_plain rfl rfl rfl rfl, silent_plain rfl rfl rfl rfl, silent_plain rfl rfl rfl rfl⟩

theorem formal (index : Nat) : Appends P T (Asm.formal index) := frame.bind fun _ => ofExcept _

theorem endFunction (v : Reg) (n : Nat) : Appends P T (Asm.endFunction v n) := by
  refine (intoAcc v).bind fun _ => closeFrame.bind fun f => ?_
  split
  · intro s a s' run
    obtain ⟨code, s₁, found, emitted⟩ := bind_ok.mp run
    obtain ⟨epilogue, rfl⟩ := asm_ofExcept_ok.mp found
    refine emitAll ?_ _ _ _ emitted
    unfold Frame.epilogue at epilogue
    split at epilogue
    · simp only [except_bind_ok, except_pure_ok] at epilogue
      obtain ⟨_, _, _, _, rfl⟩ := epilogue
      simpa using
        ⟨silent_plain rfl rfl rfl rfl, silent_plain rfl rfl rfl rfl, silent_plain rfl rfl rfl rfl,
          silent_plain rfl rfl rfl rfl, silent_plain rfl rfl rfl rfl⟩
    · cases epilogue
  · exact ofExcept _

end Appends

end ClassBackend.Mips
