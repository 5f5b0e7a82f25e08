import ClassBackend.Proofs.Initializer.Transcript
import ClassBackend.Proofs.Llvm.Reaching

/-! The transcript of a module: the lines of each function, labels of blocks among them. The slots
that a function makes at its head are no lines of their own. -/
namespace ClassBackend.Llvm

open Lowering Initializer

inductive CodeLine where
  | define (label : String) (formals : Nat)
  | block (l : Label)
  | instr (i : Instr)
  deriving DecidableEq, Repr

def bodyListing (b : Body) : List CodeLine :=
  b.blocks.flatMap fun c => .block c.label :: c.instrs.toList.map .instr

def Function.listing (f : Function) : List CodeLine :=
  .define f.label f.formals :: bodyListing f.body

def transcript : Transcript backend CodeLine where
  idle fs s := s.function = none ∧ s.functions.toList.map Function.listing = fs
  inside fs is s := s.functions.toList.map Function.listing = fs ∧
    s.function.map Function.listing = some is

def StoresDefault (p : Pool) (address : Operand) : Default → Instr → Prop
  | .native .int, i | .native .bool, i => i = .store .i64 (.int 0) address
  | .native .string, i | .void, i => i = .store .ptr .null address
  | .object l, i => ∃ c, Denotes p c l ∧ i = .store .ptr (.const c) address

def script (cx : Context) (p : Pool) : Step → List CodeLine → Prop
  | .enter, is => is = [.define (Linkage.initializer cx.current.name) 0, .block .entry]
  | .default slot value, is => ∃ a i, StoresDefault p (.temp a) value i ∧
    is = [.instr (.assign a (.element cx.current.name .self (3 + slot))), .instr i]
  | .parent c, is => ∃ a, is = [.instr (.assign a
    (.call .ptr (.symbol (Linkage.initializer c)) [(.ptr, .self)]))]
  | .init slot e, is => ∃ v es a b, transcript.Lowers cx e v es ∧
    is = es ++ [
      .instr (.assign a (.element cx.current.name .self (3 + slot))),
      .instr (.store .ptr v (.temp a)),
      .instr (.assign b (.element cx.current.name .self (3 + slot))),
      .instr (.callVoid (.symbol Routine.writeBarrier.symbol) [(.ptr, .temp b)])]
  | .leave, is => is = [.instr (.ret .self)]

variable {α : Type} {m : Gen α} {fs : List (List CodeLine)} {is : List CodeLine} {js : List Instr}
variable {s s' : State} {x : Unit} {v : Operand} {i : Instr} {b b' : Body}
variable {w u : Transcript.Place CodeLine}

section Growth

theorem bodyListing_extend (is : List Instr) (last : Bool) :
    bodyListing (b.extend is last) = bodyListing b ++ is.map .instr := by
  simp [bodyListing, Builder.blocks, Builder.extend]

theorem bodyListing_opened (l : Label) :
    ∃ js, bodyListing (b.opened l) = bodyListing b ++ js := by
  unfold Builder.opened
  split
  · exact ⟨[.block l], by simp [bodyListing, Builder.blocks]⟩
  · refine ⟨[.instr (.br l), .block l], ?_⟩
    simp [bodyListing, Builder.blocks, Builder.extend]

theorem inside_body {js : List CodeLine} {g : Body → Except Fault Body}
    (there : transcript.inside fs is s) (run : Gen.body g s = .ok (x, s'))
    (grows : ∀ b b', g b = .ok b' → bodyListing b' = bodyListing b ++ js) :
    transcript.inside fs (is ++ js) s' := by
  obtain ⟨f, b, open_, changed, rfl⟩ := body_inv run
  obtain ⟨done, code⟩ := there
  refine ⟨done, ?_⟩
  rw [open_] at code
  cases code
  simp [Function.listing, grows _ _ changed]

theorem fresh_written (there : transcript.inside fs is s) (f : Fresh) :
    transcript.inside fs is { s with fresh := f } := there

theorem emit_written (there : transcript.inside fs is s) (run : Gen.emit i s = .ok (x, s')) :
    transcript.inside fs (is ++ [.instr i]) s' :=
  inside_body there run fun _ _ emitted => by
    rw [(builder_emit_ok.mp emitted).2, bodyListing_extend]
    rfl

theorem terminate_written (there : transcript.inside fs is s)
    (run : Gen.terminate i s = .ok (x, s')) : transcript.inside fs (is ++ [.instr i]) s' :=
  inside_body there run fun _ _ emitted => by
    rw [(builder_terminate_ok.mp emitted).2, bodyListing_extend]
    rfl

theorem assign_written {rhs : Rhs} (there : transcript.inside fs is s)
    (run : Gen.assign rhs s = .ok (v, s')) :
    ∃ a, v = .temp a ∧ transcript.inside fs (is ++ [.instr (.assign a rhs)]) s' := by
  simp only [Gen.assign, bind_ok, pure_ok] at run
  obtain ⟨r, s₁, drawn, _, s₂, emitted, rfl, rfl⟩ := run
  cases drawn
  exact ⟨_, rfl, emit_written (fresh_written there _) emitted⟩

theorem slotFor_written {a : Operand} (there : transcript.inside fs is s)
    (run : Gen.slotFor v s = .ok (a, s')) :
    transcript.inside fs (is ++ [.instr (.store .ptr v a)]) s' := by
  simp only [Gen.slotFor, bind_ok, pure_ok] at run
  obtain ⟨r, s₁, drawn, _, s₂, placed, _, s₃, stored, rfl, rfl⟩ := run
  cases drawn
  have slot : transcript.inside fs (is ++ []) s₂ :=
    inside_body (fresh_written there _) placed fun _ _ made => by
      cases made
      simp [bodyListing, Builder.blocks, Builder.alloca]
  rw [List.append_nil] at slot
  exact emit_written slot stored

theorem switchTo_written {c : BlockName} (there : transcript.inside fs is s)
    (run : Gen.switchTo c s = .ok (x, s')) : ∃ js, transcript.inside fs (is ++ js) s' := by
  obtain ⟨f, b, open_, changed, rfl⟩ := body_inv run
  obtain ⟨done, code⟩ := there
  rw [open_] at code
  cases code
  obtain ⟨js, grown⟩ := bodyListing_opened (b := f.body) (.block c)
  refine ⟨js, done, ?_⟩
  rw [builder_startBlock_ok.mp changed]
  simp [Function.listing, grown]

@[reducible] def writing : Ledger where
  World := Transcript.Place CodeLine
  le := Transcript.Place.Le
  later := Transcript.Place.Le
  idle _ _ s := ∃ fs, transcript.idle fs s
  inside w p s := w.pool = p ∧ transcript.inside w.done w.code s
  shut w p s := w.pool = p ∧ transcript.inside w.done w.code s
  frame _ _ _ := True
  const _ _ := True
  has _ _ := True
  struct _ := True
  entered w _ u := u.Le w
  arm _ _ _ := True
  cls _ := True
  label _ := True

theorem newBlock_writes (hint : String) : transcript.Writes (Gen.newBlock hint) := by
  intro fs is s a s' there run
  cases run
  refine ⟨[], ?_⟩
  rw [List.append_nil]
  exact fresh_written there _

theorem closeArm_writes (v : Operand) (join : BlockName) :
    transcript.Writes (Gen.closeArm v join) := by
  intro fs is s a s' there run
  obtain ⟨left, _⟩ := closeArm_ok run
  exact ⟨_, terminate_written there left⟩

theorem merge_writes (arms : List (Operand × Label)) (join : BlockName) :
    transcript.Writes (Gen.merge arms join) := by
  intro fs is s a s' there run
  obtain ⟨_, s₁, placed, rest⟩ := bind_ok.mp run
  obtain ⟨js, there₁⟩ := switchTo_written there placed
  by_cases none : arms.isEmpty = true
  · rw [if_pos none] at rest
    obtain ⟨_, rfl⟩ := pure_ok.mp rest
    exact ⟨js, there₁⟩
  · rw [if_neg none] at rest
    obtain ⟨_, _, there₂⟩ := assign_written there₁ rest
    exact ⟨_, by rwa [List.append_assoc] at there₂⟩

theorem writing_balanced : writing.Balanced where
  toOrdered := transcript.ordered
  self := trivial
  null := trivial
  int := trivial
  literal _ := trivial
  bool := trivial
  routine _ := trivial
  objects := trivial
  table _ := trivial
  initializer _ := trivial
  method _ := trivial
  own _ := trivial
  header := trivial
  row := trivial
  pool there grown _ := Transcript.pool_grows (T := transcript) there grown
  emit _ _ _ _ _ := Transcript.Writes.keeps fun _ _ _ _ _ there run =>
    ⟨_, emit_written there run⟩
  assign _ _ _ := Transcript.Writes.keeps fun _ _ _ _ _ there run => by
    obtain ⟨_, _, there'⟩ := assign_written there run
    exact ⟨_, there'⟩
  slotFor _ := Transcript.Writes.keeps fun _ _ _ _ _ there run => ⟨_, slotFor_written there run⟩
  terminate _ _ _ _ _ := Transcript.Writes.keeps fun _ _ _ _ _ there run =>
    ⟨_, terminate_written there run⟩
  newBlock _ known := by
    intro p s c s' there run
    obtain ⟨w', grown, there', _⟩ := (newBlock_writes _).keeps p s c s' there run
    exact ⟨w', grown, there', known.trans grown⟩
  nextBlock _ known there run := by
    obtain ⟨w', grown, there', _⟩ := (newBlock_writes _).keeps _ _ _ _ there run
    exact ⟨w', grown, there', known.trans grown⟩
  switchTo entered := Transcript.Writes.opens (fun _ _ _ _ _ there run =>
    switchTo_written there run) entered
  closeArm _ _ _ := (closeArm_writes _ _).keeps
  merge entered _ := (merge_writes _ _).opens entered

theorem transcript_account : transcript.account.Lawful := writing_balanced.lawful

end Growth

section Functions

theorem beginFunction_written {label : String} {n : Nat} (there : transcript.idle fs s)
    (run : Gen.beginFunction label n s = .ok (x, s')) :
    transcript.inside fs [.define label n, .block .entry] s' := by
  cases run
  exact ⟨there.2, rfl⟩

theorem endFunction_written (there : transcript.inside fs is s)
    (run : Gen.endFunction v s = .ok (x, s')) :
    transcript.idle (fs ++ [is ++ [.instr (.ret v)]]) s' := by
  obtain ⟨_, s₁, ended, rest⟩ := bind_ok.mp run
  obtain ⟨done, code⟩ := terminate_written there ended
  cases open_ : s₁.function with
  | none => simp [open_] at rest
  | some f =>
    simp only [open_, Except.ok.injEq, Prod.mk.injEq, true_and] at rest
    subst rest
    rw [open_, Option.map_some, Option.some.injEq] at code
    exact ⟨rfl, by simp [← done, ← code]⟩

theorem fieldAddress_written {obj : Operand} {k : ClassLayout} {slot : Nat}
    (there : transcript.inside fs is s) (run : Gen.fieldAddress obj k slot s = .ok (v, s')) :
    ∃ a, v = .temp a ∧ transcript.inside fs
      (is ++ [.instr (.assign a (.element k.name obj (3 + slot)))]) s' := by
  unfold Gen.fieldAddress at run
  cases known : fieldIndex slot with
  | ok index =>
    rw [known] at run
    cases fieldIndex_ok known
    exact assign_written there run
  | error e =>
    rw [known] at run
    cases run

theorem storeField_written {obj : Operand} {k : ClassLayout} {slot : Nat}
    (there : transcript.inside fs is s) (run : Gen.storeField obj k slot v s = .ok (x, s')) :
    ∃ a, transcript.inside fs (is ++ [.instr (.assign a (.element k.name obj (3 + slot))),
      .instr (.store .ptr v (.temp a))]) s' := by
  obtain ⟨p, s₁, address, stored⟩ := bind_ok.mp run
  obtain ⟨a, rfl, there₁⟩ := fieldAddress_written there address
  exact ⟨a, by simpa using emit_written there₁ stored⟩

end Functions

theorem transcript_lawful : transcript.Lawful script where
  account := transcript_account
  start := ⟨rfl, rfl⟩
  begin_ there run := ⟨_, beginFunction_written there run⟩
  formal := fun _ _ _ _ _ there run => ⟨_, slotFor_written there run⟩
  end_ there run := ⟨_, endFunction_written there run⟩
  grows := by
    intro cx p q step is grown h
    match step with
    | .enter | .parent _ | .init _ _ | .leave => exact h
    | .default slot (.native .int) | .default slot (.native .bool) => exact h
    | .default slot (.native .string) | .default slot .void => exact h
    | .default slot (.object l) =>
      obtain ⟨a, i, ⟨c, denotes, store⟩, code⟩ := h
      exact ⟨a, i, ⟨c, denotes.mono grown, store⟩, code⟩
  enter there run := ⟨_, beginFunction_written there run, rfl⟩
  native {cx p fs is s slot kind s'} there run := by
    obtain ⟨d, s₁, address, stored⟩ := bind_ok.mp run
    obtain ⟨a, rfl, there₁⟩ := fieldAddress_written there address
    cases kind with
    | int | bool | string =>
      have there₂ := emit_written there₁ stored
      rw [List.append_assoc] at there₂
      exact ⟨_, there₂, a, _, rfl, rfl⟩
  object there denotes run := by
    obtain ⟨v, s₁, loaded, stored⟩ := bind_ok.mp run
    obtain ⟨rfl, rfl⟩ := pure_ok.mp loaded
    obtain ⟨a, there'⟩ := storeField_written there stored
    exact ⟨_, there', a, _, ⟨_, denotes, rfl⟩, rfl⟩
  void there run := by
    obtain ⟨a, there'⟩ := storeField_written there run
    exact ⟨_, there', a, _, rfl, rfl⟩
  parent there run := by
    obtain ⟨a, rfl, there'⟩ := assign_written there run
    exact ⟨_, there', a, rfl⟩
  init there lowers run := by
    obtain ⟨_, s₁, stored, barred⟩ := bind_ok.mp run
    obtain ⟨a, there₁⟩ := storeField_written there stored
    obtain ⟨d, s₂, address, called⟩ := bind_ok.mp barred
    obtain ⟨c, rfl, there₂⟩ := fieldAddress_written there₁ address
    have there₃ := emit_written there₂ called
    simp only [List.append_assoc] at there₃
    exact ⟨_, there₃, _, _, a, c, lowers, rfl⟩
  leave there run := ⟨_, endFunction_written there run, rfl⟩

end ClassBackend.Llvm
