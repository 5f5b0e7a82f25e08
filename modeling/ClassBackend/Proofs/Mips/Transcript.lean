import ClassBackend.Proofs.Initializer.Transcript
import ClassBackend.Proofs.Mips.Appending

/-! The transcript of MIPS code: functions stand one after the other in a single row. The steps of
an initializer are plain stores to `self`, which stays in `$s0`. -/
namespace ClassBackend.Mips

open Lowering Initializer

def transcript : Transcript backend Instr where
  idle fs s := s.code.toList = fs.flatten
  inside fs is s := s.code.toList = fs.flatten ++ is

def script (cx : Context) (p : Pool) : Step → List Instr → Prop
  | .enter, is => is = .label (.symbol (Linkage.initializer cx.current.name)) :: Frame.prologue
  | .default slot value, is => ∃ off, fieldOffset slot = .ok off ∧
    match value with
    | .native _ | .void => is = [.sw .zero off .s0]
    | .object l => ∃ c, Denotes p c l ∧ is = [.la .a0 c.label, .sw .a0 off .s0]
  | .parent c, is => is = [.move .a0 .s0, .jal (Linkage.initializer c)]
  | .init slot e, is => ∃ off v es, fieldOffset slot = .ok off ∧ transcript.Lowers cx e v es ∧
    is = es ++ [.sw v off .s0, .addiu .a1 .s0 off, .jal Routine.gcAssign.symbol]
  | .leave, is => is = [.move .a0 .s0, .lw .ra 4 .sp, .lw .s0 8 .sp, .lw .fp 12 .sp,
    .addiu .sp .sp 12, .jr .ra]

variable {α : Type} {m : Asm α} {fs : List (List Instr)} {is js : List Instr} {s s' : State}
variable {w u : Transcript.Place Instr}

section Growth

/-- No demand on where code branches to, or on what it refers to. -/
abbrev Free (m : Asm α) : Prop := Appends (fun _ => True) (fun _ => True) m

theorem common_free : Common fun _ => True := ⟨fun _ => trivial, fun _ => trivial, trivial⟩

theorem inside_add (there : transcript.inside fs is s)
    (code : s'.code.toList = s.code.toList ++ js) : transcript.inside fs (is ++ js) s' := by
  change s'.code.toList = _
  rw [code, show s.code.toList = _ from there, List.append_assoc]

theorem Appends.writes (h : Free m) : transcript.Writes m := by
  intro fs is s a s' there run
  obtain ⟨_, js, code, _⟩ := h s a s' run
  exact ⟨js, inside_add there code⟩

theorem label_writes (l : Label) : transcript.Writes (Asm.emit (.label l)) := by
  intro fs is s a s' there run
  rw [emit_ok.mp run]
  exact ⟨[.label l], inside_add there (State.add_code ..)⟩

theorem merge_writes (join : BlockName) : transcript.Writes (Asm.merge join) := by
  intro fs is s a s' there run
  obtain ⟨_, s₁, labelled, rest⟩ := bind_ok.mp run
  obtain ⟨_, rfl⟩ := pure_ok.mp rest
  exact label_writes _ _ _ _ _ _ there labelled

theorem newBlock_writes (hint : String) : transcript.Writes (Asm.newBlock hint) := by
  intro fs is s a s' there run
  cases run
  exact ⟨[], inside_add there (by simp)⟩

theorem transcript_account : transcript.account.Lawful where
  toOrdered := transcript.ordered
  self := trivial
  void := trivial
  bool := trivial
  pool there grown _ _ := Transcript.pool_grows there grown
  constant _ := (Appends.constant trivial).writes.keeps
  allocLocal _ := (Appends.push _).writes.keeps
  freeLocal _ := (Appends.discard _).writes.keeps
  loadLocal _ := (Appends.loadLocal _).writes.keeps
  storeLocal _ _ := (Appends.plain rfl rfl rfl rfl).writes.keeps
  loadField _ _ := (Appends.loadField _ _).writes.keeps
  storeField _ _ _ := (Appends.storeField _ _ _).writes.keeps
  storeNative _ _ := (Appends.storeField _ _ _).writes.keeps
  writeBarrier _ _ := (Appends.writeBarrier common_free _ _).writes.keeps
  preserve _ := (Appends.push _).writes.keeps
  restore _ := (Appends.restore _).writes.keeps
  unbox _ _ := (Appends.unbox _ _).writes.keeps
  boxInt _ _ := (Appends.boxInt common_free _ trivial).writes.keeps
  rawWord := (Appends.ofExcept _).writes.keeps
  arith _ _ := (Appends.arith _ _ _).writes.keeps
  negate _ := (Appends.negate _).writes.keeps
  loadTag _ := (Appends.loadTag _).writes.keeps
  newBlock _ known := by
    intro p t b t' there run
    obtain ⟨w', grown, there', _⟩ := (newBlock_writes _).keeps p t b t' there run
    exact ⟨w', grown, there', known.trans grown⟩
  nextBlock _ known there run := by
    obtain ⟨w', grown, there', _⟩ := (newBlock_writes _).keeps _ _ _ _ there run
    exact ⟨w', grown, there', known.trans grown⟩
  switchTo entered := (label_writes _).opens entered
  jump _ _ := (Appends.jump trivial).writes.keeps
  branchRaw _ _ _ _ _ _ := (Appends.branchRaw _ _ _ trivial trivial).writes.keeps
  branchVoid _ _ _ _ _ := (Appends.branchRaw _ _ _ trivial trivial).writes.keeps
  branchSame _ _ _ _ _ _ := (Appends.branchRaw _ _ _ trivial trivial).writes.keeps
  closeArm _ _ _ := (Appends.closeArm _ trivial).writes.keeps
  merge entered _ := (merge_writes _).opens entered
  abort _ := (Appends.abort common_free _ _ trivial).writes.keeps
  allocate _ := (Appends.allocate common_free trivial).writes.keeps
  callInit _ _ := (Appends.callInit trivial _).writes.keeps
  newSelfType := (Appends.newSelfType common_free).writes.keeps
  callEquality _ _ := (Appends.callEquality common_free _ _).writes.keeps
  callDirect _ _ _ := (Appends.callDirect trivial _ _).writes.keeps
  callDynamic _ _ _ := (Appends.callDynamic _ _ _).writes.keeps

end Growth

section Functions

theorem beginFunction_adds {label : String} {n : Nat}
    (there : transcript.idle fs s) (run : Asm.beginFunction label n s = .ok ((), s')) :
    transcript.inside fs (.label (.symbol label) :: Frame.prologue) s' := by
  obtain ⟨_, s₁, labelled, run⟩ := bind_ok.mp run
  obtain ⟨_, s₂, entered, run⟩ := bind_ok.mp run
  cases run
  rw [emit_ok.mp labelled] at entered
  change s₂.code.toList = _
  rw [emitAll_ok.mp entered, State.add_add, State.add_code, show s.code.toList = _ from there]
  rfl

theorem endFunction_adds {v : Reg} {n : Nat} (there : transcript.inside fs is s)
    (run : Asm.endFunction v n s = .ok ((), s')) : ∃ popped,
    Word.add savedArea (4 * Word.low n) = .ok popped ∧
    transcript.idle (fs ++ [is ++ (intoAccCode v ++ [.lw .ra 4 .sp, .lw .s0 8 .sp, .lw .fp 12 .sp,
      .addiu .sp .sp popped, .jr .ra])]) s' := by
  obtain ⟨_, s₁, moved, run⟩ := bind_ok.mp run
  rw [intoAcc_ok.mp moved] at run
  obtain ⟨f, s₂, closed, run⟩ := bind_ok.mp run
  unfold Asm.closeFrame at closed
  split at closed
  · cases closed
    split at run
    · rename_i same
      obtain ⟨code, s₃, found, emitted⟩ := bind_ok.mp run
      obtain ⟨epilogue, rfl⟩ := asm_ofExcept_ok.mp found
      unfold Frame.epilogue at epilogue
      split at epilogue
      · simp only [except_bind_ok, except_pure_ok, Word.mul, checked_ok] at epilogue
        obtain ⟨_, ⟨_, rfl⟩, popped, fits, rfl⟩ := epilogue
        refine ⟨popped, by rw [same]; exact fits, ?_⟩
        change s'.code.toList = _
        rw [emitAll_ok.mp emitted]
        simp [State.add, show s.code.toList = _ from there]
      · cases epilogue
    · cases run
  · cases closed

end Functions

theorem transcript_lawful : transcript.Lawful script where
  account := transcript_account
  start := rfl
  begin_ there run := ⟨_, beginFunction_adds there run⟩
  formal := (Appends.formal _).writes
  end_ there run := by
    obtain ⟨_, _, there'⟩ := endFunction_adds there run
    exact ⟨_, there'⟩
  grows := by
    intro cx p q step is grown h
    match step with
    | .enter | .parent _ | .init _ _ | .leave => exact h
    | .default slot (.native _) | .default slot .void => exact h
    | .default slot (.object l) =>
      obtain ⟨off, known, c, denotes, code⟩ := h
      exact ⟨off, known, c, denotes.mono grown, code⟩
  enter there run := ⟨_, beginFunction_adds there run, rfl⟩
  native there run := by
    obtain ⟨off, known, rfl⟩ := storeField_ok run
    exact ⟨_, inside_add there (State.add_code ..), off, known, rfl⟩
  object there denotes run := by
    obtain ⟨v, s₁, loaded, stored⟩ := bind_ok.mp run
    obtain ⟨_, s₂, emitted, rest⟩ := bind_ok.mp loaded
    obtain ⟨rfl, rfl⟩ := pure_ok.mp rest
    obtain ⟨off, known, rfl⟩ := storeField_ok stored
    rw [emit_ok.mp emitted, State.add_add]
    exact ⟨_, inside_add there (State.add_code ..), off, known, _, denotes, rfl⟩
  void there run := by
    obtain ⟨off, known, rfl⟩ := storeField_ok run
    exact ⟨_, inside_add there (State.add_code ..), off, known, rfl⟩
  parent there run := by
    obtain ⟨_, rfl⟩ := callInit_ok run
    exact ⟨_, inside_add there (State.add_code ..), rfl⟩
  init there lowers run := by
    obtain ⟨_, s₁, stored, barred⟩ := bind_ok.mp run
    obtain ⟨off, known, rfl⟩ := storeField_ok stored
    obtain ⟨off', known', rfl⟩ := writeBarrier_ok barred
    cases known.symm.trans known'
    rw [State.add_add]
    exact ⟨_, inside_add there (State.add_code ..), off, _, _, known, lowers, rfl⟩
  leave there run := by
    obtain ⟨popped, fits, there'⟩ := endFunction_adds there run
    cases (checked_ok.mp fits).2
    exact ⟨_, there', rfl⟩

end ClassBackend.Mips
