import ClassBackend.Proofs.Cases
import ClassBackend.Proofs.Mips.Exits
import ClassBackend.Proofs.Mips.Words

/-! The tests of a case in MIPS code. The tag of the object goes to a scratch register, which stays
as it is from test to test, and so does the register with the object: no value is in a register that
is handed out for words. A branch begins with the object pushed on the stack. -/
namespace ClassBackend.Mips

open Lowering Machine Transcript

section Answers

/-- The operation leaves its value in one of the registers for values. -/
def Answers (m : Asm Reg) : Prop := ∀ s v s', m s = .ok (v, s') → v ∈ valueRegs

theorem Answers.bind {α : Type} {m : Asm α} {f : α → Asm Reg} (h : ∀ a, Answers (f a)) :
    Answers (m >>= f) := by
  intro s v s' run
  obtain ⟨a, s₁, _, rest⟩ := bind_ok.mp run
  exact h a s₁ v s' rest

theorem Answers.ret {v : Reg} (h : v ∈ valueRegs) : Answers (pure v) := by
  intro s r s' run
  obtain ⟨rfl, _⟩ := pure_ok.mp run
  exact h

@[reducible] def answering : Account backend where
  World := Unit
  le _ _ := True
  later _ _ := True
  idle _ _ _ := True
  inside _ _ _ := True
  shut _ _ _ := True
  frame _ _ _ := True
  const _ _ := True
  value _ v := v ∈ valueRegs
  raw _ _ := True
  slot _ _ := True
  saved _ _ := True
  entered _ _ _ := True
  arm _ _ _ := True
  cls _ := True
  label _ := True

theorem answering_any {α : Type} {w : Unit} {m : Asm α} : answering.Keeps w m fun _ _ => True :=
  fun _ _ _ _ _ _ => ⟨(), trivial, trivial, trivial⟩

theorem Answers.keeps {w : Unit} {m : Asm Reg} (h : Answers m) :
    answering.Keeps w m answering.value :=
  fun _ _ _ _ _ run => ⟨(), trivial, trivial, h _ _ _ run⟩

theorem answering_lawful : answering.Lawful where
  refl _ := trivial
  trans _ _ := trivial
  later_trans _ _ := trivial
  later _ := trivial
  const _ _ := trivial
  value _ h := h
  raw _ _ := trivial
  slot _ _ := trivial
  saved _ _ := trivial
  frame _ _ := trivial
  entered _ _ := trivial
  arm _ _ := trivial
  self := @fun _ => (by decide : Reg.s0 ∈ valueRegs)
  void := @fun _ => (by decide : Reg.zero ∈ valueRegs)
  bool := trivial
  pool _ _ _ _ := ⟨(), trivial, trivial, fun _ _ _ => trivial⟩
  constant _ := Answers.keeps (.bind fun _ => .ret (by decide))
  allocLocal _ := answering_any
  freeLocal _ := answering_any
  loadLocal _ := Answers.keeps (.bind fun _ => .ret (by decide))
  storeLocal _ _ := answering_any
  loadField _ _ := Answers.keeps (.bind fun _ => .bind fun _ => .ret (by decide))
  storeField _ _ _ := answering_any
  storeNative _ _ := answering_any
  writeBarrier _ _ := answering_any
  preserve _ := answering_any
  restore _ := Answers.keeps (.bind fun _ => .ret (by decide))
  unbox _ _ := answering_any
  boxInt _ _ := Answers.keeps fun s v s' run => by
    rw [(boxInt_ok run).1]
    decide
  rawWord := answering_any
  arith _ _ := answering_any
  negate _ := answering_any
  loadTag _ := answering_any
  newBlock _ _ := answering_any
  nextBlock _ _ _ _ := ⟨(), trivial, trivial, trivial⟩
  switchTo _ _ _ _ _ _ _ := ⟨(), trivial, trivial, trivial, trivial⟩
  jump _ _ _ _ _ _ _ _ := ⟨(), trivial, trivial, trivial⟩
  branchRaw _ _ _ _ _ _ := answering_any
  branchVoid _ _ _ _ _ := answering_any
  branchSame _ _ _ _ _ _ := answering_any
  closeArm _ _ _ := answering_any
  merge _ _ _ _ _ _ _ run := ⟨(), trivial, trivial, trivial, by
    rw [(merge_ok run).1]
    decide⟩
  abort _ := answering_any
  allocate _ := Answers.keeps (.bind fun _ => .bind fun _ => .ret (by decide))
  callInit _ _ := Answers.keeps (.bind fun _ => .bind fun _ => .ret (by decide))
  newSelfType := Answers.keeps (.bind fun _ => .bind fun _ => .bind fun _ => .bind fun _ =>
    .bind fun _ => .bind fun _ => .bind fun _ => .bind fun _ => .bind fun _ => .bind fun _ =>
    .bind fun _ => .ret (by decide))
  callEquality _ _ := answering_any
  callDirect _ _ _ := Answers.keeps (.bind fun _ => .bind fun _ => .bind fun _ => .ret (by decide))
  callDynamic _ _ _ := Answers.keeps (.bind fun _ => .bind fun _ => .bind fun _ => .bind fun _ =>
    .bind fun _ => .bind fun _ => .ret (by decide))

theorem lowered_register {cx : Context} {vars : Resolved.Vars backend} {e : Expr} {v : Reg}
    {s s' : Session backend} (run : Resolved.lower backend cx vars e s = .ok (v, s')) :
    v ∈ valueRegs := by
  have knows : answering.Knows cx := ⟨fun _ => trivial, trivial, fun _ _ => trivial⟩
  obtain ⟨_, _, _, there⟩ := Account.lower_fits answering_lawful knows (w := ())
    (fun _ _ => trivial) e () trivial s v s' trivial run
  exact there

end Answers

section Code

variable {s s' : State} {is : List Instr} {v r : Reg} {cls : ClassLayout} {u : Unit}

def testCode (r : Reg) (cls : ClassLayout) (v : Reg) (next upper matched : BlockName) :
    List Instr :=
  [.branch (Asm.branchCond .lt) r (.imm cls.tag) (.block next), .goto (.block upper),
    .label (.block upper), .branch (Asm.branchCond .gt) r (.imm cls.lastTag) (.block next),
    .goto (.block matched), .label (.block matched), .sw v 0 .sp, .addiu .sp .sp (-4)]

theorem entry_puts {tag : Operand} {join : BlockName}
    (h : transcript.Puts (testsEntry backend v) s (tag, join) is s') :
    ∃ n, tag = .reg (Reg.scratchAt n) ∧ is = [.lw (Reg.scratchAt n) 0 v] := by
  obtain ⟨run, written⟩ := h
  obtain ⟨w, s₁, loaded, run⟩ := bind_ok.mp run
  obtain ⟨b, s₂, drawn, last⟩ := bind_ok.mp run
  obtain ⟨same, rfl⟩ := pure_ok.mp last
  obtain ⟨rfl, _⟩ := Prod.mk.inj same
  obtain ⟨rfl, rfl⟩ := loadTag_ok loaded
  refine ⟨_, rfl, written_eq written ?_⟩
  rw [newBlock_code drawn, State.add_code]
  rfl

theorem armEntry_puts {next : BlockName} {a : Int}
    (h : transcript.Puts (armEntry backend (.reg r) cls v) s (next, a) is s') :
    ∃ upper matched, is = testCode r cls v next upper matched ∧ Word.fits cls.tag = true ∧
      Word.fits cls.lastTag = true ∧ ∃ f, s.frame = some f ∧ a = f.spOffset := by
  obtain ⟨run, written⟩ := h
  simp only [armEntry, bind_ok] at run
  obtain ⟨next', s₁, first, upper, s₂, second, matched, s₃, third, lo, s₄, low, _, s₅, below, _, s₆,
    opened, hi, s₇, high, _, s₈, above, _, s₉, opened', slot, s₁₀, pushed, last⟩ := run
  obtain ⟨same, rfl⟩ := pure_ok.mp last
  obtain ⟨rfl, rfl⟩ := Prod.mk.inj same
  have start : s₃.code = s.code :=
    (newBlock_code third).trans ((newBlock_code second).trans (newBlock_code first))
  have framed : s₃.frame = s.frame := by
    cases first
    cases second
    cases third
    rfl
  obtain ⟨found, rfl⟩ := asm_ofExcept_ok.mp low
  obtain ⟨found', rfl⟩ := asm_ofExcept_ok.mp high
  have literal {n : Int} {x : Operand} (known : (Word.ofLiteral n).map Operand.imm = .ok x) :
      Word.fits n = true ∧ x = .imm n := by
    unfold Word.ofLiteral at known
    split at known
    · rename_i fits
      cases known
      exact ⟨fits, rfl⟩
    · cases known
  obtain ⟨fits, rfl⟩ := literal found
  obtain ⟨fits', rfl⟩ := literal found'
  obtain ⟨q, mid, kept, rfl⟩ := branchRaw_ok below
  obtain ⟨rfl, rfl⟩ := pure_ok.mp kept
  rw [emit_ok.mp opened] at above
  obtain ⟨q, mid, kept, rfl⟩ := branchRaw_ok above
  obtain ⟨rfl, rfl⟩ := pure_ok.mp kept
  rw [emit_ok.mp opened'] at pushed
  obtain ⟨f, known, rfl, _, rfl⟩ := push_ok pushed
  refine ⟨upper, matched, written_eq written ?_, fits, fits', f, framed ▸ known, rfl⟩
  simp [testCode, State.framed, State.add, Asm.branchCond, Frame.pushCode, wordSize, start]

theorem armExit_puts {join : BlockName} {a : Int}
    (h : transcript.Puts (armExit backend join a v) s u is s') :
    is ≠ [] ∧ ∃ f, s'.frame = some f ∧ f.spOffset = a := by
  obtain ⟨run, written⟩ := h
  obtain ⟨_, s₁, freed, closed⟩ := bind_ok.mp run
  obtain ⟨f, _, top, _, rfl⟩ := discard_ok freed
  rw [closeArm_ok closed] at written ⊢
  refine ⟨?_, { f with spOffset := f.spOffset + 4 }, rfl, top.symm⟩
  have whole : is = Frame.discardCode ++ (intoAccCode v ++ [.goto (.block join)]) :=
    written_eq written (by simp [State.framed, State.add])
  rw [whole]
  exact List.cons_ne_nil _ _

theorem switchTo_puts {next : BlockName} (h : transcript.Puts (Asm.switchTo next) s u is s') :
    is = [.label (.block next)] ∧ s'.frame = s.frame := by
  obtain ⟨run, written⟩ := h
  have same := emit_ok.mp run
  exact ⟨written_eq written (by rw [same, State.add_code]), by rw [same]; rfl⟩

end Code

/-- A machine for MIPS code, where slots are words of the frame. A slot can be written when it is
the next free word of the stack. -/
def monitor : Monitor backend Instr where
  width := 32
  Call := Call
  Site := Site
  engine := Site.engine
  runs u code := u.code = code
  behind _ l c := Config.pc c = l.length
  value _ c v x := (Config.cpu c).get v = x
  room _ c a := (Config.cpu c).get .sp = (Config.cpu c).get .fp + BitVec.ofInt 32 a ∧
    ((Config.cpu c).mem ((Config.cpu c).get .sp)).isSome
  slot _ c a x := (Config.cpu c).mem ((Config.cpu c).get .fp + BitVec.ofInt 32 a) = some x

section Runs

variable {u : Site} {n m : Nat} {s : Cpu} {r : Reg} {within : Config → Prop}

theorem passes_test (distinct : (placed u.code).Nodup) {op : Relop} {w g : Int}
    {next onward : BlockName} {is js : List Instr}
    (code : u.Has n (.branch (Asm.branchCond op) r (.imm w) (.block next) ::
      .goto (.block onward) :: .label (.block onward) :: is))
    (there : u.Has m (.label (.block next) :: js)) (word : Word.fits w = true)
    (tag : (s.get r).toInt = g) (inside : ∀ j ≤ 3, within ⟨n + j, s⟩) (out : within ⟨m, s⟩) :
    u.engine.Passes within ⟨n, s⟩ ⟨if Meaning.holds op g w then m else n + 3, s⟩ := by
  have operand : (s.operand (.imm w)).toInt = w := fits_toInt word
  have here : within ⟨n, s⟩ := inside 0 (by omega)
  cases decided : Meaning.holds op g w with
  | true =>
    exact passes_branch distinct code there here (by rw [tag, operand, decided]; rfl) out
  | false =>
    have stays : u.engine.Passes within ⟨n, s⟩ ⟨n + 1, s⟩ :=
      passes_branch distinct code there here (by rw [tag, operand, decided]; rfl)
        (inside 1 (by omega))
    have turns : u.engine.Passes within ⟨n + 1, s⟩ ⟨n + 2, s⟩ :=
      passes_goto distinct code.tail code.tail.tail (inside 1 (by omega)) (inside 2 (by omega))
    have enters : u.engine.Passes within ⟨n + 2, s⟩ ⟨n + 3, s⟩ := by
      have step : u.step ⟨n + 2, s⟩ = .moves ⟨n + 3, s⟩ :=
        Site.Has.step (show u.Has (n + 2) _ from code.tail.tail) s
      exact .step (inside 2 (by omega)) (.moves step) (.here (inside 3 (by omega)))
    exact stays.trans (turns.trans enters)

end Runs

section Tests

variable {u : Site} {before ts after : List Instr} {qs front back : List (Stretch backend Instr)}
variable {q : Stretch backend Instr} {s : Cpu} {r v : Reg} {cls k : ClassLayout}
variable {next upper matched : BlockName}

theorem place {code l l' : List Instr} {c : Config} (hl : l <+: code) (hl' : l' <+: code)
    (here : c.pc = l.length) (here' : c.pc = l'.length) : l = l' :=
  (List.prefix_of_prefix_length_le hl hl' (Nat.le_of_eq (here.symm.trans here'))).eq_of_length
    (here.symm.trans here')

def beyond (before ts : List Instr) (front : List (Stretch backend Instr))
    (q : Stretch backend Instr) : List Instr :=
  before ++ ts ++ Stretch.codes front ++ (q.tests ++ q.body ++ q.leave)

/-- A branch with its tests, in code that the machine runs. -/
structure Site.Arm (u : Site) (before ts : List Instr) (qs front : List (Stretch backend Instr))
    (q : Stretch backend Instr) (r v : Reg) (cls : ClassLayout) (next upper matched : BlockName) :
    Prop where
  distinct : (placed u.code).Nodup
  parts : ∃ back, qs = front ++ q :: back
  tests : q.tests = testCode r cls v next upper matched
  label : q.next = [.label (.block next)]
  first : Word.fits cls.tag = true
  last : Word.fits cls.lastTag = true
  code : u.Has (before ++ ts ++ Stretch.codes front).length (testCode r cls v next upper matched)
  onward : u.Has (beyond before ts front q).length [.label (.block next)]

theorem arm_at {cx : Context} {vars : Resolved.Vars backend} {join : BlockName} {b : Branch Expr}
    {s s' : Session backend} {arm : backend.Arm}
    (h : transcript.ArmCode cx vars (.reg r) v join cls b s q arm s')
    (distinct : (placed u.code).Nodup) (same : u.code = before ++ ts ++ Stretch.codes qs ++ after)
    (parts : qs = front ++ q :: back) :
    ∃ next upper matched, u.Arm before ts qs front q r v cls next upper matched := by
  obtain @⟨_, _, _, _, next, _, enters, _, _, moves⟩ := h
  obtain ⟨upper, matched, tests, fits, fits', _⟩ := armEntry_puts enters
  have label := (switchTo_puts moves).1
  have first : u.code = before ++ ts ++ Stretch.codes front ++ q.tests ++
      (q.body ++ (q.leave ++ q.next) ++ Stretch.codes back ++ after) := by
    rw [same, parts]
    simp [Stretch.code]
  have second : u.code = beyond before ts front q ++ q.next ++ (Stretch.codes back ++ after) := by
    rw [same, parts]
    simp [Stretch.code, beyond]
  exact ⟨next, upper, matched, distinct, ⟨back, parts⟩, tests, label, fits, fits',
    tests ▸ has_of_eq first, label ▸ has_of_eq second⟩

section Arms

variable {x : BitVec 32} (h : u.Arm before ts qs front q r v cls next upper matched)

include h

theorem Site.Arm.inside {j : Nat} (few : j < 8) (s : Cpu) :
    monitor.Testing u before ts qs ⟨(before ++ ts ++ Stretch.codes front).length + j, s⟩ := by
  obtain ⟨back, parts⟩ := h.parts
  have less : j < q.tests.length := by
    rw [h.tests]
    exact few
  refine ⟨_, .inr ⟨front, q, back, parts, .inl ⟨q.tests.take j, q.tests.drop j,
    (List.take_append_drop ..).symm, ?_, rfl⟩⟩, ?_⟩
  · exact List.drop_eq_nil_iff.not.mpr (Nat.not_le.mpr less)
  · simp only [monitor, List.length_append, List.length_take_of_le (Nat.le_of_lt less)]

theorem Site.Arm.out (s : Cpu) :
    monitor.Testing u before ts qs ⟨(beyond before ts front q).length, s⟩ := by
  obtain ⟨back, parts⟩ := h.parts
  have more : q.next ≠ [] := by
    rw [h.label]
    exact List.cons_ne_nil _ _
  exact ⟨_, .inr ⟨front, q, back, parts, .inr ⟨[], q.next, rfl, more, rfl⟩⟩, by
    simp only [monitor, List.append_nil, beyond]⟩

theorem Site.Arm.low (tag : (s.get r).toInt = k.tag) :
    u.engine.Passes (monitor.Testing u before ts qs)
      ⟨(before ++ ts ++ Stretch.codes front).length, s⟩
      ⟨if Meaning.holds .lt k.tag cls.tag then (beyond before ts front q).length
        else (before ++ ts ++ Stretch.codes front).length + 3, s⟩ :=
  passes_test h.distinct h.code h.onward h.first tag (fun _ few => h.inside (by omega) s) (h.out s)

theorem Site.Arm.high (tag : (s.get r).toInt = k.tag) :
    u.engine.Passes (monitor.Testing u before ts qs)
      ⟨(before ++ ts ++ Stretch.codes front).length + 3, s⟩
      ⟨if Meaning.holds .gt k.tag cls.lastTag then (beyond before ts front q).length
        else (before ++ ts ++ Stretch.codes front).length + 6, s⟩ := by
  have code : u.Has ((before ++ ts ++ Stretch.codes front).length + 3) _ := h.code.tail.tail.tail
  refine passes_test h.distinct code h.onward h.last tag (fun j few => ?_) (h.out s)
  rw [Nat.add_assoc]
  exact h.inside (by omega) s

theorem Site.Arm.misses (tag : (s.get r).toInt = k.tag) (outside : cls.covers k.tag = false) :
    u.engine.Passes (monitor.Testing u before ts qs)
      ⟨(before ++ ts ++ Stretch.codes front).length, s⟩ ⟨(beyond before ts front q).length, s⟩ := by
  have low := h.low tag
  cases below : Meaning.holds .lt k.tag cls.tag with
  | true => rwa [below] at low
  | false =>
    have above := (out_of_range outside).resolve_left (by simp [below])
    have high := h.high tag
    rw [below] at low
    rw [above] at high
    exact low.trans high

theorem Site.Arm.hits (tag : (s.get r).toInt = k.tag) (covered : cls.covers k.tag = true) :
    u.engine.Passes (monitor.Testing u before ts qs)
      ⟨(before ++ ts ++ Stretch.codes front).length, s⟩
      ⟨(before ++ ts ++ Stretch.codes front).length + 6, s⟩ := by
  obtain ⟨below, above⟩ := in_range covered
  have low := h.low tag
  have high := h.high tag
  rw [below] at low
  rw [above] at high
  exact low.trans high

theorem Site.Arm.enters (leaves : ∀ q ∈ qs, q.leave ≠ []) (value : s.get v = x)
    (stack : s.get .sp = s.get .fp + BitVec.ofInt 32 q.access)
    (mapped : (s.mem (s.get .sp)).isSome) :
    ∃ d, u.engine.Arrives (monitor.Testing u before ts qs)
        ⟨(before ++ ts ++ Stretch.codes front).length + 6, s⟩ d ∧
      monitor.behind u (bodyPlace before ts front q) d ∧ monitor.slot u d q.access x := by
  let n := (before ++ ts ++ Stretch.codes front).length
  let stored := s.store (s.get .sp) x
  let pushed := stored.set .sp (s.get .sp + BitVec.ofInt 32 (-4))
  have push : u.Has (n + 6) [.sw v 0 .sp, .addiu .sp .sp (-4)] :=
    h.code.tail.tail.tail.tail.tail.tail
  have stores : u.step ⟨n + 6, s⟩ = .writes (s.get .sp) x ⟨n + 7, stored⟩ := by
    rw [Site.Has.step push]
    simp only [Site.perform, BitVec.ofInt_ofNat, BitVec.add_zero, mapped, if_true, value, stored]
  have moves : u.step ⟨n + 7, stored⟩ = .moves ⟨n + 8, pushed⟩ :=
    Site.Has.step (show u.Has (n + 7) _ from push.tail) stored
  have there : (⟨n + 8, pushed⟩ : Config).pc = (bodyPlace before ts front q).length := by
    rw [bodyPlace, List.length_append, h.tests]
    rfl
  obtain ⟨back, parts⟩ := h.parts
  have gone : ¬ monitor.Testing u before ts qs ⟨n + 8, pushed⟩ :=
    monitor.not_testing_body (fun _ _ _ hl hl' => place hl hl') leaves parts there
  have frame : pushed.get .fp = s.get .fp := Cpu.get_set_ne _ _ (by decide)
  refine ⟨⟨n + 8, pushed⟩, ?_, there, ?_⟩
  · exact .step (h.inside (by omega) s) (.writes stores) <|
      .step (h.inside (by omega) stored) (.moves moves) <| .here gone
  · change pushed.mem (pushed.get .fp + _) = some x
    rw [frame, ← stack]
    exact Function.update_self ..

end Arms

theorem steps (distinct : (placed u.code).Nodup)
    (same : u.code = before ++ ts ++ Stretch.codes qs ++ after) (leaves : ∀ q ∈ qs, q.leave ≠ [])
    {x : BitVec 32} (tag : (s.get r).toInt = k.tag) (value : s.get v = x)
    (room : ∀ q ∈ qs, s.get .sp = s.get .fp + BitVec.ofInt 32 q.access ∧ (s.mem (s.get .sp)).isSome)
    {cx : Context} {vars : Resolved.Vars backend} {join : BlockName} :
    monitor.Steps u transcript cx vars (.reg r) v join before ts qs k x
      fun _ c => Config.cpu c = s where
  miss := by
    rintro front back q cls b t t' arm ⟨pc, cpu⟩ parts code mem outside rfl rfl
    obtain ⟨next, upper, matched, h⟩ := arm_at code distinct same parts
    let m := (beyond before ts front q).length
    have step : u.step ⟨m, cpu⟩ = .moves ⟨m + 1, cpu⟩ := Site.Has.step h.onward cpu
    refine ⟨⟨m + 1, cpu⟩, rfl, ?_, fun d rest => ?_⟩
    · change m + 1 = _
      simp only [m, beyond, Stretch.codes_append, Stretch.codes_cons, Stretch.codes_nil,
        Stretch.code, h.label, List.length_append, List.length_cons, List.length_nil]
      omega
    · exact (h.misses tag outside).arrives (.step (h.out cpu) (.moves step) rest)
  hit := by
    rintro front back q cls b t t' arm ⟨pc, cpu⟩ parts code mem covered rfl rfl
    obtain ⟨next, upper, matched, h⟩ := arm_at code distinct same parts
    obtain ⟨stack, mapped⟩ := room q (by simp [parts])
    obtain ⟨d, rest, there, slot⟩ := h.enters leaves value stack mapped
    exact ⟨d, (h.hits tag covered).arrives rest, there, slot⟩

end Tests

section Selection

variable {p : Program} {t : ClassTable} {k : ClassLayout} {pool : Pool} {code : List Instr}
variable {a : Info} {e : Expr} {bs : List (Branch Expr)}

theorem arm_leaves {cx : Context} {vars : Resolved.Vars backend} {tag : Operand} {v : Reg}
    {join : BlockName} {cls : ClassLayout} {b : Branch Expr} {s s' : Session backend}
    {q : Stretch backend Instr} {arm : backend.Arm}
    (h : transcript.ArmCode cx vars tag v join cls b s q arm s') : q.leave ≠ [] := by
  obtain @⟨_, _, _, _, _, _, _, _, leave, _⟩ := h
  exact (armExit_puts leave).1

theorem arms_slot {cx : Context} {vars : Resolved.Vars backend} {tag : Reg} {v : Reg}
    {join : BlockName} {s s' : Session backend} {cs : Sources} {qs : List (Stretch backend Instr)}
    {arms : List backend.Arm} (h : transcript.Arms cx vars (.reg tag) v join s cs qs arms s') :
    ∃ o, ∀ q ∈ qs, q.access = o := by
  have all {f : Frame} (known : s.target.frame = some f) : ∀ q ∈ qs, q.access = f.spOffset := by
    generalize same : f.spOffset = o
    induction h generalizing f with
    | nil => simp
    | @cons s _ _ _ _ _ q _ _ _ code _ ih =>
      obtain @⟨_, _, _, _, _, _, enters, _, leave, moves⟩ := code
      obtain ⟨_, _, _, _, _, g, known', access⟩ := armEntry_puts enters
      cases known.symm.trans known'
      obtain ⟨_, g', left, back⟩ := armExit_puts leave
      have after := (switchTo_puts moves).2.trans left
      rintro q' (_ | ⟨_, hq⟩)
      · exact access.trans same
      · exact ih after (back.trans (access.trans same)) q' hq
  cases h with
  | nil => exact ⟨0, by simp⟩
  | cons code _ =>
    obtain @⟨_, _, _, _, _, _, enters, _, _, _⟩ := code
    obtain ⟨_, _, _, _, _, g, known, _⟩ := armEntry_puts enters
    exact ⟨g.spOffset, all known⟩

theorem loads_tag {u : Site} {s : Cpu} {pc : Nat} {r v : Reg} {x y : BitVec 32}
    (load : u.Has pc [.lw r 0 v]) (held : s.get v = x) (found : s.mem x = some y) :
    u.step ⟨pc, s⟩ = .moves ⟨pc + 1, s.set r y⟩ := by
  have word : s.mem (s.get v + BitVec.ofInt 32 0) = some y := by
    rw [held, BitVec.ofInt_ofNat, BitVec.add_zero]
    exact found
  rw [Site.Has.step load]
  simp only [Site.perform, Site.effect, word, Option.map_some]

/-- The machine loads the tag, and comes out of the tests where it belongs. -/
theorem tests_chosen {file : Const} {v : Reg} {before es gs ts after : List Instr}
    {qs : List (Stretch backend Instr)} {cs : Sources} {s : Session backend} {u : Site} {c : Config}
    {x : BitVec 32} {C : ClassLayout} (distinct : (placed code).Nodup)
    (parts : code = before ++ es ++ gs ++ ts ++ Stretch.codes qs ++ after)
    (tests : transcript.TestCode ⟨t, k⟩ pool e bs file v es gs ts qs cs s)
    (start : monitor.Start u t code (before ++ es ++ gs) qs v x C c) :
    ∃ d, u.engine.Arrives (monitor.Testing u (before ++ es ++ gs) ts qs) c d ∧
      monitor.Chosen u (before ++ es ++ gs) ts qs (testOrder cs) C.tag x d := by
  obtain ⟨pc, cpu⟩ := c
  obtain ⟨same, here, held, ⟨y, found, tagged⟩, room, _⟩ := start
  obtain rfl : u.code = code := same
  obtain rfl : pc = (before ++ es ++ gs).length := here
  obtain @⟨vars, tag, join, arms, s₀, s₁, s₃, t₂, lowered, _, _, entry, classed, chain⟩ := tests
  obtain ⟨n, rfl, rfl⟩ := entry_puts entry
  have free := scratchAt_free n
  have value := lowered_register lowered.1
  have apart {r : Reg} (listed : r ∈ [Reg.fp, .s0, .sp, .zero, .a0, .t1]) : r ≠ Reg.scratchAt n :=
    fun eq => free (eq ▸ listed)
  have v_ne : v ≠ Reg.scratchAt n := apart (by
    simp only [valueRegs, List.mem_cons, List.not_mem_nil, or_false] at value ⊢
    tauto)
  let s := cpu.set (Reg.scratchAt n) y
  have sp : s.get .sp = cpu.get .sp := Cpu.get_set_ne _ _ (apart (by decide))
  have fp : s.get .fp = cpu.get .fp := Cpu.get_set_ne _ _ (apart (by decide))
  have kept : s.get v = x := (Cpu.get_set_ne _ _ v_ne).trans held
  have tag : (s.get (Reg.scratchAt n)).toInt = C.tag :=
    (congrArg BitVec.toInt (Cpu.get_set_self _ _ (scratchAt_nonzero n))).trans tagged
  have load : u.Has (before ++ es ++ gs).length [.lw (Reg.scratchAt n) 0 v] :=
    has_of_eq (by rw [parts, List.append_assoc _ _ after])
  have ends := chain.leaves arm_leaves
  have behind : (before ++ es ++ gs).length + 1 =
      (before ++ es ++ gs ++ [Instr.lw (Reg.scratchAt n) 0 v] ++
        Stretch.codes ([] : List (Stretch backend Instr))).length := by
    simp only [Stretch.codes_nil, List.append_nil, List.length_append, List.length_singleton]
  have tried : monitor.Steps u transcript ⟨t, k⟩ vars (.reg (Reg.scratchAt n)) v join
      (before ++ es ++ gs) _ qs C x fun _ c => Config.cpu c = s :=
    steps distinct parts ends tag kept fun q hq => by
      rw [sp, fp]
      exact room q hq
  obtain ⟨d, out, chosen⟩ := tried.chain (c := ⟨(before ++ es ++ gs).length + 1, s⟩)
    (fun c there => monitor.not_testing_end (fun _ _ _ hl hl' => place hl hl') there) chain
    (fun c hc => classed.known c ((testOrder_perm cs).mem_iff.mp hc)) (List.nil_append qs).symm
    rfl behind
  have inside : monitor.Testing u (before ++ es ++ gs) [.lw (Reg.scratchAt n) 0 v] qs
      ⟨(before ++ es ++ gs).length, cpu⟩ :=
    ⟨_, .inl ⟨[], _, rfl, List.cons_ne_nil _ _, rfl⟩, by
      simp only [monitor, List.append_nil]⟩
  exact ⟨d, .step inside (.moves (loads_tag load held found)) out, chosen⟩

theorem selects_of_has (distinct : (placed code).Nodup) (h : ClassTable.build p = .ok t)
    (has : transcript.Has ⟨t, k⟩ pool code (.caseOf a e bs)) :
    transcript.Selects monitor p.classes ⟨t, k⟩ pool code e bs :=
  has.selects transcript_account transcript_legible h arm_leaves (fun _ => place)
    fun parts tests => fun {_ _ _} _ _ start => tests_chosen distinct parts tests start

end Selection

end ClassBackend.Mips
