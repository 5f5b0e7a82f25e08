import ClassBackend.Proofs.Machine.Replay
import ClassBackend.Proofs.Mips.ClassObjects
import ClassBackend.Proofs.Mips.Closed
import ClassBackend.Proofs.Mips.Transcript
import ClassBackend.Proofs.Shapes

/-! Giving up in MIPS code. Where a register with the receiver or the scrutinee is void, the machine
goes to the abort routine and to nothing else, with the file of the class and with the low word of
the line. -/
namespace ClassBackend.Mips

open Machine Lowering

theorem transcript_legible : transcript.Legible := by
  intro fs is js s there there'
  have same : fs.flatten ++ is = fs.flatten ++ js := there.symm.trans there'
  exact List.append_cancel_left same

def abortCode (kind : AbortKind) (file : Const) (line : UInt64) : List Instr :=
  [.la .a0 file.label, .li .t1 (Word.low line.toNat), .jal (Routine.ofAbort kind).symbol]

def guardCode (kind : AbortKind) (v : Reg) (file : Const) (line : UInt64)
    (onVoid onward : BlockName) : List Instr :=
  [.branch .eq v (.reg .zero) (.block onVoid), .goto (.block onward), .label (.block onVoid)] ++
    abortCode kind file line ++ [.label (.block onward)]

section Code

variable {s s' : State} {is : List Instr} {kind : AbortKind} {v : Reg} {file : Const}
variable {line : UInt64}

theorem written_eq {js : List Instr} (h : transcript.Written s is s')
    (code : s'.code.toList = s.code.toList ++ js) : is = js := by
  obtain ⟨fs, before, there, there'⟩ := h
  have old : s.code.toList = fs.flatten ++ before := there
  have new : s'.code.toList = fs.flatten ++ (before ++ is) := there'
  rw [code, old, List.append_assoc] at new
  exact (List.append_cancel_left (List.append_cancel_left new)).symm

theorem abort_puts {u : Unit} (h : transcript.Puts (backend.abort kind file line) s u is s') :
    is = abortCode kind file line := by
  obtain ⟨run, written⟩ := h
  exact written_eq written (by rw [abort_ok run, State.add_code, abortCode])

theorem newBlock_code {hint : String} {b : BlockName} (h : Asm.newBlock hint s = .ok (b, s')) :
    s'.code = s.code := by
  cases h
  rfl

theorem guard_puts {hint hint' : String} {u : Unit}
    (h : transcript.Puts (voidGuard backend hint hint' kind v file line) s u is s') :
    ∃ onVoid onward, is = guardCode kind v file line onVoid onward := by
  obtain ⟨run, written⟩ := h
  simp only [voidGuard, bind_ok] at run
  obtain ⟨onVoid, s₁, first, onward, s₂, second, _, s₃, branched, _, s₄, opened, _, s₅, aborted,
    closed⟩ := run
  have start : s₂.code = s.code := (newBlock_code second).trans (newBlock_code first)
  obtain ⟨q, mid, kept, rfl⟩ := branchRaw_ok branched
  obtain ⟨rfl, rfl⟩ := pure_ok.mp kept
  rw [emit_ok.mp opened] at aborted
  rw [abort_ok aborted] at closed
  refine ⟨onVoid, onward, written_eq written ?_⟩
  rw [emit_ok.mp closed]
  simp [guardCode, abortCode, State.add_code, Asm.branchCond, start]

end Code

/-- What the abort routine is given: the file in `$a0` and the line in `$t1`. -/
structure Call.Reports (k : Call) (u : Site) (p : Pool) (kind : AbortKind) (file : String)
    (line : UInt64) : Prop where
  routine : k.target = u.symbol (Routine.ofAbort kind).symbol
  file : ∃ c, Denotes p c (.str file) ∧ k.cpu.get .a0 = u.symbol c.label
  line : (k.cpu.get .t1).toInt = Word.low line.toNat

def Config.Between (lo hi : Nat) (c : Config) : Prop := lo ≤ c.pc ∧ c.pc < hi

/-- The next that the machine does outside of this stretch of the code is to report. If the routine
does not come back, it never gets anywhere else. -/
def Site.GivesUp (u : Site) (p : Pool) (kind : AbortKind) (file : String) (line : UInt64)
    (lo hi : Nat) (c : Config) : Prop :=
  ∃ k, u.engine.Leaves (Config.Between lo hi) c k ∧ k.Reports u p kind file line ∧
    (u.outside k.target k.cpu = none → u.engine.Stays (Config.Between lo hi) c)

section Runs

variable {u : Site} {n m : Nat} {s s' : Cpu} {is js : List Instr} {b : BlockName}
variable {within : Config → Prop}

theorem passes_exec (code : u.Has n is) (run : u.exec is s = some s')
    (inside : ∀ j s, n ≤ j → j ≤ n + is.length → within ⟨j, s⟩) :
    u.engine.Passes within ⟨n, s⟩ ⟨n + is.length, s'⟩ := by
  induction is generalizing n s with
  | nil =>
    cases run
    exact .here (inside n _ (Nat.le_refl _) (Nat.le_refl _))
  | cons i is ih =>
    obtain ⟨mid, effect, rest⟩ := Option.bind_eq_some_iff.mp run
    have step : u.step ⟨n, s⟩ = .moves ⟨n + 1, mid⟩ :=
      (Site.Has.step code s).trans (u.perform_effect effect)
    have onward := ih code.tail rest fun j s first last =>
      inside j s (Nat.le_of_succ_le first) (by rw [List.length_cons]; omega)
    rw [Nat.add_right_comm] at onward
    exact .step (inside n s (Nat.le_refl _) (Nat.le_add_right ..)) (.moves step) onward

theorem mem_placed (h : .label (.block b) ∈ is) : b ∈ placed is :=
  List.mem_filterMap.mpr ⟨.block b, List.mem_filterMap.mpr ⟨_, h, rfl⟩, rfl⟩

theorem idxOf_label (distinct : (placed u.code).Nodup) (code : u.Has n (.label (.block b) :: is)) :
    u.code.idxOf (.label (.block b)) = n := by
  obtain ⟨inside, here⟩ := List.getElem?_eq_some_iff.mp code.head.1
  have parts : u.code = u.code.take n ++ .label (.block b) :: u.code.drop (n + 1) := by
    rw [← here, ← List.drop_eq_getElem_cons inside, List.take_append_drop]
  have absent : .label (.block b) ∉ u.code.take n := by
    intro earlier
    have first : b ∈ placed (u.code.take n) := mem_placed earlier
    have again : b ∈ placed (.label (.block b) :: u.code.drop (n + 1)) :=
      mem_placed List.mem_cons_self
    rw [parts, placed_append] at distinct
    exact List.disjoint_of_nodup_append distinct first again
  rw [parts, List.idxOf_append_of_notMem absent, List.idxOf_cons_self, Nat.add_zero,
    List.length_take_of_le (Nat.le_of_lt inside)]

theorem passes_goto (distinct : (placed u.code).Nodup) (code : u.Has n (.goto (.block b) :: is))
    (there : u.Has m (.label (.block b) :: js)) (inside : within ⟨n, s⟩) (inside' : within ⟨m, s⟩) :
    u.engine.Passes within ⟨n, s⟩ ⟨m, s⟩ := by
  have step : u.step ⟨n, s⟩ = .moves ⟨u.code.idxOf (.label (.block b)), s⟩ := Site.Has.step code s
  rw [idxOf_label distinct there] at step
  exact .step inside (.moves step) (.here inside')

theorem passes_branch (distinct : (placed u.code).Nodup) {op : Relop} {r : Reg} {x : Operand}
    (code : u.Has n (.branch (Asm.branchCond op) r x (.block b) :: is))
    (there : u.Has m (.label (.block b) :: js)) (inside : within ⟨n, s⟩)
    {d : Config} (arrives : d =
      ⟨if Meaning.holds op (s.get r).toInt (s.operand x).toInt then m else n + 1, s⟩)
    (inside' : within d) : u.engine.Passes within ⟨n, s⟩ d := by
  have step : u.step ⟨n, s⟩ =
      .branches (Meaning.holds op (s.get r).toInt (s.operand x).toInt) d := by
    rw [Site.Has.step code, arrives, ← idxOf_label distinct there]
    cases op <;> rfl
  exact .step inside (.branches step) (.here inside')

end Runs

section Reports

variable {u : Site} {n lo hi : Nat} {s : Cpu} {kind : AbortKind} {file : Const} {name : String}
variable {line : UInt64} {p : Pool} {v : Reg} {onVoid onward : BlockName}

theorem abort_givesUp (code : u.Has n (abortCode kind file line))
    (named : Denotes p file (.str name)) (first : lo ≤ n) (last : n + 2 < hi) :
    u.GivesUp p kind name line lo hi ⟨n, s⟩ := by
  let s' := (s.set .a0 (u.symbol file.label)).set .t1 (BitVec.ofInt 32 (Word.low line.toNat))
  have operands : u.Has n [.la .a0 file.label, .li .t1 (Word.low line.toNat)] :=
    Laid.take (show u.Has n ([_, _] ++ [_]) from code)
  have loaded : u.engine.Passes (Config.Between lo hi) ⟨n, s⟩ ⟨n + 2, s'⟩ :=
    passes_exec operands rfl fun j _ le ge =>
      ⟨Nat.le_trans first le, Nat.lt_of_le_of_lt ge last⟩
  have calls : u.step ⟨n + 2, s'⟩ = u.call ⟨n + 2, s'⟩ (u.symbol (Routine.ofAbort kind).symbol) :=
    Site.Has.step code.tail.tail s'
  refine ⟨_, ⟨_, _, loaded, calls⟩, ⟨rfl, ⟨file, named, ?_⟩, ?_⟩, fun silent => ?_⟩
  · exact (Cpu.get_set_ne _ _ (by decide)).trans (Cpu.get_set_self _ _ (by decide))
  · have word : s'.get .t1 = BitVec.ofInt 32 (Word.low line.toNat) :=
      Cpu.get_set_self _ _ (by decide)
    change (s'.get .t1).toInt = _
    rw [word, toInt_low, BitVec.toInt_ofNat']
    rfl
  · rw [Site.call, silent, Option.map_none] at calls
    exact loaded.stays (.end_ ⟨Nat.le_add_right_of_le first, last⟩ calls)

/-- Where the register is void, the machine gives up before it comes to where the code goes on. -/
theorem guard_givesUp (distinct : (placed u.code).Nodup)
    (code : u.Has n (guardCode kind v file line onVoid onward))
    (named : Denotes p file (.str name)) (void : s.get v = 0) :
    u.GivesUp p kind name line n (n + 6) ⟨n, s⟩ := by
  have label : u.Has (n + 2) (.label (.block onVoid) ::
      (abortCode kind file line ++ [.label (.block onward)])) := code.tail.tail
  have taken : (⟨n + 2, s⟩ : Config) =
      ⟨if Meaning.holds .eq (s.get v).toInt (s.operand (.reg .zero)).toInt then n + 2 else n + 1,
        s⟩ := by
    rw [void]
    rfl
  have branch : u.engine.Passes (Config.Between n (n + 6)) ⟨n, s⟩ ⟨n + 2, s⟩ :=
    passes_branch distinct code label ⟨Nat.le_refl n, show n < n + 6 by omega⟩ taken
      ⟨show n ≤ n + 2 by omega, show n + 2 < n + 6 by omega⟩
  have enter : u.engine.Passes (Config.Between n (n + 6)) ⟨n + 2, s⟩ ⟨n + 3, s⟩ :=
    passes_exec (Site.Has.single label) rfl fun j _ le ge =>
      ⟨show n ≤ j by omega,
        show j < n + 6 from Nat.lt_of_le_of_lt ge (show n + 2 + 1 < n + 6 by omega)⟩
  have aborts : u.Has (n + 3) (abortCode kind file line) := label.tail.take
  have path := branch.trans enter
  obtain ⟨k, leaves, reports, stays⟩ : u.GivesUp p kind name line n (n + 6) ⟨n + 3, s⟩ :=
    abort_givesUp aborts named (by omega) (by omega)
  exact ⟨k, path.leaves leaves, reports, fun silent => path.stays (stays silent)⟩

end Reports

section Places

variable {cx : Context} {p : Pool} {e : Expr} {code before is after : List Instr}

theorem has_of_eq {u : Site} (h : u.code = before ++ is ++ after) : u.Has before.length is := by
  intro j i hi
  refine ⟨?_, trivial⟩
  change u.code[before.length + j]? = some i
  rw [h, List.append_assoc, List.getElem?_append_right (Nat.le_add_right ..),
    Nat.add_sub_cancel_left, List.getElem?_append_left (List.getElem?_eq_some_iff.mp hi).1, hi]

/-- The machine gives up before it comes to the last label of the stretch. -/
def exits : Transcript.Exits backend Instr where
  guard p before is after kind name line v := ∀ (u : Site) (s : Cpu),
    u.code = before ++ is ++ after → s.get v = 0 → u.GivesUp p kind name line before.length
      (before.length + is.length - 1) ⟨before.length, s⟩
  abort p before is after kind name line := ∀ (u : Site) (s : Cpu),
    u.code = before ++ is ++ after → u.GivesUp p kind name line before.length
      (before.length + is.length) ⟨before.length, s⟩

theorem reports_of_has (distinct : (placed code).Nodup) (h : transcript.Has cx p code e) :
    transcript.Reports exits cx p code e := by
  refine h.reports transcript_account transcript_legible ?_ ?_
  · intro before gs after kind v file name line hint hint' s s' parts named puts u cpu same void
    obtain ⟨onVoid, onward, rfl⟩ := guard_puts puts
    exact guard_givesUp (same ▸ parts ▸ distinct) (has_of_eq same) named void
  · intro before ns after kind file name line s s' parts named puts u cpu same
    rw [abort_puts puts] at same ⊢
    exact abort_givesUp (has_of_eq same) named (Nat.le_refl _) (Nat.lt_succ_self _)

end Places

section Units

/-- Every expression of a program has its code in the unit. -/
theorem assemble_has {q : Program} {t : ClassTable} {gcTest : Bool} {a : Assembly}
    (built : ClassTable.build q.withBuiltins = .ok t) (h : assemble gcTest t = .ok a) :
    (placed a.code).Nodup ∧ ∃ pool, Data.emit gcTest t pool = .ok a.data ∧
      ∀ k ∈ t.classes, ∀ e ∈ k.expressions, transcript.Has ⟨t, k⟩ pool a.code e := by
  obtain ⟨_, whole⟩ := assemble_assembled built h
  obtain ⟨s, data, emitted, laid, rfl⟩ := assemble_made h
  obtain ⟨functions, there, covers⟩ :=
    Transcript.emitUnit_covers transcript_account transcript_lawful.toBounds built emitted
  refine ⟨whole.distinct, s.pool, laid, fun k hk e he => ?_⟩
  obtain ⟨f, hf, has⟩ := covers k hk e he
  have inside : f <:+: s.target.code.toList := by
    rw [show s.target.code.toList = functions.flatten from there]
    exact List.infix_of_mem_flatten hf
  exact has.mono inside (.refl _)

end Units

end ClassBackend.Mips
