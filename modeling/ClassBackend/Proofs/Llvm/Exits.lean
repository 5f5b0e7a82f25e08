import ClassBackend.Proofs.Llvm.ClassObjects
import ClassBackend.Proofs.Llvm.Transcript
import ClassBackend.Proofs.Llvm.WellFormed
import ClassBackend.Proofs.Machine.Replay
import ClassBackend.Proofs.Shapes

/-! Giving up in LLVM IR. Where the receiver or the scrutinee is void, the machine goes to the abort
routine and to nothing else, with the file of the class and with the line. -/
namespace ClassBackend.Llvm

open Machine Lowering

theorem transcript_legible : transcript.Legible := by
  intro fs is js s there there'
  exact Option.some.inj (there.2.symm.trans there'.2)

def abortLines (kind : AbortKind) (file : Const) (line : UInt64) : List CodeLine :=
  [.instr (.callVoid (.symbol (Routine.ofAbort kind).symbol)
    [(.ptr, .const file), (.i64, .int line.toNat)]), .instr .unreachable]

def guardLines (kind : AbortKind) (v : Operand) (file : Const) (line : UInt64) (t : Temp)
    (onVoid onward : BlockName) : List CodeLine :=
  [.instr (.assign t (.compare .eq .ptr v .null)),
    .instr (.condBr (.temp t) (.block onVoid) (.block onward)), .block (.block onVoid)] ++
    abortLines kind file line ++ [.block (.block onward)]

section Code

variable {s s₁ s' : State} {fs : List (List CodeLine)} {is : List CodeLine} {kind : AbortKind}
variable {v : Operand} {file : Const} {line : UInt64} {x y : Unit}

theorem bodyListing_next {b : Body} (ended : b.current.terminated = true) (l : Label) :
    bodyListing (b.opened l) = bodyListing b ++ [.block l] := by
  simp [Builder.opened, ended, bodyListing, Builder.blocks]

theorem turned_written {i : Instr} {c : BlockName} (there : transcript.inside fs is s)
    (ends : Gen.terminate i s = .ok (x, s₁)) (opens : Gen.switchTo c s₁ = .ok (y, s')) :
    transcript.inside fs (is ++ [.instr i, .block (.block c)]) s' := by
  obtain ⟨done, code⟩ := terminate_written there ends
  obtain ⟨f, b, _, changed, rfl⟩ := body_inv ends
  have ended : b.current.terminated = true := by
    rw [(builder_terminate_ok.mp changed).2]
    rfl
  obtain ⟨g, b', open_, opened, rfl⟩ := body_inv opens
  cases open_
  rw [builder_startBlock_ok.mp opened]
  have before : CodeLine.define f.label f.formals :: bodyListing b = is ++ [.instr i] :=
    Option.some.inj code
  refine ⟨done, congrArg some ?_⟩
  change CodeLine.define f.label f.formals :: bodyListing (b.opened (.block c)) = _
  rw [bodyListing_next ended, ← List.cons_append, before, List.append_assoc]
  rfl

theorem abort_puts {u : Unit} (h : transcript.Puts (backend.abort kind file line) s u is s') :
    is = abortLines kind file line := by
  obtain ⟨run, fs, before, there, there'⟩ := h
  obtain ⟨_, s₁, called, ended⟩ := bind_ok.mp run
  have code := terminate_written (emit_written there called) ended
  rw [List.append_assoc] at code
  exact List.append_cancel_left (transcript_legible there' code)

theorem guard_puts {hint hint' : String} {u : Unit}
    (h : transcript.Puts (voidGuard backend hint hint' kind v file line) s u is s') :
    ∃ t onVoid onward, s.fresh.next ≤ t.id ∧ is = guardLines kind v file line t onVoid onward := by
  obtain ⟨run, fs, before, there, there'⟩ := h
  simp only [voidGuard, bind_ok] at run
  obtain ⟨onVoid, s₁, first, onward, s₂, second, _, s₃, branched, _, s₄, opened, _, s₅, aborted,
    closed⟩ := run
  have start : transcript.inside fs before s₂ ∧ s.fresh.next ≤ s₂.fresh.next := by
    cases first
    cases second
    exact ⟨fresh_written (fresh_written there _) _, Nat.le_add_right s.fresh.next 2⟩
  obtain ⟨w, s₆, compared, jumped⟩ := bind_ok.mp branched
  obtain ⟨t, rfl, there₁⟩ := assign_written start.1 compared
  have late : s.fresh.next ≤ t.id := by
    cases (assign_adds compared).1
    exact start.2
  have there₂ := turned_written there₁ jumped opened
  obtain ⟨_, s₇, called, ended⟩ := bind_ok.mp aborted
  have there₃ := turned_written (emit_written there₂ called) ended closed
  refine ⟨t, onVoid, onward, late, ?_⟩
  simp only [List.append_assoc] at there₃
  exact List.append_cancel_left (transcript_legible there' there₃)

end Code

section Listings

variable {cs : List (Block Label Instr)} {pre post : List CodeLine} {l : Label}
variable {is js : List Instr} {b : Body}

def blockListing (cs : List (Block Label Instr)) : List CodeLine :=
  cs.flatMap fun c => .block c.label :: c.instrs.toList.map .instr

theorem blockListing_cons (c : Block Label Instr) (cs : List (Block Label Instr)) :
    blockListing (c :: cs) = .block c.label :: (c.instrs.toList.map .instr ++ blockListing cs) :=
  rfl

theorem block_notMem (l : Label) (is : List Instr) :
    CodeLine.block l ∉ is.map CodeLine.instr := by
  simp

theorem prefix_of_lines {as : List Instr}
    (h : as.map CodeLine.instr ++ blockListing cs = is.map CodeLine.instr ++ post) : is <+: as := by
  rcases List.append_eq_append_iff.mp h with ⟨rest, longer, tail⟩ | ⟨rest, shorter, _⟩
  · cases cs with
    | nil =>
      have none : rest = [] := (List.append_eq_nil_iff.mp tail.symm).1
      rw [none, List.append_nil] at longer
      exact List.map_injective_iff.mpr (fun _ _ => CodeLine.instr.inj) longer ▸ List.prefix_refl _
    | cons c cs =>
      cases rest with
      | nil =>
        rw [List.append_nil] at longer
        exact List.map_injective_iff.mpr (fun _ _ => CodeLine.instr.inj) longer ▸
          List.prefix_refl _
      | cons x rest =>
        obtain ⟨rfl, _⟩ := List.cons.inj tail
        have mem : CodeLine.block c.label ∈ is.map CodeLine.instr := by
          rw [longer]
          simp
        exact absurd mem (block_notMem _ _)
  · obtain ⟨is', _, rfl, same, _⟩ := List.map_eq_append_iff.mp shorter
    rw [List.map_injective_iff.mpr (fun _ _ => CodeLine.instr.inj) same]
    exact List.prefix_append ..

theorem block_of_lines (h : blockListing cs = pre ++ .block l :: (is.map .instr ++ post)) :
    ∃ c ∈ cs, c.label = l ∧ is <+: c.instrs.toList := by
  induction cs generalizing pre with
  | nil => simp [blockListing] at h
  | cons c cs ih =>
    rw [blockListing_cons] at h
    have below {pre : List CodeLine}
        (h : blockListing cs = pre ++ .block l :: (is.map .instr ++ post)) :
        ∃ d ∈ c :: cs, d.label = l ∧ is <+: d.instrs.toList := by
      obtain ⟨d, hd, there⟩ := ih h
      exact ⟨d, List.mem_cons_of_mem _ hd, there⟩
    cases pre with
    | nil =>
      obtain ⟨same, rest⟩ := List.cons.inj h
      exact ⟨c, List.mem_cons_self, CodeLine.block.inj same, prefix_of_lines rest⟩
    | cons x pre =>
      obtain ⟨_, rest⟩ := List.cons.inj h
      rcases List.append_eq_append_iff.mp rest with ⟨more, _, tail⟩ | ⟨more, longer, tail⟩
      · exact below tail
      · cases more with
        | nil => exact @below [] tail.symm
        | cons y more =>
          obtain ⟨rfl, _⟩ := List.cons.inj tail
          have mem : CodeLine.block l ∈ c.instrs.toList.map CodeLine.instr := by
            rw [longer]
            simp
          exact absurd mem (block_notMem _ _)

theorem has_of_lines {u : Site} (distinct : (u.body.blocks.map (·.label)).Nodup)
    (h : bodyListing u.body = pre ++ .block l :: ((is ++ js).map .instr ++ post)) :
    u.Has l is.length js := by
  obtain ⟨c, hc, rfl, ⟨rest, parts⟩⟩ := block_of_lines h
  have found : u.body.blocks.find? (·.label = c.label) = some c := by
    cases first : u.body.blocks.find? (·.label = c.label) with
    | none => simpa using List.find?_eq_none.mp first c hc
    | some d =>
      have same : d.label = c.label := by simpa using List.find?_some first
      rw [List.inj_on_of_nodup_map distinct (List.mem_of_find?_eq_some first) hc same]
  have whole : u.Has c.label 0 (is ++ js) := by
    intro j i hi
    refine ⟨?_, trivial⟩
    rw [Nat.zero_add, Builder.instr?, found, Option.bind_some, ← Array.getElem?_toList, ← parts,
      List.getElem?_append_left (List.getElem?_eq_some_iff.mp hi).1, hi]
  have later := Laid.drop whole
  rwa [Nat.zero_add] at later

theorem label_before {i : Instr} (h : blockListing cs = pre ++ .instr i :: post) :
    ∃ front l is, pre = front ++ .block l :: List.map CodeLine.instr is := by
  induction cs generalizing pre with
  | nil => simp [blockListing] at h
  | cons c cs ih =>
    rw [blockListing_cons] at h
    cases pre with
    | nil => cases (List.cons.inj h).1
    | cons x pre =>
      obtain ⟨rfl, rest⟩ := List.cons.inj h
      rcases List.append_eq_append_iff.mp rest with ⟨more, rfl, tail⟩ | ⟨more, longer, _⟩
      · obtain ⟨front, l, is, rfl⟩ := ih tail
        exact ⟨.block c.label :: (c.instrs.toList.map .instr ++ front), l, is, by simp⟩
      · obtain ⟨is, _, _, rfl, _⟩ := List.map_eq_append_iff.mp longer
        exact ⟨[], c.label, is, rfl⟩

end Listings

section Runs

/-- The configuration is behind these lines of a function. -/
def Config.Behind (before : List CodeLine) (c : Config) : Prop :=
  ∃ front is, before = front ++ .block c.label :: List.map .instr is ∧ c.index = is.length

/-- The configuration is at one of the lines that stand behind the others. -/
def Config.Among (before is : List CodeLine) (c : Config) : Prop :=
  ∃ front back, is = front ++ back ∧ back ≠ [] ∧ c.Behind (before ++ front)

/-- What the abort routine is given: the file and the line. -/
structure Call.Reports (k : Call) (u : Site) (p : Pool) (kind : AbortKind) (file : String)
    (line : UInt64) : Prop where
  routine : k.target = u.symbol (Routine.ofAbort kind).symbol
  args : ∃ c x, Denotes p c (.str file) ∧ k.args = [u.symbol c.label, x] ∧ x.toNat = line.toNat

/-- The next that the machine does outside of these lines is to report. If the routine does not come
back, it never gets anywhere else. -/
def Site.GivesUp (u : Site) (p : Pool) (kind : AbortKind) (file : String) (line : UInt64)
    (before is : List CodeLine) (c : Config) : Prop :=
  ∃ k, u.engine.Leaves (Config.Among before is) c k ∧ k.Reports u p kind file line ∧
    (u.outside k = none → u.engine.Stays (Config.Among before is) c)

def blockLabels (code : List CodeLine) : List Label :=
  code.filterMap fun
    | .block l => some l
    | .define .. | .instr _ => none

variable {u : Site} {f : Function} {c : Config} {before after is js : List CodeLine}

theorem blockLabels_blocks (cs : List (Block Label Instr)) :
    blockLabels (blockListing cs) = cs.map (·.label) := by
  induction cs with
  | nil => rfl
  | cons c cs ih =>
    have none (is : List Instr) : blockLabels (is.map .instr) = [] := by
      induction is with
      | nil => rfl
      | cons _ _ ih => exact ih
    rw [blockListing_cons, List.map_cons, ← ih]
    change c.label :: List.filterMap _ (_ ++ _) = _
    rw [List.filterMap_append]
    exact congrArg (c.label :: · ++ blockLabels (blockListing cs)) (none c.instrs.toList)

theorem blockLabels_listing (f : Function) :
    blockLabels f.listing = f.body.blocks.map (·.label) :=
  blockLabels_blocks f.body.blocks

theorem exists_behind {i : Instr} (h : f.listing = before ++ .instr i :: after) :
    ∃ l n, ∀ b temps mem, Config.Behind before ⟨l, n, b, temps, mem⟩ := by
  cases before with
  | nil => cases (List.cons.inj h).1
  | cons d before =>
    obtain ⟨front, l, is, rfl⟩ := label_before (List.cons.inj h).2
    exact ⟨l, is.length, fun _ _ _ => ⟨d :: front, is, rfl, rfl⟩⟩

theorem has_of_behind {is : List Instr} (distinct : (blockLabels f.listing).Nodup)
    (same : u.body = f.body) (parts : f.listing = before ++ (is.map .instr ++ after))
    (here : c.Behind before) : u.Has c.label c.index is := by
  obtain ⟨front, js, rfl, index⟩ := here
  have labels : (u.body.blocks.map (·.label)).Nodup := by
    rw [same, ← blockLabels_listing]
    exact distinct
  rw [index]
  cases front with
  | nil => cases (List.cons.inj parts).1
  | cons d front =>
    have body : bodyListing u.body =
        front ++ .block c.label :: ((js ++ is).map .instr ++ after) := by
      have rest := (List.cons.inj parts).2
      simp only [List.append_eq, List.append_assoc, List.cons_append] at rest
      rw [same, rest, List.map_append, List.append_assoc]
    exact has_of_lines labels body

variable {kind : AbortKind} {file : Const} {name : String} {line : UInt64} {p : Pool}
variable {v : Operand} {t : Temp} {onVoid onward : BlockName}

theorem abort_reports (u : Site) (c : Config) (named : Denotes p file (.str name)) :
    (u.callee c (.symbol (Routine.ofAbort kind).symbol)
      [(.ptr, .const file), (.i64, .int line.toNat)]).Reports u p kind name line := by
  refine ⟨rfl, file, BitVec.ofInt 64 line.toNat, named, rfl, ?_⟩
  rw [BitVec.ofInt_natCast, BitVec.toNat_ofNat]
  exact Nat.mod_eq_of_lt line.toNat_lt

theorem Config.Among.mono {mid back : List CodeLine} (h : c.Among (before ++ mid) is) :
    c.Among before (mid ++ (is ++ back)) := by
  obtain ⟨front, rest, rfl, more, there⟩ := h
  refine ⟨mid ++ front, rest ++ back, ?_, List.append_ne_nil_of_left_ne_nil more _, ?_⟩
  · simp only [List.append_assoc]
  · rwa [← List.append_assoc]

theorem Site.GivesUp.mono {mid back : List CodeLine}
    (h : u.GivesUp p kind name line (before ++ mid) is c) :
    u.GivesUp p kind name line before (mid ++ (is ++ back)) c := by
  obtain ⟨k, ⟨d, after, path, calls⟩, reports, stays⟩ := h
  have wider (x : Config) (inside : x.Among (before ++ mid) is) :
      x.Among before (mid ++ (is ++ back)) := inside.mono
  exact ⟨k, ⟨d, after, path.mono wider, calls⟩, reports, fun silent n x reached =>
    wider x (stays silent n x reached)⟩

theorem abort_givesUp (distinct : (blockLabels f.listing).Nodup) (same : u.body = f.body)
    (parts : f.listing = before ++ (abortLines kind file line ++ after)) (here : c.Behind before)
    (named : Denotes p file (.str name)) :
    u.GivesUp p kind name line before (abortLines kind file line) c := by
  have code : u.Has c.label c.index [.callVoid (.symbol (Routine.ofAbort kind).symbol)
      [(.ptr, .const file), (.i64, .int line.toNat)], .unreachable] :=
    has_of_behind distinct same parts here
  have among : c.Among before (abortLines kind file line) :=
    ⟨[], _, rfl, List.cons_ne_nil _ _, by rwa [List.append_nil]⟩
  have calls := Site.Has.step code
  let k := u.callee c (.symbol (Routine.ofAbort kind).symbol)
    [(.ptr, .const file), (.i64, .int line.toNat)]
  refine ⟨k, ⟨c, _, .here among, calls⟩, abort_reports u c named, fun silent => ?_⟩
  have ended : u.step c = .calls k none := by
    rw [calls]
    change Progress.calls k ((u.outside k).map _) = _
    rw [silent]
    rfl
  exact .end_ among ended

theorem Config.Behind.snoc {d : Config} {i : Instr} (h : c.Behind before)
    (label : d.label = c.label) (index : d.index = c.index + 1) :
    d.Behind (before ++ [.instr i]) := by
  obtain ⟨front, is, rfl, same⟩ := h
  exact ⟨front, is ++ [i], by simp [label], by simp [index, same]⟩

/-- Where the operand is void, the machine gives up before it comes to where the code goes on. -/
theorem guard_givesUp (distinct : (blockLabels f.listing).Nodup) (same : u.body = f.body)
    (parts : f.listing = before ++ (guardLines kind v file line t onVoid onward ++ after))
    (here : c.Behind before) (named : Denotes p file (.str name)) (void : u.eval c.temps v = 0) :
    u.GivesUp p kind name line before (guardLines kind v file line t onVoid onward) c := by
  let test : Instr := .assign t (.compare .eq .ptr v .null)
  let turn : Instr := .condBr (.temp t) (.block onVoid) (.block onward)
  have code : u.Has c.label c.index [test, turn] := has_of_behind distinct same parts here
  let entry : List CodeLine := [.instr test, .instr turn, .block (.block onVoid)]
  have lines : f.listing = (before ++ entry) ++
      (abortLines kind file line ++ (.block (.block onward) :: after)) := by
    rw [parts, List.append_assoc]
    rfl
  let c₁ := c.assign t 1
  let c₂ := c₁.enter (.block onVoid)
  have compares : u.step c = .moves c₁ := by
    rw [Site.Has.step code]
    simp only [test, Site.perform, Site.define, Site.value, void]
    rfl
  have turns : u.step c₁ = .branches true c₂ := by
    have known : u.eval c₁.temps (.temp t) = 1 := Function.update_self ..
    have next : u.Has c₁.label c₁.index [turn] := code.tail
    rw [Site.Has.step next]
    simp only [turn, Site.perform, known]
    rfl
  have among {d : Config} (front back : List CodeLine)
      (parts : guardLines kind v file line t onVoid onward = front ++ back) (more : back ≠ [])
      (there : d.Behind (before ++ front)) :
      d.Among before (guardLines kind v file line t onVoid onward) :=
    ⟨front, back, parts, more, there⟩
  have start : c.Behind (before ++ []) := by rwa [List.append_nil]
  have first : c₁.Behind (before ++ [.instr test]) := here.snoc rfl rfl
  have second : c₂.Behind (before ++ entry) :=
    ⟨before ++ [.instr test, .instr turn], [], by rw [List.append_assoc]; rfl, rfl⟩
  have path : u.engine.Passes (Config.Among before (guardLines kind v file line t onVoid onward))
      c c₂ :=
    .step (among [] _ rfl (List.cons_ne_nil _ _) start) (.moves compares) <|
      .step (among [_] _ rfl (List.cons_ne_nil _ _) first) (.branches turns) <|
      .here (among [_, _, _] _ rfl (List.cons_ne_nil _ _) second)
  obtain ⟨k, leaves, reports, stays⟩ : u.GivesUp p kind name line before
      (guardLines kind v file line t onVoid onward) c₂ :=
    (abort_givesUp distinct same lines second named).mono
  exact ⟨k, path.leaves leaves, reports, fun silent => path.stays (stays silent)⟩

end Runs

section Places

/-- The machine gives up before it comes to the end of the stretch. -/
def exits : Transcript.Exits backend CodeLine where
  guard p before is after kind name line v := ∀ (u : Site) (f : Function) (c : Config),
    u.body = f.body → f.listing = before ++ is ++ after → c.Behind before →
    u.eval c.temps v = 0 → u.GivesUp p kind name line before is c
  abort p before is after kind name line := ∀ (u : Site) (f : Function) (c : Config),
    u.body = f.body → f.listing = before ++ is ++ after → c.Behind before →
    u.GivesUp p kind name line before is c

theorem reports_of_has {cx : Context} {p : Pool} {e : Expr} {code : List CodeLine}
    (distinct : (blockLabels code).Nodup) (h : transcript.Has cx p code e) :
    transcript.Reports exits cx p code e := by
  refine h.reports transcript_account transcript_legible ?_ ?_
  · intro before gs after kind v file name line hint hint' s s' parts named puts u f c body same
      here void
    obtain ⟨t, onVoid, onward, _, rfl⟩ := guard_puts puts
    rw [parts, ← same] at distinct
    rw [List.append_assoc] at same
    exact guard_givesUp distinct body same here named void
  · intro before ns after kind file name line s s' parts named puts u f c body same here
    rw [abort_puts puts] at same parts ⊢
    rw [parts, ← same] at distinct
    rw [List.append_assoc] at same
    exact abort_givesUp distinct body same here named

end Places

section Units

/-- Every expression of a program has its code in a function of the module. -/
theorem assemble_has {q : Program} {t : ClassTable} {sourceName : String} {m : Module}
    (built : ClassTable.build q.withBuiltins = .ok t) (h : Module.assemble sourceName t = .ok m) :
    ∃ pool, Module.constantsOf t (Module.complete t pool) = .ok m.constants ∧
      ∀ k ∈ t.classes, ∀ e ∈ k.expressions, ∃ f ∈ m.functions, (blockLabels f.listing).Nodup ∧
        transcript.Has ⟨t, k⟩ pool f.listing e := by
  obtain ⟨s, constants, main, emitted, pooled, _, rfl⟩ := assemble_made h
  have idle := emitUnit_wellFormed built
  rw [emitted] at idle
  obtain ⟨_, _, _, wellFormed⟩ := idle
  obtain ⟨functions, ⟨_, rfl⟩, covers⟩ :=
    Transcript.emitUnit_covers transcript_account transcript_lawful.toBounds built emitted
  refine ⟨s.pool, pooled, fun k hk e he => ?_⟩
  obtain ⟨f, hf, has⟩ := covers k hk e he
  obtain ⟨g, hg, rfl⟩ := List.mem_map.mp hf
  refine ⟨g, hg, ?_, has⟩
  rw [blockLabels_listing]
  have texts := (wellFormed g hg).labels
  exact List.Nodup.of_map Label.text (by rwa [List.map_map])

end Units

end ClassBackend.Llvm
