import ClassBackend.Proofs.Layout.Builtins
import ClassBackend.Proofs.Lowering.Sound
import ClassBackend.Proofs.Mips.Calls
import ClassBackend.Proofs.Mips.Routines

/-! The code of an expression on the MIPS machine. -/
namespace ClassBackend.Mips

open Meaning Machine Lowering

namespace Scenario

variable (X : Scenario) (F : List Int)

/-- The run begins where the code of the session ends, with these names in scope, these slots of the
frame in use, these words saved in some of them, and room for more. -/
structure Enters (s : Session backend) (names : List (String × Binding Int))
    (K : List (Slot backend)) (H : List (Int × Val)) (env : Env) (room : Nat) : Prop where
  scope : ∃ marks, s.scopes.Shows s.names names marks
  shape : ∃ O, Shape F s.target K O
  live : Live names K H
  room : K.length + room ≤ F.length + X.room
  pc : X.start.pc = s.target.code.size
  held : X.course.Held X.view X.start.cpu.mem
  image : ∀ a x, X.image a = some x → X.start.cpu.mem a = some x
  fp : X.start.cpu.get .fp = X.fp
  sp : X.start.cpu.get .sp = X.frameWord (top F K)
  self : X.start.cpu.get .s0 = X.view.place X.setting.self
  env : List.Forall₂ ((X.model F).Means ⟨[], X.start, X.view⟩) names env
  saved : ∀ e ∈ H, X.SlotHas ⟨[], X.start, X.view⟩ (.inr e.1) e.2

/-- The run has come to where the code of the session ends: the register holds the value, memory
holds the store, the slots hold the variables and what was saved in them, and what the run has
shown are the events of the store. -/
structure Leaves (s : Session backend) (names : List (String × Binding Int))
    (K : List (Slot backend)) (H : List (Int × Val)) (v : Reg) (x : Val) (w : World) (c : Point) :
    Prop where
  runs : X.site.engine.Runs X.start c.seen c.config
  pc : c.config.pc = s.target.code.size
  value : c.view.Rep x (c.config.cpu.get v)
  store : c.view.store = w.store
  grown : X.view.Extends c.view
  held : X.course.Held c.view c.config.cpu.mem
  fp : c.config.cpu.get .fp = X.fp
  sp : c.config.cpu.get .sp = X.frameWord (top F K)
  self : c.config.cpu.get .s0 = X.start.cpu.get .s0
  env : List.Forall₂ ((X.model F).Means c) names w.env
  saved : ∀ e ∈ H, X.SlotHas c (.inr e.1) e.2
  tells : X.course.Tells c.seen c.view w.store.trace

variable {X} {F}

theorem means_mono {V V' : View 32} {k : Call} {e : Event} (grown : V.Extends V')
    (h : X.means V k e) : X.means V' k e := by
  cases e with
  | branch b => exact h
  | allocate tag => exact h
  | call label recv args =>
    obtain ⟨takes, target, object, each⟩ := h
    refine ⟨takes, target, object.mono grown, fun i x hx => ?_⟩
    obtain ⟨y, hy, rep⟩ := each i x hx
    exact ⟨y, hy, rep.mono grown⟩
  | equality a b => exact ⟨h.1, h.2.1.mono grown, h.2.2.mono grown⟩
  | barrier o i =>
    obtain ⟨target, r, rfl, live, address⟩ := h
    refine ⟨target, r, rfl, Nat.lt_of_lt_of_le live grown.1, ?_⟩
    rw [grown.2 r live]
    exact address
  | abort kind file line => exact h

/-- From the laws of the machine to a run, for any arithmetic that the machine agrees with. -/
theorem lower_computes (p : Program) (ordinary : p.Ordinary)
    (built : ClassTable.build p.withBuiltins = .ok X.setting.classes)
    (current : X.setting.current ∈ X.setting.classes.classes)
    (calculates : X.Calculates) (framed : X.Framed) (formals : X.Formals F)
    (tables : X.Tables) (conventions : X.Conventions) (e : Expr) {s s' : Session backend} {v : Reg}
    (lowered : lower backend X.setting.context e s = .ok (v, s'))
    (placed : (X.model F).Placed s s') {names : List (String × Binding Int)}
    {K : List (Slot backend)} {H : List (Int × Val)} {env : Env}
    (start : X.Enters F s names K H env (depth e)) (rounds : Nat) :
    match evaluate X.setting rounds e ⟨env, X.view.store⟩ with
    | .ok (x, w) => ∃ c, X.Leaves F s' names K H v x w c
    | .error stop => ∃ os V, X.course.Stops os V stop := by
  have law : (X.model F).Lawful X.setting :=
    lawful framed formals tables conventions ⟨⟨_, built⟩, current⟩ calculates
  have plain : X.setting.Plain :=
    ⟨fun _ found => ClassTable.int_layout ordinary built found,
      fun _ found => ClassTable.bool_layout ordinary built found⟩
  have steady : X.course.Steady := fun _ _ _ _ grown => means_mono grown
  have ready : X.Ready ⟨[], X.start, X.view⟩ :=
    ⟨.start, start.held, start.image, start.fp, start.self⟩
  have room : K.length ≤ F.length + X.room := Nat.le_trans (Nat.le_add_right ..) start.room
  have stands : (X.model F).Stands (depth e) names K H .here [] [] s ⟨env, X.view.store⟩
      ⟨[], X.start, X.view⟩ :=
    ⟨⟨ready, rfl, room, start.sp, start.pc⟩, start.room, start.env, start.saved, by simp, by simp⟩
  have outcome := lower_arrives rounds law (fun _ => plain) ⟨⟨_, built⟩, current⟩ e lowered placed
    (Nat.le_refl _) start.scope start.shape start.live stands
  cases result : evaluate X.setting rounds e ⟨env, X.view.store⟩ with
  | ok r =>
    obtain ⟨x, w⟩ := r
    rw [result] at outcome
    obtain ⟨c, there⟩ := outcome
    have located := there.located
    refine ⟨c, located.along.runs, located.at_, ?_, located.store, located.along.extends,
      located.held, located.fp, located.sp, ?_, there.env, there.saved, ?_⟩
    · exact (there.values (v, x) (List.mem_singleton_self _)).2
    · rw [located.self, start.self]
      exact located.along.extends.2 _ start.held.self
    · rw [← located.store]
      exact located.along.tells steady
  | error stop =>
    rw [result] at outcome
    exact Course.stops_of_ends steady outcome

/-- What `lower` emits for an expression computes what the expression means. -/
theorem lower_preserves_meaning (p : Program) (ordinary : p.Ordinary)
    (built : ClassTable.build p.withBuiltins = .ok X.setting.classes)
    (current : X.setting.current ∈ X.setting.classes.classes)
    (arithmetic : X.setting.compute = compute) (framed : X.Framed) (formals : X.Formals F)
    (tables : X.Tables) (conventions : X.Conventions) (e : Expr) {s s' : Session backend} {v : Reg}
    (lowered : lower backend X.setting.context e s = .ok (v, s'))
    (placed : (X.model F).Placed s s') {names : List (String × Binding Int)}
    {K : List (Slot backend)} {H : List (Int × Val)} {env : Env}
    (start : X.Enters F s names K H env (depth e)) (rounds : Nat) :
    match evaluate X.setting rounds e ⟨env, X.view.store⟩ with
    | .ok (x, w) => ∃ c, X.Leaves F s' names K H v x w c
    | .error stop => ∃ os V, X.course.Stops os V stop := by
  have calculates : X.Calculates := fun _ _ _ _ => by rw [arithmetic]
  exact lower_computes p ordinary built current calculates framed formals tables conventions e
    lowered placed start rounds

end Scenario

section Gauge

/-- Numbers are added to the level, and other objects handed back. -/
def gaugeStep : Expr := .caseOf ⟨"Object", 4⟩ (.ident ⟨"Object", 4⟩ "x") [
  ⟨"o", "Object", .ident ⟨"Object", 5⟩ "o"⟩,
  ⟨"n", "Int", .assign ⟨"Int", 6⟩ "level"
    (.binary ⟨"Int", 6⟩ .plus (.ident ⟨"Int", 6⟩ "level") (.ident ⟨"Int", 6⟩ "n"))⟩]

def gauge : Program := ⟨[⟨"Main", some "Object", [
  .attribute "level" "Int" none,
  .method "step" [⟨"x", "Object"⟩] "Object" (some gaugeStep),
  .method "main" [] "Object" (some (.ident ⟨"Main", 7⟩ "self"))], "main.cl"⟩]⟩

theorem gauge_builds : (ClassTable.build gauge.withBuiltins).toOption.isSome = true := by
  decide +kernel

@[irreducible] def gaugeClasses : ClassTable :=
  (ClassTable.build gauge.withBuiltins).toOption.get gauge_builds

theorem gauge_built : ClassTable.build gauge.withBuiltins = .ok gaugeClasses := by
  unfold gaugeClasses
  exact ok_get gauge_builds

theorem gauge_finds : (gaugeClasses.find "Main").toOption.isSome = true := by
  unfold gaugeClasses
  decide +kernel

@[irreducible] def gaugeMain : ClassLayout := (gaugeClasses.find "Main").toOption.get gauge_finds

theorem gaugeMain_mem : gaugeMain ∈ gaugeClasses.classes := by
  unfold gaugeMain
  exact ClassTable.mem_of_find (ok_get gauge_finds)

def gaugeEntry : Session backend where
  names := ⟨["level", "x"]⟩
  scopes := ⟨[(⟨0⟩, [.field 0]), (⟨1⟩, [.stack 4])],
    [.symbol ⟨1⟩, .scope, .symbol ⟨0⟩, .scope]⟩
  target := {
    code := (.label (.symbol "Main.step") :: Frame.prologue).toArray
    frame := some (Frame.new 1) }

theorem gauge_lowers :
    (lower backend ⟨gaugeClasses, gaugeMain⟩ gaugeStep gaugeEntry).toOption.isSome = true := by
  decide +kernel

@[irreducible] def gaugeExit : Reg × Session backend :=
  (lower backend ⟨gaugeClasses, gaugeMain⟩ gaugeStep gaugeEntry).toOption.get gauge_lowers

theorem gauge_lowered :
    lower backend ⟨gaugeClasses, gaugeMain⟩ gaugeStep gaugeEntry = .ok gaugeExit := by
  unfold gaugeExit
  exact ok_get gauge_lowers

/-- `self`, the truth values, the pooled constants, the level and the argument. -/
def gaugeHeap : List Obj := [⟨5, [.ref (.obj 5)]⟩, ⟨3, [.word 0]⟩, ⟨3, [.word 1]⟩, ⟨2, [.word 7]⟩,
  ⟨4, [.ref (.obj 3), .text "main.cl"]⟩, ⟨2, [.word 30]⟩, ⟨2, [.word 12]⟩]

def gaugeSetting (ops : ArithOp → Int → Int → Calc) : Setting where
  classes := gaugeClasses
  current := gaugeMain
  self := 0
  oracle := ⟨fun _ _ _ _ => none, fun _ _ _ => false⟩
  literal
    | .bool b => if b then 2 else 1
    | .int _ => 3
    | .str _ => 4
  compute := ops

def gaugeSymbol (name : String) : BitVec 32 :=
  BitVec.ofNat 32 (4096 + 64 * ["bool_const0", "bool_const1", "int_const0", "str_const0",
    "Object_protObj", "IO_protObj", "Int_protObj", "Bool_protObj", "String_protObj", "Main_protObj",
    "Object_dispTab", "IO_dispTab", "Int_dispTab", "Bool_dispTab", "String_dispTab", "Main_dispTab",
    "class_objTab", "Object.copy", "_GenGC_Assign"].idxOf name)

def gaugeObjects : List (BitVec 32 × List (BitVec 32)) := [
  (0x10000, [5, 4, gaugeSymbol "Main_dispTab", 0x10020]),
  (gaugeSymbol "bool_const0", [3, 4, gaugeSymbol "Bool_dispTab", 0]),
  (gaugeSymbol "bool_const1", [3, 4, gaugeSymbol "Bool_dispTab", 1]),
  (gaugeSymbol "int_const0", [2, 4, gaugeSymbol "Int_dispTab", 7]),
  (gaugeSymbol "str_const0",
    [4, 5, gaugeSymbol "String_dispTab", gaugeSymbol "int_const0", 0x6e69616d]),
  (0x10020, [2, 4, gaugeSymbol "Int_dispTab", 30]),
  (0x10040, [2, 4, gaugeSymbol "Int_dispTab", 12])]

def gaugeWords : List (BitVec 32 × BitVec 32) :=
  gaugeObjects.flatMap fun p => Geometry.row ⟨4, gaugeSymbol, fun _ => False⟩ p.1 p.2

def gaugeView : View 32 := ⟨⟨gaugeHeap, []⟩, fun r => (gaugeObjects.map Prod.fst).getD r 0⟩

def gaugeImage : Memory 32 := .ofList (dataWords gaugeSymbol gaugeClasses.classes)

/-- The frame with the argument in it, the data section, and the objects. -/
def gaugeMemory : Memory 32 :=
  ((Memory.ofList [(0x7ffff004, 0x10040)]).or (.zeros 0x7fffefed 24)).or
    (gaugeImage.or (.ofList gaugeWords))

def gaugeSite : Site :=
  ⟨gaugeExit.2.target.code.toList, gaugeSymbol, routines gaugeSymbol [0x20000]⟩

def gaugeStart : Config where
  pc := gaugeEntry.target.code.size
  cpu := {
    regs := fun r => if r = .fp then 0x7ffff000 else if r = .sp then 0x7ffff000 - 12
      else if r = .s0 then 0x10000 else 0
    mem := gaugeMemory }

def gaugeRun (ops : ArithOp → Int → Int → Calc) : Scenario where
  setting := gaugeSetting ops
  pool := gaugeExit.2.pool
  site := gaugeSite
  fp := 0x7ffff000
  arguments := 1
  room := 2
  image := gaugeImage
  allowed _ := True
  start := gaugeStart
  view := gaugeView

variable (ops : ArithOp → Int → Int → Calc)

/-- What is checked of the scenario, word by word and call by call. -/
structure GaugeChecked : Prop where
  image : ∀ p ∈ dataWords gaugeSymbol gaugeClasses.classes, gaugeMemory p.1 = some p.2
  outside : ∀ p ∈ dataWords gaugeSymbol gaugeClasses.classes, 24 ≤ (p.1 - 0x7fffefed).toNat
  tabled : ∀ k ∈ gaugeClasses.classes, Tabled (gaugeRun compute).geometry gaugeImage k
  clear : ∀ p ∈ gaugeView.words,
    24 ≤ ((gaugeRun compute).geometry.word (gaugeView.place p.1) p.2 - 0x7fffefed).toNat ∧
    gaugeImage ((gaugeRun compute).geometry.word (gaugeView.place p.1) p.2) = none
  objects : ∀ p ∈ gaugeView.store.heap.zipIdx, Shown (gaugeRun compute).geometry gaugeClasses
    gaugeView gaugeMemory p.1 (gaugeView.place p.2)
  mapped : ∀ p ∈ gaugeView.words, (gaugeMemory
    ((gaugeRun compute).geometry.word (gaugeView.place p.1) p.2)).isSome = true
  apart : ∀ p ∈ gaugeView.words, ∀ q ∈ gaugeView.words,
    (gaugeRun compute).geometry.word (gaugeView.place p.1) p.2 =
      (gaugeRun compute).geometry.word (gaugeView.place q.1) q.2 → p = q
  bools : ∀ b, Pooled (gaugeRun compute).geometry (gaugeSetting compute).literal gaugeView
    (.bool b) (.bool b)
  ints : ∀ p ∈ gaugeExit.2.pool.ints.zipIdx, Pooled (gaugeRun compute).geometry
    (gaugeSetting compute).literal gaugeView (.int p.2) (.int p.1)
  strings : ∀ p ∈ gaugeExit.2.pool.strings.zipIdx, Pooled (gaugeRun compute).geometry
    (gaugeSetting compute).literal gaugeView (.str p.2) (.str p.1)
  truth : ∀ b, (gaugeView.store.heap[(gaugeSetting compute).literal (.bool b)]?).bind
    (fun o => o.cells[0]?) = some (.word (if b then 1 else 0))
  ended : (gaugeSite.engine.after 60 gaugeStart).isNone = true
  calls : ∀ k ∈ gaugeSite.engine.calls 60 gaugeStart,
    if k.target = gaugeSymbol Routine.objectCopy.symbol then
      (k.cpu.allocate [0x20000]).isSome = true ∧ k.cpu.get .a0 ≠ 0 ∧
        (gaugeImage (k.cpu.get .a0)).isSome = true
    else k.target ∉ (gaugeRun compute).callees
  copy : ∀ r ∈ [Routine.gcAssign, .equalityTest, .caseAbort, .caseAbort2, .dispatchAbort],
    gaugeSymbol r.symbol ≠ gaugeSymbol Routine.objectCopy.symbol
  barrier : ∀ r ∈ [Routine.caseAbort, .caseAbort2, .dispatchAbort],
    gaugeSymbol r.symbol ≠ gaugeSymbol Routine.gcAssign.symbol
  argument : gaugeMemory (0x7ffff000 + BitVec.ofInt 32 4) = some 0x10040
  register : gaugeExit.1 = .a0
  result : (evaluate (gaugeRun compute).setting 0 gaugeStep
      ⟨[("x", .stack (.obj 6)), ("level", .field 0)], (gaugeRun compute).view.store⟩).toOption.map
      (fun r => (r.1, r.2.store.heap, r.2.store.trace)) =
    some (.obj 7, gaugeHeap.set 0 ⟨5, [.ref (.obj 7)]⟩ ++ [⟨2, [.word 42]⟩],
      [.branch false, .branch false, .branch false, .allocate 2, .barrier (.obj 0) 0])

theorem gauge_checked : GaugeChecked where
  image := forall_of_all (by decide +kernel)
  outside := forall_of_all (by decide +kernel)
  tabled := by decide +kernel
  clear := by decide +kernel
  objects := by decide +kernel
  mapped := by decide +kernel
  apart := by decide +kernel
  bools := by decide +kernel
  ints := by decide +kernel
  strings := by decide +kernel
  truth := by decide +kernel
  ended := by decide +kernel
  calls := by decide +kernel
  copy := by decide +kernel
  barrier := by decide +kernel
  argument := by decide +kernel
  register := by decide +kernel
  result := by decide +kernel

theorem gauge_image {a x : BitVec 32} (h : gaugeImage a = some x) : gaugeMemory a = some x :=
  Memory.ofList_le (GaugeChecked.image gauge_checked) h

theorem gauge_spans : (gaugeRun ops).Spans 0x7fffefed 24 where
  floor := show (0x7fffefed : BitVec 32) = 0x7ffff000 + BitVec.ofInt 32 (-11 - 4 * (2 : Nat)) by
    decide
  bytes := rfl
  small := by decide

theorem gauge_framed : (gaugeRun ops).Framed := by
  refine (gauge_spans ops).framed fun a taken => ?_
  obtain ⟨p, hp, rfl⟩ := List.mem_map.mp (Memory.mem_of_ofList taken)
  exact GaugeChecked.outside gauge_checked p hp

theorem gauge_tables : (gaugeRun ops).Tables :=
  Scenario.Tables.of_tabled (GaugeChecked.tabled gauge_checked)

theorem gauge_clear : ∀ p ∈ gaugeView.words, ¬ (gaugeRun compute).geometry.reserved
    ((gaugeRun compute).geometry.word (gaugeView.place p.1) p.2) := by
  intro p hp reserved
  obtain ⟨outside, free⟩ := GaugeChecked.clear gauge_checked p hp
  rcases (gauge_spans compute).reserved reserved with inside | image
  · exact absurd inside (Nat.not_lt.mpr outside)
  · have taken : (gaugeImage _).isSome = true := image
    rw [free] at taken
    cases taken

theorem gauge_kept (a : BitVec 32) (reserved : (gaugeRun compute).geometry.reserved a) :
    (gaugeMemory a).isSome = true := by
  rcases (gauge_spans compute).reserved reserved with inside | image
  · exact Memory.or_left (Memory.or_right (Memory.zeros_isSome inside))
  · exact Memory.or_right (Memory.or_left image)

theorem gauge_held : (gaugeRun ops).course.Held gaugeView gaugeMemory := by
  have same : (gaugeRun ops).geometry = (gaugeRun compute).geometry := rfl
  show Holds (gaugeRun ops).geometry (gaugeSetting ops) gaugeExit.2.pool gaugeView gaugeMemory
  rw [same]
  have checked := gauge_checked
  exact Holds.of_lists (show 0 < 7 by decide)
    (fun c l => pooled_of_lists checked.bools checked.ints checked.strings)
    checked.truth checked.objects checked.mapped gauge_clear checked.apart gauge_kept

theorem gauge_conventions : (gaugeRun ops).Conventions := by
  have checked := gauge_checked
  exact Scenario.conventions_of_routines rfl ⟨checked.copy, checked.barrier⟩ (gauge_held ops)
    (Option.isNone_iff_eq_none.mp checked.ended) checked.calls

theorem gauge_placed : ((gaugeRun ops).model [4]).Placed gaugeEntry gaugeExit.2 :=
  ⟨⟨List.prefix_refl _, fun _ _ _ => trivial⟩, .refl _⟩

theorem gauge_enters : (gaugeRun ops).Enters [4] gaugeEntry [("x", .stack 4), ("level", .field 0)]
    [.inl 4] [] [("x", .stack (.obj 6)), ("level", .field 0)] (depth gaugeStep) := by
  have empty : SymbolTable.Shows (β := Binding Int) {} {} [] [] :=
    ⟨.nil, by simp, .nil, fun _ => rfl⟩
  have outer : SymbolTable.Shows _ _ [("level", Binding.field 0)] _ :=
    empty.pushScope.addSymbol rfl
  have inner : SymbolTable.Shows _ _ [("x", Binding.stack (4 : Int)), ("level", .field 0)] _ :=
    outer.pushScope.addSymbol rfl
  have sp : (0x7ffff000 - 12 : BitVec 32) = 0x7ffff000 + BitVec.ofInt 32 (-12) := by decide
  constructor
  · exact ⟨_, inner⟩
  · exact ⟨[], ⟨_, rfl, rfl⟩, rfl, .formals, by simp [gaugeEntry, Frame.prologue], by simp, .nil⟩
  · exact ⟨by simp [locals], by simp [locals], by simp⟩
  · exact show 3 ≤ 3 from Nat.le_refl _
  · rfl
  · exact gauge_held ops
  · exact fun a x => gauge_image
  · rfl
  · exact sp
  · rfl
  · have argument := GaugeChecked.argument gauge_checked
    exact .cons ⟨rfl, 0x10040, argument, show 6 < 7 by decide, rfl⟩ (.cons ⟨rfl, rfl⟩ .nil)
  · simp

/-- The level was 30 and the argument 12. -/
theorem gauge_preserves_meaning : gauge.Ordinary ∧ gaugeExit.1 = .a0 ∧
    ∃ w c, (gaugeRun compute).Leaves [4] gaugeExit.2 [("x", .stack 4), ("level", .field 0)]
        [.inl 4] [] .a0 (.obj 7) w c ∧
      w.store.heap = gaugeHeap.set 0 ⟨5, [.ref (.obj 7)]⟩ ++ [⟨2, [.word 42]⟩] ∧
      w.store.trace = [.branch false, .branch false, .branch false, .allocate 2,
        .barrier (.obj 0) 0] := by
  have checked := gauge_checked
  have ordinary : gauge.Ordinary := ⟨by decide, by decide, by decide⟩
  have lowered : lower backend ⟨gaugeClasses, gaugeMain⟩ gaugeStep gaugeEntry =
      .ok (.a0, gaugeExit.2) := by
    rw [gauge_lowered, ← checked.register]
  have outcome := Scenario.lower_preserves_meaning gauge ordinary gauge_built gaugeMain_mem rfl
    (gauge_framed compute) ⟨by decide, by decide⟩ (gauge_tables compute)
    (gauge_conventions compute) gaugeStep lowered (gauge_placed compute) (gauge_enters compute) 0
  have result := checked.result
  refine ⟨ordinary, checked.register, ?_⟩
  split at outcome
  · rename_i x w evaluated
    rw [evaluated] at result
    obtain ⟨rfl, heap, trace⟩ : x = .obj 7 ∧ _ ∧ _ := by
      simpa only [Except.toOption, Option.map_some, Option.some.injEq, Prod.mk.injEq] using result
    obtain ⟨c, leaves⟩ := outcome
    exact ⟨w, c, leaves, heap, trace⟩
  · rename_i stop evaluated
    rw [evaluated] at result
    cases result

end Gauge

end ClassBackend.Mips
