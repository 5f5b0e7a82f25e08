import ClassBackend.Proofs.Llvm.Routines
import ClassBackend.Proofs.Llvm.Sound
import ClassBackend.Proofs.Mips.Sound

/-! The code of the two backends for one expression: the runs show the same and come to the same.
Both are compared with the evaluation, on arithmetic that the two machines agree about. -/
namespace ClassBackend

open Meaning Machine Lowering

def Meaning.exactly : ArithOp → Int → Int → Int
  | .add, a, b => a + b
  | .sub, a, b => a - b
  | .mul, a, b => a * b
  | .div, a, b => a.tdiv b

/-- Arithmetic on integers, defined where the result is a signed word of 32 bits and the divisor is
not zero. -/
def Meaning.narrow (op : ArithOp) (a b : Int) : Calc :=
  if (op = .div ∧ b = 0) ∨ Mips.Word.fits (exactly op a b) = false then .undefined
  else .result (exactly op a b)

section

variable {op : ArithOp} {a b : Int}

theorem narrow_defined (h : narrow op a b ≠ .undefined) :
    narrow op a b = .result (exactly op a b) ∧ (op = .div → b ≠ 0) ∧
      Mips.Word.fits (exactly op a b) = true := by
  unfold narrow at h ⊢
  by_cases outside : (op = .div ∧ b = 0) ∨ Mips.Word.fits (exactly op a b) = false
  · rw [if_pos outside] at h
    exact absurd rfl h
  · obtain ⟨divisor, fits⟩ := not_or.mp outside
    rw [if_neg outside]
    exact ⟨rfl, fun div zero => divisor ⟨div, zero⟩, by simpa using fits⟩

theorem narrow_mips (h : narrow op a b ≠ .undefined) : narrow op a b = Mips.compute op a b := by
  obtain ⟨result, divisor, fits⟩ := narrow_defined h
  rw [result]
  cases op with
  | add | sub =>
    unfold exactly at fits
    simp only [exactly, Mips.compute, fits, if_true]
  | mul =>
    change Mips.Word.fits (a * b) = true at fits
    simp only [Mips.Word.fits, Bool.and_eq_true, decide_eq_true_eq] at fits
    have small := Int.bmod_eq_of_le (n := a * b) (m := 4294967296) (by omega) (by omega)
    simp only [exactly, Mips.compute, small]
  | div =>
    unfold exactly at fits
    simp only [exactly, Mips.compute, divisor rfl, fits, if_true, if_false]

theorem narrow_llvm (h : narrow op a b ≠ .undefined) : narrow op a b = Llvm.compute op a b := by
  obtain ⟨result, divisor, fits⟩ := narrow_defined h
  simp only [Mips.Word.fits, Bool.and_eq_true, decide_eq_true_eq] at fits
  rw [result]
  have small := Int.bmod_eq_of_le (n := exactly op a b) (m := 18446744073709551616) (by omega)
    (by omega)
  cases op with
  | add | sub | mul =>
    unfold exactly at small
    simp only [exactly, Llvm.compute, small]
  | div =>
    simp only [exactly] at fits
    have low : ¬ 9223372036854775808 ≤ a.tdiv b := by omega
    simp only [exactly, Llvm.compute, divisor rfl, low, or_self, if_false]

end

variable (X : Mips.Scenario) (Y : Llvm.Scenario)

/-- The machines start from the same objects, with one oracle for code outside. -/
structure Counterparts : Prop where
  setting : Y.setting = X.setting
  store : Y.view.store = X.view.store

def Alike (V : View 32) (W : View 64) : Sight Mips.Call → Sight Llvm.Call → Prop
  | .branch b, .branch b' => b = b'
  | .call k, .call k' => ∃ e, X.means V k e ∧ Y.means W k' e
  | _, _ => False

variable {X Y}

theorem alike_of_shows {V : View 32} {W : View 64} {o : Sight Mips.Call} {o' : Sight Llvm.Call}
    {e : Event} (h : X.course.Shows V o e) (h' : Y.course.Shows W o' e) : Alike X Y V W o o' := by
  cases o with
  | branch b =>
    cases e <;> try contradiction
    cases o' with
    | branch b' => exact Eq.trans h (Eq.symm h')
    | call k' => exact h'
  | call k =>
    cases o' with
    | branch b' => cases e <;> contradiction
    | call k' => exact ⟨e, h, h'⟩

/-- Runs that tell one trace show the same. -/
theorem tells_alike (counterparts : Counterparts X Y) {os : List (Sight Mips.Call)}
    {os' : List (Sight Llvm.Call)} {V : View 32} {W : View 64} {trace : List Event}
    (h : X.course.Tells os V trace) (h' : Y.course.Tells os' W trace) :
    List.Forall₂ (Alike X Y V W) os os' := by
  obtain ⟨es, told, shows⟩ := h
  obtain ⟨es', told', shows'⟩ := h'
  have start : Y.course.view.store.trace = X.course.view.store.trace :=
    congrArg Store.trace counterparts.store
  rw [told, start] at told'
  obtain rfl := List.append_cancel_left told'
  clear told told'
  induction shows generalizing os' with
  | nil =>
    cases shows'
    exact .nil
  | cons first _ ih =>
    cases shows' with
    | cons first' rest' => exact .cons (alike_of_shows first first') (ih rest')

/-- Where the evaluation is defined, the runs of the two codes make corresponding calls and take the
same branches, and come to the same value, the same objects and the same variables. -/
theorem lower_agree {F : List Int} (p : Program) (ordinary : p.Ordinary)
    (built : ClassTable.build p.withBuiltins = .ok X.setting.classes)
    (current : X.setting.current ∈ X.setting.classes.classes)
    (arithmetic : X.setting.compute = narrow) (counterparts : Counterparts X Y)
    (framed : X.Framed) (formals : X.Formals F) (tables : X.Tables) (conventions : X.Conventions)
    (framed' : Y.Framed) (tables' : Y.Tables) (conventions' : Y.Conventions) (e : Expr)
    {s s' : Session Mips.backend} {v : Mips.Reg}
    (lowered : lower Mips.backend X.setting.context e s = .ok (v, s'))
    (placed : (X.model F).Placed s s')
    {u u' : Session Llvm.backend} {v' : Llvm.Operand}
    (lowered' : lower Llvm.backend X.setting.context e u = .ok (v', u'))
    (placed' : (Y.model 0).Placed u u')
    {names : List (String × Binding Int)} {K : List (Slot Mips.backend)} {H : List (Int × Val)}
    {names' : List (String × Binding Llvm.Operand)} {K' : List (Slot Llvm.backend)}
    {H' : List (Llvm.Operand × Val)} {env : Env}
    (start : X.Enters F s names K H env (depth e)) (start' : Y.Enters u names' K' H' env)
    (rounds : Nat) :
    match evaluate X.setting rounds e ⟨env, X.view.store⟩ with
    | .ok (x, w) => ∃ c d, X.Leaves F s' names K H v x w c ∧ Y.Leaves u' names' K' H' v' x w d ∧
      List.Forall₂ (Alike X Y c.view d.view) c.seen d.seen
    | .error .wrong => True
    | .error stop => ∃ os V os' W, X.course.Stops os V stop ∧ Y.course.Stops os' W stop ∧
      List.Forall₂ (Alike X Y V W) os os' := by
  have shared := counterparts.setting
  have first := X.lower_computes p ordinary built current
    (fun _ _ _ => by rw [arithmetic]; exact narrow_mips) framed formals tables conventions e
    lowered placed start rounds
  have second := Y.lower_computes p ordinary (shared ▸ built) (shared ▸ current)
    (fun _ _ _ => by rw [shared, arithmetic]; exact narrow_llvm) framed' tables' conventions' e
    (shared ▸ lowered') placed' start' rounds
  rw [shared, counterparts.store] at second
  split
  · rename_i x w result
    rw [result] at first second
    obtain ⟨c, there⟩ := first
    obtain ⟨d, there'⟩ := second
    exact ⟨c, d, there, there', tells_alike counterparts there.tells there'.tells⟩
  · trivial
  · rename_i stop defined result
    rw [result] at first second
    obtain ⟨os, V, stops⟩ := first
    obtain ⟨os', W, stops'⟩ := second
    refine ⟨os, V, os', W, stops, stops', ?_⟩
    cases stop with
    | halted trace =>
      obtain ⟨_, _, _, _, _, _, tells⟩ := stops
      obtain ⟨_, _, _, _, _, _, tells'⟩ := stops'
      exact tells_alike counterparts tells tells'
    | trapped trace =>
      obtain ⟨_, _, _, tells⟩ := stops
      obtain ⟨_, _, _, tells'⟩ := stops'
      exact tells_alike counterparts tells tells'
    | exhausted trace =>
      obtain ⟨_, _, tells⟩ := stops
      obtain ⟨_, _, tells'⟩ := stops'
      exact tells_alike counterparts tells tells'
    | wrong => exact (defined rfl).elim

section Gauge

namespace Llvm

/-- Inside the method of the gauge, after its argument has got a slot. -/
def gaugeEntry : Session backend where
  names := ⟨["level", "x"]⟩
  scopes := ⟨[(⟨0⟩, [.field 0]), (⟨1⟩, [.stack (.temp ⟨1⟩)])],
    [.symbol ⟨1⟩, .scope, .symbol ⟨0⟩, .scope]⟩
  target := {
    fresh := ⟨2⟩
    function := some ⟨"Main.step", 1, {
      allocas := #[⟨1⟩]
      current := { label := .entry, instrs := #[.store .ptr (.arg 0) (.temp ⟨1⟩)] } }⟩ }

theorem gauge_opens : ((lower backend ⟨Mips.gaugeClasses, Mips.gaugeMain⟩ Mips.gaugeStep
    gaugeEntry).toOption.bind fun r => r.2.target.body?).isSome = true := by
  decide +kernel

theorem gauge_lowers : (lower backend ⟨Mips.gaugeClasses, Mips.gaugeMain⟩ Mips.gaugeStep
    gaugeEntry).toOption.isSome = true :=
  Option.isSome_of_isSome_bind gauge_opens

@[irreducible] def gaugeExit : Operand × Session backend :=
  (lower backend ⟨Mips.gaugeClasses, Mips.gaugeMain⟩ Mips.gaugeStep gaugeEntry).toOption.get
    gauge_lowers

theorem gauge_lowered :
    lower backend ⟨Mips.gaugeClasses, Mips.gaugeMain⟩ Mips.gaugeStep gaugeEntry =
      .ok gaugeExit := by
  unfold gaugeExit
  exact ok_get gauge_lowers

theorem gauge_opened : gaugeExit.2.target.body?.isSome = true := by
  have opens := gauge_opens
  rwa [gauge_lowered, Except.toOption, Option.bind_some] at opens

@[irreducible] def gaugeBody : Body := gaugeExit.2.target.body?.get gauge_opened

theorem gauge_body : gaugeExit.2.target.body? = some gaugeBody := by
  unfold gaugeBody
  exact (Option.some_get gauge_opened).symm

def gaugeSymbol (name : String) : BitVec 64 :=
  BitVec.ofNat 64 (4096 + 64 * ["bool_const0", "bool_const1", "int_const0", "str_const0",
    "Object_dispTab", "IO_dispTab", "Int_dispTab", "Bool_dispTab", "String_dispTab", "Main_dispTab",
    "_gc_alloc", "_gc_write_barrier", "class_objTab"].idxOf name)

def gaugeObjects : List (BitVec 64 × List (BitVec 64)) := [
  (0x10000, [5, 32, gaugeSymbol "Main_dispTab", 0x10040]),
  (gaugeSymbol "bool_const0", [3, 32, gaugeSymbol "Bool_dispTab", 0]),
  (gaugeSymbol "bool_const1", [3, 32, gaugeSymbol "Bool_dispTab", 1]),
  (gaugeSymbol "int_const0", [2, 32, gaugeSymbol "Int_dispTab", 7]),
  (gaugeSymbol "str_const0",
    [4, 40, gaugeSymbol "String_dispTab", gaugeSymbol "int_const0", 0x14000]),
  (0x10040, [2, 32, gaugeSymbol "Int_dispTab", 30]),
  (0x10080, [2, 32, gaugeSymbol "Int_dispTab", 12])]

def gaugeWords : List (BitVec 64 × BitVec 64) :=
  gaugeObjects.flatMap fun p => Geometry.row ⟨slotSize, gaugeSymbol, fun _ => False⟩ p.1 p.2

def gaugeView : View 64 :=
  ⟨⟨Mips.gaugeHeap, []⟩, fun r => (gaugeObjects.map Prod.fst).getD r 0⟩

def gaugeImage : Memory 64 := .ofList (tableWords gaugeSymbol Mips.gaugeClasses.classes)

def gaugeSlot (t : Temp) : BitVec 64 := BitVec.ofNat 64 (0x7fff0000 + 8 * t.id)

/-- The slots, the first of which holds the argument, the tables, and the objects. -/
def gaugeMemory : Memory 64 :=
  (Memory.ofList ((gaugeSlot ⟨1⟩, 0x10080) ::
    gaugeBody.allocas.toList.map fun t => (gaugeSlot t, 0))).or
      (gaugeImage.or (.ofList gaugeWords))

def gaugeRun : Scenario where
  setting := Mips.gaugeSetting narrow
  pool := gaugeExit.2.pool
  site := {
    body := gaugeBody
    structs := Module.structsOf Mips.gaugeClasses
    symbol := gaugeSymbol
    self := 0x10000
    argument := fun _ => 0x10080
    outside := routines gaugeSymbol [0x20000] }
  slotAt := gaugeSlot
  image := gaugeImage
  allowed _ _ := True
  start := ⟨.entry, 1, .entry, gaugeSlot, gaugeMemory⟩
  view := gaugeView

/-- What is checked of the scenario, word by word and call by call. -/
structure GaugeChecked : Prop where
  image : ∀ p ∈ tableWords gaugeSymbol Mips.gaugeClasses.classes, gaugeMemory p.1 = some p.2
  distinct : ∀ t ∈ gaugeBody.allocas.toList, ∀ q ∈ gaugeBody.allocas.toList,
    gaugeSlot t = gaugeSlot q → t = q
  outside : ∀ t ∈ gaugeBody.allocas.toList, gaugeImage (gaugeSlot t) = none
  filled : ∀ t ∈ gaugeBody.allocas.toList, (gaugeMemory (gaugeSlot t)).isSome = true
  tabled : ∀ k ∈ Mips.gaugeClasses.classes, Tabled gaugeRun.geometry gaugeImage k
  clear : ∀ p ∈ gaugeView.words, (∀ t ∈ gaugeBody.allocas.toList,
    gaugeRun.geometry.word (gaugeView.place p.1) p.2 ≠ gaugeSlot t) ∧
      gaugeImage (gaugeRun.geometry.word (gaugeView.place p.1) p.2) = none
  objects : ∀ p ∈ gaugeView.store.heap.zipIdx, Shown gaugeRun.geometry Mips.gaugeClasses
    gaugeView gaugeMemory p.1 (gaugeView.place p.2)
  mapped : ∀ p ∈ gaugeView.words,
    (gaugeMemory (gaugeRun.geometry.word (gaugeView.place p.1) p.2)).isSome = true
  apart : ∀ p ∈ gaugeView.words, ∀ q ∈ gaugeView.words,
    gaugeRun.geometry.word (gaugeView.place p.1) p.2 =
      gaugeRun.geometry.word (gaugeView.place q.1) q.2 → p = q
  bools : ∀ b, Pooled gaugeRun.geometry gaugeRun.setting.literal gaugeView (.bool b) (.bool b)
  ints : ∀ p ∈ gaugeExit.2.pool.ints.zipIdx, Pooled gaugeRun.geometry
    gaugeRun.setting.literal gaugeView (.int p.2) (.int p.1)
  strings : ∀ p ∈ gaugeExit.2.pool.strings.zipIdx, Pooled gaugeRun.geometry
    gaugeRun.setting.literal gaugeView (.str p.2) (.str p.1)
  truth : ∀ b, (gaugeView.store.heap[gaugeRun.setting.literal (.bool b)]?).bind
    (fun o => o.cells[0]?) = some (.word (if b then 1 else 0))
  ended : (gaugeRun.site.engine.after 60 gaugeRun.start).isNone = true
  calls : ∀ k ∈ gaugeRun.site.engine.calls 60 gaugeRun.start, k.target ∉ gaugeRun.callees ∧
    (k.target = gaugeSymbol Routine.gcAlloc.symbol → (k.allocate [0x20000]).isSome = true)
  routines : gaugeRun.Distinct
  argument : gaugeMemory (gaugeSlot ⟨1⟩) = some 0x10080
  result : (evaluate (Mips.gaugeRun narrow).setting 0 Mips.gaugeStep
      ⟨[("x", .stack (.obj 6)), ("level", .field 0)],
        (Mips.gaugeRun narrow).view.store⟩).toOption.map
      (fun r => (r.1, r.2.store.heap, r.2.store.trace)) =
    some (.obj 7, Mips.gaugeHeap.set 0 ⟨5, [.ref (.obj 7)]⟩ ++ [⟨2, [.word 42]⟩],
      [.branch false, .branch false, .branch false, .allocate 2, .barrier (.obj 0) 0])

theorem gauge_checked : GaugeChecked where
  image := forall_of_all (by decide +kernel)
  distinct := by decide +kernel
  outside := by decide +kernel
  filled := by decide +kernel
  tabled := by decide +kernel
  clear := by decide +kernel
  objects := by decide +kernel
  mapped := by decide +kernel
  apart := by decide +kernel
  bools := by decide +kernel
  ints := by decide +kernel
  strings := by decide +kernel
  truth := by decide +kernel
  ended := by decide +kernel
  calls := by decide +kernel
  routines := ⟨by decide +kernel, by decide +kernel⟩
  argument := by decide +kernel
  result := by decide +kernel

theorem gauge_image {a x : BitVec 64} (h : gaugeImage a = some x) : gaugeMemory a = some x :=
  Memory.ofList_le (GaugeChecked.image gauge_checked) h

theorem gauge_framed : gaugeRun.Framed := by
  have checked := gauge_checked
  constructor
  · exact fun t ht q hq =>
      checked.distinct t (Array.mem_toList_iff.mpr ht) q (Array.mem_toList_iff.mpr hq)
  · exact fun t ht => checked.outside t (Array.mem_toList_iff.mpr ht)

theorem gauge_tables : gaugeRun.Tables :=
  Scenario.Tables.of_tabled rfl (GaugeChecked.tabled gauge_checked)

theorem gauge_clear : ∀ p ∈ gaugeView.words,
    ¬ gaugeRun.geometry.reserved (gaugeRun.geometry.word (gaugeView.place p.1) p.2) := by
  intro p hp reserved
  obtain ⟨apart, free⟩ := GaugeChecked.clear gauge_checked p hp
  rcases reserved with ⟨t, ht, same⟩ | image
  · exact apart t (Array.mem_toList_iff.mpr ht) same
  · have taken : (gaugeImage _).isSome = true := image
    rw [free] at taken
    cases taken

theorem gauge_kept (a : BitVec 64) (reserved : gaugeRun.geometry.reserved a) :
    (gaugeMemory a).isSome = true := by
  rcases reserved with ⟨t, ht, rfl⟩ | image
  · exact GaugeChecked.filled gauge_checked t (Array.mem_toList_iff.mpr ht)
  · exact Memory.or_right (Memory.or_left image)

theorem gauge_held : gaugeRun.course.Held gaugeView gaugeMemory := by
  have checked := gauge_checked
  exact Holds.of_lists (show 0 < 7 by decide)
    (fun c l => pooled_of_lists checked.bools checked.ints checked.strings)
    checked.truth checked.objects checked.mapped gauge_clear checked.apart gauge_kept

theorem gauge_conventions : gaugeRun.Conventions := by
  have checked := gauge_checked
  exact Scenario.conventions_of_routines rfl checked.routines
    (Option.isNone_iff_eq_none.mp checked.ended) checked.calls

theorem gauge_placed : (gaugeRun.model 0).Placed gaugeEntry gaugeExit.2 :=
  ⟨⟨_, _, rfl, gauge_body, .refl _ _, fun _ _ _ _ => trivial⟩, .refl _⟩

theorem gauge_enters : gaugeRun.Enters gaugeEntry [("x", .stack (.temp ⟨1⟩)), ("level", .field 0)]
    [.inl (.temp ⟨1⟩)] [] [("x", .stack (.obj 6)), ("level", .field 0)] := by
  have empty : SymbolTable.Shows (β := Binding Operand) {} {} [] [] :=
    ⟨.nil, by simp, .nil, fun _ => rfl⟩
  have outer : SymbolTable.Shows _ _ [("level", Binding.field 0)] _ :=
    empty.pushScope.addSymbol rfl
  have inner : SymbolTable.Shows _ _
      [("x", Binding.stack (Operand.temp ⟨1⟩)), ("level", .field 0)] _ :=
    outer.pushScope.addSymbol rfl
  constructor
  · exact ⟨_, inner⟩
  · refine ⟨[], ⟨_, rfl, ⟨?_, ?_, ?_⟩, ?_, by simp⟩, by simp, .nil⟩
    · simp [Builder.labels, Builder.blocks]
    · simp [Builder.labels, Builder.blocks]
    · decide
    · simp
  · exact ⟨by simp [locals], by simp [locals], by simp⟩
  · simp [Scenario.Firm]
  · exact ⟨_, rfl, rfl, rfl⟩
  · exact gauge_held
  · exact fun a x => gauge_image
  · exact fun q _ => rfl
  · rfl
  · have argument := GaugeChecked.argument gauge_checked
    exact .cons ⟨rfl, 0x10080, argument, show 6 < 7 by decide, rfl⟩ (.cons ⟨rfl, rfl⟩ .nil)
  · simp

end Llvm

theorem gauge_counterparts : Counterparts (Mips.gaugeRun narrow) Llvm.gaugeRun := ⟨rfl, rfl⟩

/-- The level was 30 and the argument 12. -/
theorem gauge_agree : Mips.gauge.Ordinary ∧ Mips.gaugeExit.1 = .a0 ∧ ∃ w c d,
    (Mips.gaugeRun narrow).Leaves [4] Mips.gaugeExit.2 [("x", .stack 4), ("level", .field 0)]
      [.inl 4] [] .a0 (.obj 7) w c ∧
    Llvm.gaugeRun.Leaves Llvm.gaugeExit.2 [("x", .stack (.temp ⟨1⟩)), ("level", .field 0)]
      [.inl (.temp ⟨1⟩)] [] Llvm.gaugeExit.1 (.obj 7) w d ∧
    w.store.heap = Mips.gaugeHeap.set 0 ⟨5, [.ref (.obj 7)]⟩ ++ [⟨2, [.word 42]⟩] ∧
    w.store.trace = [.branch false, .branch false, .branch false, .allocate 2,
      .barrier (.obj 0) 0] ∧
    List.Forall₂ (Alike (Mips.gaugeRun narrow) Llvm.gaugeRun c.view d.view) c.seen d.seen := by
  have checked := Mips.gauge_checked
  have ordinary : Mips.gauge.Ordinary := ⟨by decide, by decide, by decide⟩
  have lowered : lower Mips.backend ⟨Mips.gaugeClasses, Mips.gaugeMain⟩ Mips.gaugeStep
      Mips.gaugeEntry = .ok (.a0, Mips.gaugeExit.2) := by
    rw [Mips.gauge_lowered, ← checked.register]
  have outcome := lower_agree Mips.gauge ordinary Mips.gauge_built Mips.gaugeMain_mem rfl
    gauge_counterparts (Mips.gauge_framed narrow) ⟨by decide, by decide⟩ (Mips.gauge_tables narrow)
    (Mips.gauge_conventions narrow) Llvm.gauge_framed Llvm.gauge_tables Llvm.gauge_conventions
    Mips.gaugeStep lowered (Mips.gauge_placed narrow) Llvm.gauge_lowered Llvm.gauge_placed
    (Mips.gauge_enters narrow) Llvm.gauge_enters 0
  have result := Llvm.GaugeChecked.result Llvm.gauge_checked
  refine ⟨ordinary, checked.register, ?_⟩
  cases evaluated : evaluate (Mips.gaugeRun narrow).setting 0 Mips.gaugeStep
      ⟨[("x", .stack (.obj 6)), ("level", .field 0)], (Mips.gaugeRun narrow).view.store⟩ with
  | ok r =>
    obtain ⟨x, w⟩ := r
    rw [evaluated] at result outcome
    obtain ⟨rfl, heap, trace⟩ : x = .obj 7 ∧ _ ∧ _ := by
      simpa only [Except.toOption, Option.map_some, Option.some.injEq, Prod.mk.injEq] using result
    obtain ⟨c, d, leaves, leaves', alike⟩ := outcome
    exact ⟨w, c, d, leaves, leaves', heap, trace, alike⟩
  | error stop =>
    rw [evaluated] at result
    cases result

end Gauge

end ClassBackend
