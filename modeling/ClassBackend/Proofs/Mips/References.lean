import ClassBackend.Proofs.Account.Laws
import ClassBackend.Proofs.Account.Unit
import ClassBackend.Proofs.Mips.Appending

/-! The account of names in the code of the MIPS backend: what instructions refer to, and which
labels stand in the code. -/
namespace ClassBackend.Mips

open Lowering

def Routine.all : List Routine := [
  .objectCopy, .equalityTest, .caseAbort, .caseAbort2, .dispatchAbort, .gcAssign, .gcInit,
  .gcCollect]

theorem Routine.mem_all (r : Routine) : r ∈ Routine.all := by cases r <;> decide

def fixedSymbols : List String := [
  "_int_tag", "_bool_tag", "_string_tag",
  "_MemMgr_INITIALIZER", "_MemMgr_COLLECTOR", "_MemMgr_TEST",
  Linkage.classNames, Linkage.classObjects, "heap_start"]

def vocabulary : Vocabulary where
  artifacts := [.initializer, .dispatchTable, .prototype]
  others := fixedSymbols ++ Routine.all.map Routine.symbol

abbrev anywhere : Label → Prop := fun _ => True

def Label.symbol? : Label → Option String
  | .symbol s => some s
  | .block _ => none

variable {t : ClassTable} {w w' u : Directory} {s s' : State} {is : List Instr} {i : Instr}
variable {α : Type} {m : Asm α} {p : Pool}

structure Refers (t : ClassTable) (w : Directory) (s : State) : Prop where
  references : ∀ i ∈ s.code.toList, ∀ r, i.reference? = some r → Nameable vocabulary t w.pool r
  symbols : (codeLabels s.code.toList).filterMap Label.symbol? = w.labels
  hints : ∀ b, .block b ∈ codeLabels s.code.toList → b.hint ∈ blockHints
  known : ∀ i ∈ s.code.toList, i.known = true

theorem Refers.mono (h : Refers t w s) (known : w.Le w') : Refers t w' s where
  references i hi r hr := (h.references i hi r hr).mono known.pool
  symbols := h.symbols.trans known.labels
  hints := h.hints
  known := h.known

theorem nameable_common (w : Directory) : Common (Nameable vocabulary t w.pool) where
  routine r := .other (List.mem_append_right _ (List.mem_map_of_mem r.mem_all))
  bool b := .const (l := .bool b) rfl
  classObjects := .other (by decide)

theorem nameable_const {c : Const} (h : w.Holds c) : Nameable vocabulary t w.pool c.label :=
  h.elim fun _ => .const

theorem nameable_prototype {k : ClassLayout} (hk : k ∈ t.classes) :
    Nameable vocabulary t p (Linkage.prototype k.name) := .artifact (a := .prototype) hk (by decide)

theorem nameable_initializer {k : ClassLayout} (hk : k ∈ t.classes) :
    Nameable vocabulary t p (Linkage.initializer k.name) :=
  .artifact (a := .initializer) hk (by decide)

theorem nameable_label {label : String} (h : t.Labels label) : Nameable vocabulary t p label := by
  obtain ⟨k, hk, m, hm, rfl⟩ := h
  exact .method hk hm

theorem Refers.append (h : Refers t w s) (code : s'.code.toList = s.code.toList ++ is)
    (silent : ∀ i ∈ is, Silent (Nameable vocabulary t w.pool) anywhere i) : Refers t w s' := by
  have labels : codeLabels s'.code.toList = codeLabels s.code.toList := by
    rw [code, codeLabels_append, codeLabels_silent silent, List.append_nil]
  refine ⟨fun i hi r hr => ?_, labels ▸ h.symbols, labels ▸ h.hints, fun i hi => ?_⟩
  · rw [code, List.mem_append] at hi
    rcases hi with old | new
    · exact h.references i old r hr
    · exact (silent i new).reference r hr
  · rw [code, List.mem_append] at hi
    exact hi.elim (h.known i) fun new => (silent i new).known

theorem Refers.place (h : Refers t w s) (l : Label)
    (hinted : ∀ b, l = .block b → b.hint ∈ blockHints) :
    Refers t ⟨w.pool, w.labels ++ l.symbol?.toList⟩ (s.add [.label l]) := by
  have labels : codeLabels (s.add [.label l]).code.toList = codeLabels s.code.toList ++ [l] := by
    rw [State.add_code, codeLabels_append]
    rfl
  refine ⟨fun i hi r hr => ?_, ?_, fun b hb => ?_, fun i hi => ?_⟩
  · rw [State.add_code, List.mem_append] at hi
    rcases hi with old | new
    · exact h.references i old r hr
    · cases List.mem_singleton.mp new
      cases hr
  · rw [labels, List.filterMap_append, h.symbols]
    cases l <;> rfl
  · rw [labels, List.mem_append, List.mem_singleton] at hb
    rcases hb with old | new
    · exact h.hints b old
    · exact hinted b new.symm
  · rw [State.add_code, List.mem_append] at hi
    rcases hi with old | new
    · exact h.known i old
    · cases List.mem_singleton.mp new
      rfl

/-- The code and the pool of emission are those of the directory. -/
structure Stands (t : ClassTable) (w : Directory) (p : Pool) (s : State) : Prop where
  pool : w.pool = p
  measured : p.Measured
  refers : Refers t w s

@[reducible] def naming (t : ClassTable) : Account backend where
  World := Directory
  le := Directory.Le
  later := Directory.Le
  idle L p s := Stands t ⟨p, L⟩ p s
  inside := Stands t
  shut := Stands t
  frame w L _ := w.labels = L
  const := Directory.Holds
  value _ _ := True
  raw _ _ := True
  slot _ _ := True
  saved _ _ := True
  entered w b u := b.hint ∈ blockHints ∧ u.Le w
  arm _ _ _ := True
  cls k := k ∈ t.classes
  label := t.Labels

theorem naming_ordered : (naming t).Ordered where
  refl := Directory.Le.refl
  trans := Directory.Le.trans
  later_trans := Directory.Le.trans
  later h := h
  const known h := h.mono known
  value _ _ := trivial
  raw _ _ := trivial
  slot _ _ := trivial
  saved _ _ := trivial
  frame known h := known.labels.symm.trans h
  entered known h := ⟨h.1, h.2.trans known⟩
  arm _ _ := trivial

section Laws

theorem Appends.holds (h : Appends (Nameable vocabulary t w.pool) anywhere m)
    (there : Stands t w p s) {a : α} (run : m s = .ok (a, s')) : Stands t w p s' := by
  obtain ⟨_, is, code, silent⟩ := h s a s' run
  exact ⟨there.pool, there.measured, there.refers.append code silent⟩

theorem Appends.keeps (h : Appends (Nameable vocabulary t w.pool) anywhere m) :
    (naming t).Keeps w m (naming t).whatever :=
  fun _ _ _ _ there run => ⟨w, .refl w, h.holds there run, trivial⟩

theorem Appends.shuts (h : Appends (Nameable vocabulary t w.pool) anywhere m) :
    (naming t).Shuts w m (naming t).whatever :=
  fun _ _ _ _ there run => ⟨w, .refl w, h.holds there run, trivial⟩

theorem naming_storage : (naming t).Storage where
  self := trivial
  void := trivial
  bool := Directory.holds_bool _ _
  pool {w _ q _} there grown measured _ := ⟨⟨q, w.labels⟩, ⟨there.pool ▸ grown, rfl⟩,
    ⟨rfl, measured there.measured, there.refers.mono ⟨there.pool ▸ grown, rfl⟩⟩,
    fun _ l h => ⟨l, h⟩⟩
  constant h := (Appends.constant (nameable_const h)).keeps
  allocLocal _ := (Appends.push _).keeps
  freeLocal _ := (Appends.discard _).keeps
  loadLocal _ := (Appends.loadLocal _).keeps
  storeLocal _ _ := (Appends.plain rfl rfl rfl rfl).keeps
  loadField _ _ := (Appends.loadField _ _).keeps
  storeField _ _ _ := (Appends.storeField _ _ _).keeps
  storeNative _ _ := (Appends.storeField _ _ _).keeps
  writeBarrier {w _ _ _} _ _ := (Appends.writeBarrier (nameable_common w) _ _).keeps
  preserve _ := (Appends.push _).keeps
  restore _ := (Appends.restore _).keeps

theorem naming_words : (naming t).Words where
  unbox _ _ := (Appends.unbox _ _).keeps
  boxInt {w _ _} _ hk := (Appends.boxInt (nameable_common w) _ (nameable_prototype hk)).keeps
  rawWord := (Appends.ofExcept _).keeps
  arith _ _ := (Appends.arith _ _ _).keeps
  negate _ := (Appends.negate _).keeps
  loadTag _ := (Appends.loadTag _).keeps

theorem newBlock_keeps {hint : String} {b : BlockName} {p : Pool} (hinted : hint ∈ blockHints)
    (known : u.Le w) (there : Stands t w p s) (run : Asm.newBlock hint s = .ok (b, s')) :
    ∃ w', w.Le w' ∧ Stands t w' p s' ∧ b.hint ∈ blockHints ∧ u.Le w' := by
  cases run
  have refers := there.refers
  exact ⟨w, .refl w, ⟨there.pool, there.measured, refers.references, refers.symbols, refers.hints,
    refers.known⟩, hinted, known⟩

theorem switchTo_opens {b : BlockName} (h : b.hint ∈ blockHints ∧ u.Le w) :
    (naming t).Opens w u (Asm.switchTo b) (naming t).whatever := by
  intro p s a s' there run
  rw [emit_ok.mp run]
  have placed := there.refers.place (.block b) fun c hc => by cases hc; exact h.1
  rw [Label.symbol?, Option.toList_none, List.append_nil] at placed
  exact ⟨w, .refl w, h.2, ⟨there.pool, there.measured, placed⟩, trivial⟩

theorem naming_blocks : (naming t).Blocks where
  newBlock hinted known := fun _ _ _ _ there run => newBlock_keeps hinted known there run
  nextBlock hinted known there run := newBlock_keeps hinted known there run
  switchTo := switchTo_opens
  jump _ _ := (Appends.jump trivial).shuts
  branchRaw _ _ _ _ _ _ := (Appends.branchRaw _ _ _ trivial trivial).shuts
  branchVoid _ _ _ _ _ := (Appends.branchRaw _ _ _ trivial trivial).shuts
  branchSame _ _ _ _ _ _ := (Appends.branchRaw _ _ _ trivial trivial).shuts
  closeArm _ _ _ := (Appends.closeArm _ trivial).shuts
  merge h _ := fun p s a s' there run => by
    obtain ⟨_, s₁, placed, rest⟩ := bind_ok.mp run
    obtain ⟨rfl, rfl⟩ := pure_ok.mp rest
    exact switchTo_opens h p s () _ there placed
  abort {w _ _ _} h := (Appends.abort (nameable_common w) _ _ (nameable_const h)).shuts

theorem naming_calls : (naming t).Calls where
  allocate {w _} hk := (Appends.allocate (nameable_common w) (nameable_prototype hk)).keeps
  callInit hk _ := (Appends.callInit (nameable_initializer hk) _).keeps
  newSelfType {w} := (Appends.newSelfType (nameable_common w)).keeps
  callEquality {w _ _} _ _ := (Appends.callEquality (nameable_common w) _ _).keeps
  callDirect h _ _ := (Appends.callDirect (nameable_label h) _ _).keeps
  callDynamic _ _ _ := (Appends.callDynamic _ _ _).keeps

theorem naming_lawful : (naming t).Lawful where
  toOrdered := naming_ordered
  toStorage := naming_storage
  toWords := naming_words
  toBlocks := naming_blocks
  toCalls := naming_calls

end Laws

section Functions

theorem naming_framed : (naming t).Framed where
  start := ⟨rfl, by simp [Pool.Measured], by simp, rfl, by simp [codeLabels], by simp⟩
  beginFunction {L p s s' label n} there run := by
    obtain ⟨_, s₁, labelled, run⟩ := bind_ok.mp run
    rw [emit_ok.mp labelled] at run
    have placed := there.refers.place (.symbol label) (by simp)
    have stands := (Appends.prologue n).holds ⟨rfl, there.measured, placed⟩ run
    exact ⟨⟨p, L ++ [label]⟩, stands, rfl⟩
  formal _ _ := (Appends.formal _).keeps
  endFunction {w L p s s' v n} there frame _ run := by
    have stands := (Appends.endFunction v n).holds there run
    exact stands.pool ▸ frame ▸ ⟨rfl, stands.pool ▸ stands.measured, stands.refers⟩

theorem naming_knows {k : ClassLayout} (hk : k ∈ t.classes) : (naming t).Knows ⟨t, k⟩ where
  find found := ClassTable.mem_of_find found
  current := hk
  label known found := ClassTable.labels_of_methodLabel known found

/-- What the code of a unit refers to may be named, and its symbols are those of the functions. -/
theorem emitUnit_stands (h : Resolved.emitUnit backend t = .ok (p, s)) :
    Stands t ⟨p, t.functions⟩ p s :=
  Account.emitUnit_idle naming_framed naming_lawful (fun _ hk => naming_knows hk) h

end Functions

end ClassBackend.Mips
