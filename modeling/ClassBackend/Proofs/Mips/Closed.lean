import Mathlib.Data.List.Flatten
import ClassBackend.Proofs.Mips.DataSymbols
import ClassBackend.Proofs.Mips.Labels

/-! A unit of assembly has each of its labels once and refers to nothing that is missing. -/
namespace ClassBackend.Mips

open GlobalName Lowering

namespace Assembly

/-- The labels of the unit, as they are written. -/
def defined (a : Assembly) : List String :=
  Data.labels a.data ++ (codeLabels a.code).map Label.text

/-- The symbols that words, instructions and exports refer to. -/
def referenced (a : Assembly) : List String :=
  a.data.filterMap Line.reference? ++ a.exported ++ a.code.filterMap Instr.reference?

structure Closed (a : Assembly) : Prop where
  once : a.defined.Nodup
  known : ∀ s ∈ a.referenced,
    s ∈ a.defined ∨ s ∈ Routine.all.map Routine.symbol ∨ s ∈ Builtin.methodLabels
  /-- The code is a row of functions, and branches stay inside of theirs. -/
  branches : ∃ fs : List (List Instr), a.code = fs.flatten ∧ ∀ f ∈ fs, Contained f

end Assembly

/-- What a unit is made of: its tables, and code whose pool the data section completes. -/
structure Assembled (t : ClassTable) (p : Pool) (a : Assembly) : Prop where
  data : ∃ gcTest, Data.emit gcTest t p = .ok a.data
  exported : a.exported = Assembly.entryPoints
  measured : p.Measured
  references : ∀ i ∈ a.code, ∀ r, i.reference? = some r → Nameable vocabulary t p r
  symbols : (codeLabels a.code).filterMap Label.symbol? = t.functions
  hints : ∀ b ∈ placed a.code, b.hint ∈ blockHints
  distinct : (placed a.code).Nodup
  branches : ∃ fs : List (List Instr), a.code = fs.flatten ∧ ∀ f ∈ fs, Contained f
  operations : ∀ i ∈ a.code, i.known = true

theorem assemble_assembled {q : Program} {t : ClassTable} {gcTest : Bool} {a : Assembly}
    (built : ClassTable.build q.withBuiltins = .ok t) (h : assemble gcTest t = .ok a) :
    ∃ p, Assembled t p a := by
  obtain ⟨s, data, emitted, laid, rfl⟩ := assemble_made h
  have labelled := emitUnit_labelled built emitted
  have stands := emitUnit_stands (Resolved.emitUnit_of_ok built emitted)
  refine ⟨s.pool, ⟨gcTest, laid⟩, rfl, stands.measured, stands.refers.references,
    stands.refers.symbols, fun b hb => ?_, labelled.distinct.nodup, labelled.code,
    stands.refers.known⟩
  obtain ⟨l, hl, same⟩ := List.mem_filterMap.mp hb
  cases l with
  | symbol => cases same
  | block c =>
    cases same
    exact stands.refers.hints _ hl

section Names

variable {t : ClassTable} {p : Pool} {a : Assembly}

theorem labels_perm (ls : List Label) :
    (ls.map Label.text).Perm (ls.filterMap Label.symbol? ++
      (ls.filterMap Label.block?).map BlockName.text) := by
  induction ls with
  | nil => exact .refl _
  | cons l ls ih =>
    cases l with
    | symbol s => exact ih.cons s
    | block b => exact (ih.cons b.text).trans List.perm_middle.symm

def classGlobals (k : ClassLayout) : List GlobalName :=
  .artifact k.name .dispatchTable :: .artifact k.name .prototype :: k.functionNames

theorem classGlobals_sublist (k : ClassLayout) :
    (classGlobals k).Sublist (k.symbols [.dispatchTable, .prototype, .initializer]) := by
  refine .cons_cons _ (.cons_cons _ (.cons_cons _ ?_))
  split
  · exact List.nil_sublist _
  · exact .refl _

def numberedNames (p : Pool) (blocks : List BlockName) : List (String × Nat) :=
  p.consts.map Const.numbered ++ blocks.map fun b => (b.hint, b.id)

def globals (t : ClassTable) (p : Pool) (blocks : List BlockName) : List GlobalName :=
  t.unitNames fixedSymbols (numberedNames (Data.complete t p) blocks) classGlobals

theorem numberedNames_nodup {blocks : List BlockName} (distinct : blocks.Nodup)
    (hints : ∀ b ∈ blocks, b.hint ∈ blockHints) : (numberedNames p blocks).Nodup := by
  refine ((Pool.consts_nodup p).map Const.numbered_inj).append
    (distinct.map fun ⟨_, _⟩ ⟨_, _⟩ h => by cases h; rfl) ?_
  intro x hc hb
  obtain ⟨c, _, rfl⟩ := List.mem_map.mp hc
  obtain ⟨⟨hint, n⟩, hb, same⟩ := List.mem_map.mp hb
  have hinted : hint ∈ blockHints := hints _ hb
  cases c <;> cases same <;> simp [blockHints] at hinted

theorem numberedNames_plain {blocks : List BlockName} (hints : ∀ b ∈ blocks, b.hint ∈ blockHints) :
    ∀ x ∈ numberedNames p blocks, startsSmall x.1 = true ∧ plainEnd x.1 = true := by
  intro x hx
  rcases List.mem_append.mp hx with hx | hx
  · obtain ⟨c, _, rfl⟩ := List.mem_map.mp hx
    exact c.plain
  · obtain ⟨b, hb, rfl⟩ := List.mem_map.mp hx
    have plain : ∀ s ∈ blockHints, startsSmall s = true ∧ plainEnd s = true := by decide
    exact plain _ (hints b hb)

theorem classGlobals_perm (ks : List ClassLayout) : ((ks.flatMap classGlobals).map text).Perm
    ((ks.map fun k => Linkage.dispatchTable k.name) ++
      ((ks.map fun k => Linkage.prototype k.name) ++ ks.flatMap ClassLayout.functions)) := by
  have texts : (ks.flatMap classGlobals).map text = ks.flatMap fun k =>
      Linkage.dispatchTable k.name :: Linkage.prototype k.name :: k.functions := by
    simp only [List.map_flatMap, classGlobals, List.map_cons, ClassLayout.functionNames_text]
    rfl
  rw [texts]
  refine (List.map_append_flatMap_perm _ _ _).symm.trans ?_
  exact (List.map_append_flatMap_perm _ _ _).symm.append_left _

theorem defined_perm (h : Assembled t p a) :
    a.defined.Perm ((globals t p (placed a.code)).map text) := by
  obtain ⟨gcTest, data⟩ := h.data
  have code := labels_perm (codeLabels a.code)
  rw [h.symbols] at code
  have parts : (globals t p (placed a.code)).map text = fixedSymbols ++
      ((Data.complete t p).consts.map Const.label ++ (placed a.code).map BlockName.text) ++
      (t.classes.flatMap classGlobals).map text := by
    have fixed : (fixedSymbols.map GlobalName.fixed).map text = fixedSymbols := by decide
    simp only [globals, ClassTable.unitNames, numberedNames, List.map_append, fixed, Const.texts]
    rw [List.map_map, List.map_map]
    rfl
  rw [parts, Assembly.defined, Data.emit_labels data]
  refine (code.append_left _).trans ?_
  refine .trans ?_ ((((Pool.consts_perm _).append_right _).append_left _).append
    (classGlobals_perm _)).symm
  rw [List.perm_iff_count]
  intro s
  have fixed : fixedSymbols.count s = List.count s ["_int_tag", "_bool_tag", "_string_tag",
      "_MemMgr_INITIALIZER", "_MemMgr_COLLECTOR", "_MemMgr_TEST"] +
      (List.count s [Linkage.classNames, Linkage.classObjects] + List.count s ["heap_start"]) := by
    rw [← List.count_append, ← List.count_append]
    rfl
  have middle (x y z w : String) : List.count s [x, y, z, w] =
      List.count s [x, y] + List.count s [z, w] := by
    rw [← List.count_append]
    rfl
  simp only [List.count_append, fixed, middle, ClassTable.functions, placed]
  omega

theorem Assembled.once (h : Assembled t p a) (ht : t.Conventional) : a.defined.Nodup :=
  (defined_perm h).nodup_iff.mpr <| nodup_texts
    (ht.unitNames_legible (by decide) (numberedNames_plain h.hints)
      fun k _ => classGlobals_sublist k)
    (ht.unitNames_nodup (by decide) (numberedNames_nodup h.distinct h.hints) (by decide)
      fun k _ => classGlobals_sublist k)

theorem Assembled.defines (h : Assembled t p a) {x : GlobalName}
    (hx : x ∈ globals t p (placed a.code)) : x.text ∈ a.defined :=
  (defined_perm h).mem_iff.mpr (List.mem_map_of_mem hx)

theorem Assembled.functions (h : Assembled t p a) {s : String} (hs : s ∈ t.functions) :
    s ∈ a.defined := by
  rw [← h.symbols] at hs
  obtain ⟨l, hl, same⟩ := List.mem_filterMap.mp hs
  cases l with
  | symbol r =>
    cases same
    exact List.mem_append_right _ (List.mem_map_of_mem hl)
  | block => cases same

theorem Assembled.nameable (h : Assembled t p a) (ht : t.Conventional) {s : String}
    (hs : Nameable vocabulary t (Data.complete t p) s) :
    s ∈ a.defined ∨ s ∈ Routine.all.map Routine.symbol ∨ s ∈ Builtin.methodLabels := by
  cases hs with
  | const denotes =>
    refine .inl ?_
    rw [← Const.numbered_text]
    refine h.defines (x := .numbered _ _) (List.mem_append_left _ (List.mem_append_right _ ?_))
    refine List.mem_map_of_mem (List.mem_append_left _ ?_)
    exact List.mem_map_of_mem (Pool.mem_consts denotes)
  | @artifact k made hk ha =>
    refine .inl (h.defines (x := .artifact k.name made) (List.mem_append_right _ ?_))
    refine List.mem_flatMap.mpr ⟨k, hk, ?_⟩
    cases made <;> simp [classGlobals, ClassLayout.functionNames]
  | method hk hm => exact (ht.label_known hk hm).imp h.functions .inr
  | other hs =>
    rcases List.mem_append.mp hs with fixed | routine
    · refine .inl (h.defines (x := .fixed s) (List.mem_append_left _ (List.mem_append_left _ ?_)))
      exact List.mem_map_of_mem fixed
    · exact .inr (.inl routine)

theorem entryPoints_nameable (ht : t.Conventional) {s : String} (hs : s ∈ Assembly.entryPoints) :
    Nameable vocabulary t p s ∨ s ∈ t.functions := by
  have initializer {name : String} (present : name = Builtin.mainName ∨
      name ∈ Builtin.classes.map (·.name)) : Nameable vocabulary t p (Linkage.initializer name) :=
    Data.nameable_present (a := .initializer) ht present (by decide)
  simp only [Assembly.entryPoints, List.mem_cons, List.not_mem_nil, or_false] at hs
  rcases hs with rfl | rfl | rfl | rfl | rfl
  · exact .inl (initializer (by decide))
  · exact .inl (initializer (by decide))
  · exact .inl (initializer (by decide))
  · exact .inl (initializer (by decide))
  · exact .inr ht.main_mem

theorem Assembled.closed (h : Assembled t p a) (ht : t.Conventional) : a.Closed := by
  obtain ⟨gcTest, data⟩ := h.data
  refine ⟨h.once ht, fun s hs => ?_, h.branches⟩
  rcases List.mem_append.mp hs with hs | code
  · rcases List.mem_append.mp hs with tables | exported
    · obtain ⟨l, hl, names⟩ := List.mem_filterMap.mp tables
      exact h.nameable ht (Data.emit_known ht h.measured data l hl s names)
    · rw [h.exported] at exported
      exact (entryPoints_nameable ht exported).elim (h.nameable ht) fun hs => .inl (h.functions hs)
  · obtain ⟨i, hi, names⟩ := List.mem_filterMap.mp code
    exact h.nameable ht ((h.references i hi s names).mono (Data.complete_grows t p))

end Names

end ClassBackend.Mips
