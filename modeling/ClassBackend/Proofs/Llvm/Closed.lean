import Mathlib.Data.List.Flatten
import ClassBackend.Proofs.Account.Symbols
import ClassBackend.Proofs.Llvm.References
import ClassBackend.Proofs.Llvm.Tables

/-! A module of the native backend has each global and each struct type once and refers to none that
is missing. -/
namespace ClassBackend.Llvm

open GlobalName Lowering

namespace Global

def operands : Global → List Operand
  | .pointers _ entries => entries.map .symbol
  | .object _ _ elements => elements.map (·.2)
  | .bytes .. => []
  | .records _ _ rows => rows.flatten.map (·.2)

def structs : Global → List String
  | .object _ s _ | .records _ s _ => [s]
  | .pointers .. | .bytes .. => []

end Global

def symbolChar (c : Char) : Bool := c.isAlphanum || c == '_' || c == '.'

def marked : List Char → List String
  | [] => []
  | c :: cs => if c = '@' then String.ofList (cs.takeWhile symbolChar) :: marked cs else marked cs

namespace Function

def instrs (f : Function) : List Instr := f.body.blocks.flatMap fun c => c.instrs.toList

end Function

namespace Module

/-- What the lines of the entry point after the first mark as symbols. -/
def calledFirst (m : Module) : List String :=
  ((entryPoint m.main).drop 1).flatMap fun l => marked l.toList

/-- The globals that are defined and those that are declared. The entry point is one of them. -/
def defined (m : Module) : List String :=
  m.globals.map (·.name) ++ m.declarations.map (·.symbol) ++ m.functions.map (·.label) ++
    ((entryPoint m.main).take 1).flatMap fun l => marked l.toList

def referenced (m : Module) : List String :=
  (m.globals.flatMap (·.operands) ++
    (m.functions.flatMap (·.instrs)).flatMap (·.reads)).filterMap Operand.symbol? ++ m.calledFirst

def definedTypes (m : Module) : List String := m.structs.map (·.name)

def referencedTypes (m : Module) : List String :=
  m.globals.flatMap (·.structs) ++ (m.functions.flatMap (·.instrs)).flatMap (·.structs)

structure Closed (m : Module) : Prop where
  once : m.defined.Nodup
  known : ∀ s ∈ m.referenced, s ∈ m.defined
  typesOnce : m.definedTypes.Nodup
  typesKnown : ∀ s ∈ m.referencedTypes, s ∈ m.definedTypes

end Module

/-- What a module is made of: its tables, and functions whose pool they complete. -/
structure Assembled (t : ClassTable) (p : Pool) (m : Module) : Prop where
  structs : m.structs = Module.structsOf t
  dispatchTables : m.dispatchTables = Module.dispatchTablesOf t
  constants : Module.constantsOf t (Module.complete t p) = .ok m.constants
  classTables : m.classTables = Module.classTablesOf t (Module.complete t p)
  declarations : m.declarations = Module.declarationsOf t
  labels : m.functions.map (·.label) = t.functions
  fine : ∀ f ∈ m.functions, AllFine t p f.body
  measured : p.Measured
  main : m.main.name = Builtin.mainName

theorem structName_builtin {q : Program} {t : ClassTable}
    (built : ClassTable.build q.withBuiltins = .ok t) {b : ClassDecl} (hb : b ∈ Builtin.classes) :
    StructName t b.name := by
  obtain ⟨k, found⟩ := (Emission.found_iff built).mpr (Emission.builtin_declared q hb)
  exact .inr ⟨k, ClassTable.mem_of_find found, ClassTable.name_of_find found⟩

theorem assemble_assembled {q : Program} {t : ClassTable} {sourceName : String} {m : Module}
    (built : ClassTable.build q.withBuiltins = .ok t) (h : Module.assemble sourceName t = .ok m) :
    ∃ p, Assembled t p m := by
  obtain ⟨s, constants, main, emitted, pooled, found, rfl⟩ := assemble_made h
  have object := structName_builtin (b := Builtin.object) built (by simp [Builtin.classes])
  obtain ⟨idle, stands⟩ := emitUnit_stands object (Resolved.emitUnit_of_ok built emitted)
  have labels := stands.labels
  have fine := stands.fine
  rw [idle, Option.toList_none, List.append_nil] at labels fine
  exact ⟨s.pool, rfl, rfl, pooled, rfl, rfl, labels.symm, fine, stands.measured,
    ClassTable.name_of_find found⟩

section Names

variable {t : ClassTable} {p : Pool} {m : Module}

def fixedSymbols : List String := [
  Linkage.classObjects, Linkage.classNames,
  "_gc_alloc", "_equals", "_gc_write_barrier", "_case_abort", "_dispatch_abort", "main"]

/-- The names with a number: of constants, of the bytes of texts, and of a routine. -/
def numberedNames (p : Pool) : List (String × Nat) :=
  p.consts.map Const.numbered ++
    ((List.range p.strings.length).map (fun i => ("str_data", i)) ++ [("_case_abort", 2)])

theorem numberedNames_nodup (p : Pool) : (numberedNames p).Nodup := by
  have bytes : ((List.range p.strings.length).map fun i => ("str_data", i)).Nodup :=
    List.nodup_range.map fun _ _ h => by cases h; rfl
  refine ((Pool.consts_nodup p).map Const.numbered_inj).append
    (bytes.append (List.nodup_singleton _) (by simp [List.Disjoint])) ?_
  intro x hc hx
  obtain ⟨c, _, rfl⟩ := List.mem_map.mp hc
  cases c <;> simp [Const.numbered] at hx

theorem numberedNames_plain (p : Pool) :
    ∀ x ∈ numberedNames p, startsSmall x.1 = true ∧ plainEnd x.1 = true := by
  intro x hx
  rcases List.mem_append.mp hx with hx | hx
  · obtain ⟨c, _, rfl⟩ := List.mem_map.mp hx
    exact c.plain
  · rcases List.mem_append.mp hx with hx | hx
    · obtain ⟨n, _, rfl⟩ := List.mem_map.mp hx
      exact (by decide : startsSmall "str_data" = true ∧ plainEnd "str_data" = true)
    · cases List.mem_singleton.mp hx
      exact ⟨by decide, by decide⟩

def classGlobals (k : ClassLayout) : List GlobalName := k.symbols [.dispatchTable, .initializer]

theorem classGlobals_made : ∀ k ∈ t.classes,
    (classGlobals k).Sublist (k.symbols [.dispatchTable, .initializer]) := fun _ _ => .refl _

def globalNames (t : ClassTable) (p : Pool) : List GlobalName :=
  t.unitNames fixedSymbols (numberedNames (Module.complete t p)) classGlobals

theorem strings_perm (string : ClassLayout) (p : Pool) :
    ((p.stringEntries.zipIdx.flatMap fun ((c, s, length), i) =>
      Module.stringObject string i c s length).map (·.name)).Perm
    ((List.range p.strings.length).map Module.stringData ++ p.stringEntries.map (·.1.label)) := by
  have names : (p.stringEntries.zipIdx.flatMap fun ((c, s, length), i) =>
      Module.stringObject string i c s length).map (·.name) =
      p.stringEntries.zipIdx.flatMap fun x => [Module.stringData x.2, x.1.1.label] := by
    rw [List.map_flatMap]
    rfl
  have bytes : p.stringEntries.zipIdx.map (fun x => Module.stringData x.2) =
      (List.range p.strings.length).map Module.stringData := by
    have count : p.stringEntries.length = p.strings.length := by simp [Pool.stringEntries]
    rw [← count, List.range_eq_range', ← List.zipIdx_map_snd, List.map_map]
    rfl
  have objects : p.stringEntries.zipIdx.flatMap (fun x => [x.1.1.label]) =
      p.stringEntries.map (·.1.label) := by
    conv_rhs => rw [← List.zipIdx_map_fst 0 p.stringEntries, List.map_map]
    rw [← List.map_eq_flatMap]
    rfl
  rw [names, ← bytes, ← objects]
  exact (List.map_append_flatMap_perm _ _ _).symm

theorem methods_perm (ks : List ClassLayout) :
    ((ks.filter ClassLayout.isBuiltin).flatMap (fun k => k.decl.methods.map fun m =>
      Linkage.method k.name m.name) ++ ks.flatMap ClassLayout.functions).Perm
    (ks.flatMap fun k => Linkage.initializer k.name :: k.decl.methods.map fun m =>
      Linkage.method k.name m.name) := by
  induction ks with
  | nil => exact .refl _
  | cons k ks ih =>
    rw [List.perm_iff_count] at ih ⊢
    intro s
    have rest := ih s
    cases builtin : k.isBuiltin with
    | true =>
      simp only [List.filter_cons, builtin, if_true, List.flatMap_cons, List.count_append,
        ClassLayout.functions, List.count_cons, List.count_nil] at rest ⊢
      omega
    | false =>
      simp only [List.filter_cons, builtin, if_false, Bool.false_eq_true, List.flatMap_cons,
        List.count_append, ClassLayout.functions, List.count_cons] at rest ⊢
      omega

theorem classGlobals_perm (ks : List ClassLayout) : ((ks.flatMap classGlobals).map text).Perm
    ((ks.map fun k => Linkage.dispatchTable k.name) ++
      ((ks.filter ClassLayout.isBuiltin).flatMap (fun k => k.decl.methods.map fun m =>
        Linkage.method k.name m.name) ++ ks.flatMap ClassLayout.functions)) := by
  have texts : (ks.flatMap classGlobals).map text = ks.flatMap fun k =>
      Linkage.dispatchTable k.name :: Linkage.initializer k.name ::
        k.decl.methods.map fun m => Linkage.method k.name m.name := by
    simp only [List.map_flatMap, classGlobals, ClassLayout.symbols, ClassLayout.methodNames,
      List.map_append, List.map_map]
    rfl
  rw [texts]
  exact (List.map_append_flatMap_perm _ _ _).symm.trans ((methods_perm ks).symm.append_left _)

theorem defined_perm (h : Assembled t p m) : m.defined.Perm ((globalNames t p).map text) := by
  obtain ⟨int, bool, string, _, _, _, constants⟩ := constantsOf_made h.constants
  have parts : (globalNames t p).map text = fixedSymbols ++
      ((Module.complete t p).consts.map Const.label ++
        ((List.range (Module.complete t p).strings.length).map Module.stringData ++
          ["_case_abort2"])) ++ (t.classes.flatMap classGlobals).map text := by
    have fixed : (fixedSymbols.map GlobalName.fixed).map text = fixedSymbols := by decide
    simp only [globalNames, ClassTable.unitNames, numberedNames, List.map_append, fixed,
      Const.texts]
    rw [List.map_map, List.map_map]
    rfl
  have tables : m.dispatchTables.map (·.name) =
      t.classes.map fun k => Linkage.dispatchTable k.name := by
    rw [h.dispatchTables, Module.dispatchTablesOf, List.map_map]
    rfl
  have objects : (m.constants.map (·.name)).Perm ((Module.complete t p).consts.map Const.label ++
      (List.range (Module.complete t p).strings.length).map Module.stringData) := by
    have ints (f : Const × Int64 → Global) (named : ∀ e, (f e).name = e.1.label) :
        ((Module.complete t p).intEntries.map f).map (·.name) =
          (Module.complete t p).intEntries.map (·.1.label) := by
      rw [List.map_map]
      exact List.map_congr_left fun e _ => named e
    have texts := strings_perm string (Module.complete t p)
    have all := Pool.consts_perm (Module.complete t p)
    rw [constants, List.map_append, List.map_append, ints _ fun _ => rfl]
    -- the kinds of constants stand in another order here, so each name is counted
    rw [List.perm_iff_count] at texts all ⊢
    intro s
    have texts := texts s
    have all := all s
    simp only [List.count_append] at texts all ⊢
    have bools : List.count s ([Module.boolObject bool false, Module.boolObject bool true].map
      (·.name)) = List.count s [(Const.bool false).label, (Const.bool true).label] := rfl
    omega
  have records : m.classTables.map (·.name) = [Linkage.classObjects, Linkage.classNames] := by
    rw [h.classTables]
    rfl
  have declared : m.declarations.map (·.symbol) = Routine.all.map Routine.symbol ++
      (t.classes.filter ClassLayout.isBuiltin).flatMap fun k => k.decl.methods.map fun m =>
        Linkage.method k.name m.name := by
    rw [h.declarations, Module.declarationsOf, List.map_append, List.map_flatMap]
    simp only [List.map_map]
    rfl
  have start : (((Module.entryPoint m.main).take 1).flatMap fun l => marked l.toList) =
      ["main"] := by
    change marked "define i32 @main() \x7b".toList ++ [] = _
    decide
  rw [parts, Module.defined, Module.globals, List.map_append, List.map_append, tables, records,
    declared, h.labels, start]
  have classes := classGlobals_perm t.classes
  rw [List.perm_iff_count] at objects classes ⊢
  intro s
  have objects := objects s
  have classes := classes s
  have fixed : fixedSymbols.count s + List.count s ["_case_abort2"] =
      List.count s [Linkage.classObjects, Linkage.classNames] +
      (List.count s (Routine.all.map Routine.symbol) + List.count s ["main"]) := by
    rw [← List.count_append, ← List.count_append, ← List.count_append]
    exact List.Perm.count_eq (by decide) s
  simp only [List.count_append, ClassTable.functions] at objects classes ⊢
  omega

theorem Assembled.once (h : Assembled t p m) (ht : t.Conventional) : m.defined.Nodup :=
  (defined_perm h).nodup_iff.mpr <| nodup_texts
    (ht.unitNames_legible (by decide) (numberedNames_plain _) classGlobals_made)
    (ht.unitNames_nodup (by decide) (numberedNames_nodup _) (by decide) classGlobals_made)

theorem Assembled.defines (h : Assembled t p m) {x : GlobalName} (hx : x ∈ globalNames t p) :
    x.text ∈ m.defined :=
  (defined_perm h).mem_iff.mpr (List.mem_map_of_mem hx)

theorem Assembled.numbered (h : Assembled t p m) {x : String × Nat}
    (hx : x ∈ numberedNames (Module.complete t p)) : x.1 ++ toString x.2 ∈ m.defined :=
  h.defines (x := .numbered _ _) <|
    List.mem_append_left _ (List.mem_append_right _ (List.mem_map_of_mem hx))

theorem Assembled.fixed (h : Assembled t p m) {s : String} (hs : s ∈ fixedSymbols) :
    s ∈ m.defined :=
  h.defines (x := .fixed s) <|
    List.mem_append_left _ (List.mem_append_left _ (List.mem_map_of_mem hs))

theorem Assembled.nameable (h : Assembled t p m) (ht : t.Conventional) {s : String}
    (hs : Nameable vocabulary t (Module.complete t p) s) : s ∈ m.defined := by
  cases hs with
  | @const c _ denotes =>
    rw [← Const.numbered_text]
    exact h.numbered (List.mem_append_left _ (List.mem_map_of_mem (Pool.mem_consts denotes)))
  | @artifact k made hk ha =>
    refine h.defines (x := .artifact k.name made) (List.mem_append_right _ ?_)
    exact List.mem_flatMap.mpr ⟨k, hk, List.mem_append_left _ (List.mem_map_of_mem
      ((List.Perm.swap ..).subset ha))⟩
  | @method k n hk hn =>
    obtain ⟨d, hd, e, he, label⟩ := ht.owned k hk n hn
    rw [label]
    refine h.defines (x := .method d.name e.name) (List.mem_append_right _ ?_)
    exact List.mem_flatMap.mpr ⟨d, hd, List.mem_append_right _ (List.mem_map.mpr ⟨e, he, rfl⟩)⟩
  | other hs =>
    by_cases plain : s ∈ fixedSymbols
    · exact h.fixed plain
    · have abort : s = "_case_abort2" := by
        revert plain
        revert s
        decide
      exact abort ▸ h.numbered (x := ("_case_abort", 2)) (by simp [numberedNames])

theorem Assembled.typed (h : Assembled t p m) {s : String} (hs : StructName t s) :
    s ∈ m.definedTypes := by
  rw [Module.definedTypes, h.structs, Module.structsOf, List.map_cons, List.map_map]
  rcases hs with rfl | ⟨k, hk, rfl⟩
  · exact List.mem_cons_self ..
  · exact List.mem_cons_of_mem _ (List.mem_map.mpr ⟨k, hk, rfl⟩)

end Names

section References

variable {t : ClassTable} {p : Pool} {m : Module}

/-- The operand stands for nothing but what the module has. -/
def Present (m : Module) (v : Operand) : Prop := ∀ s, v.symbol? = some s → s ∈ m.defined

theorem Assembled.present (h : Assembled t p m) (ht : t.Conventional) {v : Operand}
    (hv : Resolves t (Module.complete t p) v) : Present m v :=
  fun s hs => h.nameable ht (hv s hs)

theorem header_resolves {k : ClassLayout} (hk : k ∈ t.classes) :
    ∀ v ∈ (Module.header k).map (·.2), Resolves t p v := by
  simp only [Module.header, List.map_cons, List.map_nil, List.mem_cons, List.not_mem_nil, or_false,
    forall_eq_or_imp, forall_eq]
  refine ⟨by simp [Resolves, Operand.symbol?], by simp [Resolves, Operand.symbol?], ?_⟩
  exact resolves_symbol (.artifact (a := .dispatchTable) hk (by decide))

theorem dispatchTables_present (h : Assembled t p m) (ht : t.Conventional) :
    ∀ g ∈ m.dispatchTables, ∀ v ∈ g.operands, Present m v := by
  rw [h.dispatchTables]
  intro g hg v hv
  obtain ⟨k, hk, rfl⟩ := List.mem_map.mp hg
  obtain ⟨l, hl, rfl⟩ := List.mem_map.mp hv
  obtain ⟨n, hn, rfl⟩ := List.mem_map.mp hl
  exact h.present ht (resolves_symbol (.method hk hn))

theorem length_present (h : Assembled t p m) (ht : t.Conventional) {c length : Const} {s : String}
    {i : Nat} (entry : ((c, s, length), i) ∈ (Module.complete t p).stringEntries.zipIdx) :
    Present m (.const length) ∧ Present m (.symbol (Module.stringData i)) := by
  constructor
  · obtain ⟨⟨r, j⟩, hr, same⟩ := List.mem_map.mp (List.fst_mem_of_mem_zipIdx entry)
    cases same
    have pooled := h.measured.named t.classes _ (List.fst_mem_of_mem_zipIdx hr)
    exact h.present ht (resolves_symbol (.const (Pool.denotes_idxOf pooled)))
  · have below : i < (Module.complete t p).strings.length := by
      simpa [Pool.stringEntries] using List.snd_lt_of_mem_zipIdx entry
    intro s hs
    cases hs
    refine h.numbered (x := ("str_data", i)) (List.mem_append_right _ (List.mem_append_left _ ?_))
    exact List.mem_map_of_mem (List.mem_range.mpr below)

theorem constants_present (h : Assembled t p m) (ht : t.Conventional) :
    ∀ g ∈ m.constants, (∀ v ∈ g.operands, Present m v) ∧ ∀ s ∈ g.structs, StructName t s := by
  obtain ⟨int, bool, string, hint, hbool, hstring, constants⟩ := constantsOf_made h.constants
  have object {k : ClassLayout} {name : String} (found : t.find name = .ok k)
      {rest : List (Ty × Operand)} {label : String} (fine : ∀ v ∈ rest.map (·.2), Present m v) :
      (∀ v ∈ (Global.object label name (Module.header k ++ rest)).operands, Present m v) ∧
      ∀ s ∈ (Global.object label name (Module.header k ++ rest)).structs, StructName t s := by
    have hk := ClassTable.mem_of_find found
    constructor
    · intro v hv
      rw [Global.operands, List.map_append, List.mem_append] at hv
      exact hv.elim (fun header => h.present ht (header_resolves hk v header)) (fine v)
    · intro s hs
      cases List.mem_singleton.mp hs
      exact .inr ⟨k, hk, ClassTable.name_of_find found⟩
  rw [constants]
  intro g hg
  rcases List.mem_append.mp hg with hg | texts
  · rcases List.mem_append.mp hg with ints | bools
    · obtain ⟨⟨c, v⟩, _, rfl⟩ := List.mem_map.mp ints
      exact object hint (by simp [Present, Operand.symbol?])
    · rcases List.mem_pair.mp bools with rfl | rfl
      · exact object hbool (by simp [Present, Operand.symbol?])
      · exact object hbool (by simp [Present, Operand.symbol?])
  · obtain ⟨⟨⟨c, s, length⟩, i⟩, entry, hg⟩ := List.mem_flatMap.mp texts
    rcases List.mem_pair.mp hg with rfl | rfl
    · simp [Global.operands, Global.structs]
    · refine object hstring ?_
      obtain ⟨number, bytes⟩ := length_present h ht entry
      exact List.forall_mem_cons.mpr ⟨number, List.forall_mem_singleton.mpr bytes⟩

theorem classTables_present (h : Assembled t p m) (ht : t.Conventional) :
    ∀ g ∈ m.classTables, (∀ v ∈ g.operands, Present m v) ∧ ∀ s ∈ g.structs, StructName t s := by
  rw [h.classTables]
  intro g hg
  rcases List.mem_pair.mp hg with rfl | rfl
  · refine ⟨fun v hv => ?_, fun s hs => .inl (List.mem_singleton.mp hs)⟩
    obtain ⟨a, ha, rfl⟩ := List.mem_map.mp hv
    obtain ⟨r, hr, ha⟩ := List.mem_flatten.mp ha
    obtain ⟨k, hk, rfl⟩ := List.mem_map.mp hr
    refine h.present ht ?_
    rcases List.mem_append.mp ha with header | init
    · exact header_resolves hk _ (List.mem_map_of_mem header)
    · cases List.mem_singleton.mp init
      exact resolves_symbol (.artifact (a := .initializer) hk (by decide))
  · refine ⟨fun v hv => ?_, by simp [Global.structs]⟩
    obtain ⟨l, hl, rfl⟩ := List.mem_map.mp hv
    obtain ⟨k, hk, rfl⟩ := List.mem_map.mp hl
    obtain ⟨_, denotes⟩ := Pool.denotes_string (h.measured.named t.classes)
      (Pool.mem_named hk p)
    exact h.present ht (resolves_symbol (.const denotes))

theorem functions_present (h : Assembled t p m) (ht : t.Conventional) :
    ∀ i ∈ m.functions.flatMap (·.instrs), (∀ v ∈ i.reads, Present m v) ∧
      ∀ s ∈ i.structs, StructName t s := by
  intro i hi
  obtain ⟨f, hf, hi⟩ := List.mem_flatMap.mp hi
  obtain ⟨c, hc, hi⟩ := List.mem_flatMap.mp hi
  have fine := (h.fine f hf).mono (p.named_grows t.classes) c hc i hi
  exact ⟨fun v hv => h.present ht (fine.reads v hv), fine.structs⟩

end References

section EntryPoint

theorem marked_skip {a : List Char} (none : '@' ∉ a) (b : List Char) :
    marked (a ++ b) = marked b := by
  induction a with
  | nil => rfl
  | cons c a ih =>
    obtain ⟨other, none⟩ := not_or.mp (mt List.mem_cons.mpr none)
    rw [List.cons_append, marked, if_neg (Ne.symm other), ih none]

theorem marked_numeral (n : Nat) (b : List Char) :
    marked ((toString (n : Int)).toList ++ b) = marked b := by
  refine marked_skip (fun mem => ?_) b
  have digits : toString (n : Int) = toString n := rfl
  rw [digits] at mem
  exact absurd (isDigit_of_mem_numeral mem) (by decide)

theorem marked_sign {name rest : List Char} (plain : name.all symbolChar = true)
    (stops : rest.head?.any symbolChar = false) :
    marked ('@' :: (name ++ rest)) = String.ofList name :: marked rest := by
  rw [List.all_eq_true] at plain
  have none : '@' ∉ name := fun mem => absurd (plain _ mem) (by decide)
  have read : (name ++ rest).takeWhile symbolChar = name := by
    rw [List.takeWhile_append_of_pos plain]
    cases rest with
    | nil => simp
    | cons c rest =>
      have stops : symbolChar c = false := by simpa using stops
      simp [stops]
  rw [marked, if_pos rfl, read, marked_skip none]

theorem calledFirst_eq {m : Module} (main : m.main.name = Builtin.mainName) :
    m.calledFirst = ["_gc_alloc", "Main_dispTab", "Main_init", "Main.main"] := by
  have object : marked ("  %obj = " ++ callText "ptr" (.symbol Routine.gcAlloc.symbol)
      (Module.header m.main)).toList = ["_gc_alloc", "Main_dispTab"] := by
    have text : ("  %obj = " ++ callText "ptr" (.symbol Routine.gcAlloc.symbol)
        (Module.header m.main)).toList = "  %obj = call ptr ".toList ++ '@' ::
        ("_gc_alloc".toList ++ ("(i64 ".toList ++ ((toString (m.main.tag : Int)).toList ++
        (", i64 ".toList ++ ((toString (objectSize m.main : Int)).toList ++
        (", ptr ".toList ++ '@' :: ("Main_dispTab".toList ++ ")".toList))))))) := by
      simp [callText, Operand.text, Routine.symbol, Module.header, commas, typed, Ty.text,
        Linkage.dispatchTable, main, Builtin.mainName]
    rw [text, marked_skip (by decide), marked_sign (by decide) rfl, marked_skip (by decide),
      marked_numeral, marked_skip (by decide), marked_numeral, marked_skip (by decide),
      marked_sign (by decide) rfl]
    rfl
  have calls : marked ("  %main = call ptr @" ++ Linkage.initializer Builtin.mainName ++
      "(ptr %obj)").toList = ["Main_init"] := by decide
  have starts : marked ("  %result = call ptr @" ++
      Linkage.method Builtin.mainName Builtin.mainMethod ++ "(ptr %main)").toList =
      ["Main.main"] := by decide
  have ends : marked "  ret i32 0".toList = [] ∧ marked "\x7d".toList = [] := by decide
  simp only [Module.calledFirst, Module.entryPoint, List.drop_succ_cons, List.drop_zero,
    List.flatMap_cons, List.flatMap_nil, object, calls, starts, ends]
  rfl

theorem calledFirst_known {t : ClassTable} {p : Pool} {m : Module} (h : Assembled t p m)
    (ht : t.Conventional) : ∀ s ∈ m.calledFirst, s ∈ m.defined := by
  obtain ⟨k, hk, named, _⟩ := ht.main
  have artifact {a : Artifact} (ha : a ∈ vocabulary.artifacts) :
      Builtin.mainName ++ a.suffix ∈ m.defined := named ▸ h.nameable ht (.artifact hk ha)
  rw [calledFirst_eq h.main]
  intro s hs
  simp only [List.mem_cons, List.not_mem_nil, or_false] at hs
  rcases hs with rfl | rfl | rfl | rfl
  · exact h.fixed (by decide)
  · exact artifact (a := .dispatchTable) (by decide)
  · exact artifact (a := .initializer) (by decide)
  · have emitted := ht.main_mem
    rw [← h.labels] at emitted
    exact List.mem_append_left _ (List.mem_append_right _ emitted)

end EntryPoint

theorem Assembled.closed {t : ClassTable} {p : Pool} {m : Module} (h : Assembled t p m)
    (ht : t.Conventional) : m.Closed := by
  have tables : ∀ g ∈ m.globals, (∀ v ∈ g.operands, Present m v) ∧
      ∀ s ∈ g.structs, StructName t s := by
    intro g hg
    rcases List.mem_append.mp hg with hg | records
    · rcases List.mem_append.mp hg with dispatch | pooled
      · refine ⟨dispatchTables_present h ht g dispatch, ?_⟩
        rw [h.dispatchTables] at dispatch
        obtain ⟨k, _, rfl⟩ := List.mem_map.mp dispatch
        simp [Global.structs]
      · exact constants_present h ht g pooled
    · exact classTables_present h ht g records
  refine ⟨h.once ht, fun s hs => ?_, ?_, fun s hs => h.typed ?_⟩
  · rcases List.mem_append.mp hs with read | called
    · obtain ⟨v, hv, names⟩ := List.mem_filterMap.mp read
      rcases List.mem_append.mp hv with table | code
      · obtain ⟨g, hg, hv⟩ := List.mem_flatMap.mp table
        exact (tables g hg).1 v hv s names
      · obtain ⟨i, hi, hv⟩ := List.mem_flatMap.mp code
        exact (functions_present h ht i hi).1 v hv s names
    · exact calledFirst_known h ht s called
  · rw [Module.definedTypes, h.structs, Module.structsOf, List.map_cons, List.map_map]
    refine List.nodup_cons.mpr ⟨fun mem => ?_, ht.names⟩
    obtain ⟨k, hk, same⟩ := List.mem_map.mp mem
    have large := (ht.capital k hk).large
    rw [show k.name = classObject from same] at large
    exact absurd large (by decide)
  · rcases List.mem_append.mp hs with table | code
    · obtain ⟨g, hg, hs⟩ := List.mem_flatMap.mp table
      exact (tables g hg).2 s hs
    · obtain ⟨i, hi, hs⟩ := List.mem_flatMap.mp code
      exact (functions_present h ht i hi).2 s hs

end ClassBackend.Llvm
