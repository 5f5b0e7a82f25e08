import ClassBackend.Compile
import ClassBackend.Proofs.Account.Pooling
import ClassBackend.Proofs.Llvm.WellFormed
import ClassBackend.Proofs.Mips.Constants
import ClassBackend.Proofs.Mips.DataSymbols
import ClassBackend.Proofs.Mips.StackBalance
import ClassBackend.Proofs.Scope.Program

/-! Which programs are compiled: those that are well scoped, up to the range of an offset. -/
namespace ClassBackend

open Emission Meaning

namespace Program

variable (q : Program)

/-- The literals of the expressions that code is emitted for. -/
def literals : List Literal := q.classes.flatMap fun c => c.code.flatMap Expr.literals

/-- The number of classes and the lengths of texts are machine words. -/
structure Moderate : Prop where
  classes : q.classes.length ≤ 2147483648
  names : ∀ c ∈ q.classes, c.name.utf8ByteSize < 2147483648
  files : ∀ c ∈ q.classes, c.fileName.utf8ByteSize < 2147483648
  texts : ∀ s, .str s ∈ q.literals → s.utf8ByteSize < 2147483648

/-- Every Int literal is a machine word. -/
def WordSized : Prop := ∀ v : Int64, .int v ∈ q.literals → Mips.Word.fits v.toInt = true

end Program

section

variable {p q : Program} {t : ClassTable} {gcTest : Bool} {sourceName : String}

theorem mem_codeLiterals (h : ClassTable.build q = .ok t) (l : Literal) :
    l ∈ codeLiterals t.classes ↔ l ∈ q.literals := by
  unfold codeLiterals Program.literals
  rw [List.mem_flatMap, List.mem_flatMap]
  constructor
  · rintro ⟨k, hk, there⟩
    exact ⟨k.decl, ClassTable.decl_mem h hk, there⟩
  · rintro ⟨c, hc, there⟩
    obtain ⟨k, hk, rfl⟩ := ClassTable.exists_decl h hc
    exact ⟨k, hk, there⟩

theorem tags_fit (h : ClassTable.build q = .ok t) (moderate : q.Moderate) {k : ClassLayout}
    (hk : k ∈ t.classes) : Mips.Word.fits k.tag = true ∧ Mips.Word.fits k.lastTag = true := by
  have below : ∀ d ∈ t.classes, d.tag < q.classes.length := by
    intro d hd
    rw [← List.mem_range, ← ClassTable.tags_eq h]
    exact List.mem_map_of_mem hd
  have size := moderate.classes
  obtain ⟨d, hd, last⟩ := ClassTable.last_mem h hk
  have first := below k hk
  have final := below d hd
  simp only [Mips.Word.fits, Bool.and_eq_true, decide_eq_true_eq]
  omega

/-- The Ints of the data section are machine words if those of the code are. -/
theorem ints_fit (h : ClassTable.build q = .ok t) (moderate : q.Moderate) {pool : Pool}
    (pooled : Pooled (unitTexts t) (codeLiterals t.classes) pool) :
    (∀ v ∈ (Mips.Data.complete t pool).ints, Mips.Word.fits v.toInt = true) ↔ q.WordSized := by
  have all := Mips.pooled_complete
    ((pooled.congr (mem_codeLiterals h)).widen (List.subset_append_left _ (t.classes.map (·.name))))
    (List.mem_append_left _ (List.mem_cons_self ..))
    fun k hk => List.mem_append_right _ (List.mem_map_of_mem hk)
  constructor
  · exact fun fits v hv => fits v (all.all v hv)
  · intro literals v hv
    rcases all.only v hv with literal | ⟨s, source, rfl⟩
    · exact literals v literal
    refine Mips.byteLength_fits ?_
    rcases source with literal | text
    · exact moderate.texts s literal
    simp only [unitTexts, List.cons_append, List.mem_cons, List.mem_append, List.mem_map] at text
    rcases text with rfl | ⟨k, hk, rfl⟩ | ⟨k, hk, rfl⟩
    · decide
    · exact moderate.files k.decl (ClassTable.decl_mem h hk)
    · exact moderate.names k.decl (ClassTable.decl_mem h hk)

theorem mips_settles (h : ClassTable.build p.withBuiltins = .ok t)
    (moderate : p.withBuiltins.Moderate) :
    Settles Llvm.Overflows (p.withBuiltins.WellScoped ∧ p.withBuiltins.WordSized)
      (Mips.assemble gcTest t) anything := by
  have excused : ∀ op, Llvm.Overflows (.overflow op) := fun op => ⟨op, rfl⟩
  have emitted := Mips.emitUnit_idle excused
    (fun k hk => ⟨.inl (tags_fit h moderate hk).1, .inl (tags_fit h moderate hk).2⟩) h
  rw [ClassTable.layoutScoped_iff h] at emitted
  have plain : Settles Llvm.Overflows p.withBuiltins.WellScoped
      (Lowering.emitUnit Mips.backend t) fun s =>
        Pooled (unitTexts t) (codeLiterals t.classes) s.pool ∧ s.target.frame = none := by
    rw [← Mips.emitUnit_unannotated]
    exact .map (emitted.mono Iff.rfl fun _ hs => ⟨hs.1, hs.2.frame⟩)
  refine (plain.and fun _ => emitUnit_tidy h).bind fun s ⟨⟨pooled, outside⟩, tidy⟩ => ?_
  unfold Mips.Assembly.ofState
  rw [outside]
  refine Settles.free (Q := anything) ?_ fun _ _ => .ret trivial
  have measured := Mips.Data.complete_measured t tidy.measured
  have settles := Mips.data_settles excused h gcTest measured
  exact settles.mono (ints_fit h moderate pooled) fun _ hd => hd

theorem module_settles (h : ClassTable.build p.withBuiltins = .ok t) {pool : Pool}
    (measured : pool.Measured) (functions : List Llvm.Function) :
    Settles Llvm.Overflows (p.withBuiltins.Declares Builtin.mainName)
      (Llvm.Module.build sourceName t pool functions) anything := by
  have there : ∀ b ∈ Builtin.classes, ∃ k, t.find b.name = .ok k :=
    fun b hb => (found_iff h).mpr (builtin_declared p hb)
  have listed : ∃ es, (Llvm.Module.complete t pool).toTables.stringEntries = .ok es :=
    ⟨_, Pool.stringEntries_ok.mpr ⟨measured.named t.classes, rfl⟩⟩
  have constants : Settles Llvm.Overflows True
      (Llvm.Module.constantsOf t (Llvm.Module.complete t pool)) anything := by
    refine .known (there Builtin.int (by simp [Builtin.classes])) fun _ _ => ?_
    refine .known (there Builtin.bool (by simp [Builtin.classes])) fun _ _ => ?_
    refine .known (there Builtin.string (by simp [Builtin.classes])) fun _ _ => ?_
    exact .known listed fun _ _ => .ret trivial
  refine constants.then fun _ _ => ?_
  refine (Settles.find (C := fun _ => True) fun _ _ => .ret trivial).mono ?_ fun _ h => h
  simp only [and_true]
  exact found_iff h

theorem llvm_settles (h : ClassTable.build p.withBuiltins = .ok t) :
    Settles Llvm.Overflows
      (p.withBuiltins.WellScoped ∧ p.withBuiltins.Declares Builtin.mainName)
      (Llvm.Module.assemble sourceName t) anything := by
  have emitted := Llvm.emitUnit_wellFormed h
  rw [ClassTable.layoutScoped_iff h] at emitted
  refine (emitted.and fun _ => emitUnit_tidy h).bind fun s ⟨⟨_, outside, _⟩, tidy⟩ => ?_
  unfold Llvm.Module.ofState
  rw [outside]
  exact module_settles h tidy.measured _

end

/-- Both backends compile what is well scoped and nothing else, where no offset overflows. The
native one also needs a class to start in, and the other one needs its Ints to be machine words. -/
theorem compile_iff_wellScoped (p : Program) (gcTest : Bool) (sourceName : String)
    {t : ClassTable} (built : ClassTable.build p.withBuiltins = .ok t)
    (moderate : p.withBuiltins.Moderate)
    (small : ∀ kind op, compile p kind gcTest sourceName ≠ .error (.overflow op)) :
    ((∃ text, compile p .llvm gcTest sourceName = .ok text) ↔
      p.withBuiltins.WellScoped ∧ p.withBuiltins.Declares Builtin.mainName) ∧
    ((∃ text, compile p .mips gcTest sourceName = .ok text) ↔
      p.withBuiltins.WellScoped ∧ p.withBuiltins.WordSized) := by
  have no : ∀ kind f, compile p kind gcTest sourceName = .error f → ¬ Llvm.Overflows f := by
    rintro kind _ failed ⟨op, rfl⟩
    exact small kind op failed
  constructor
  · refine Settles.ok_iff (T := Llvm.Overflows) (Q := anything) ?_ (no .llvm)
    simp only [compile, built]
    exact (llvm_settles built).free fun _ _ => .ret trivial
  · refine Settles.ok_iff (T := Llvm.Overflows) (Q := anything) ?_ (no .mips)
    simp only [compile, built]
    exact (mips_settles built moderate).free fun _ _ => .ret trivial

/-- Its only literal does not fit in a machine word. -/
def wide : Program := ⟨[⟨"Main", some "Object", [.method "main" [] "Object"
  (some (.letIn ⟨"Int", 1⟩ "x" "Int" (some (.int ⟨"Int", 1⟩ 4294967296)) (.ident ⟨"Int", 1⟩ "x")))],
  "main.cl"⟩]⟩

theorem wide_moderate : wide.withBuiltins.Moderate where
  classes := by decide
  names := by decide
  files := by decide
  texts s hs := by
    have only : wide.withBuiltins.literals = [.int 4294967296] := by decide +kernel
    rw [only] at hs
    simp at hs

/-- The native backend compiles it, and the other one does not. -/
theorem wide_compile : ∃ t, ClassTable.build wide.withBuiltins = .ok t ∧
    wide.withBuiltins.Moderate ∧
    (∀ kind op, compile wide kind false "main.cl" ≠ .error (.overflow op)) ∧
    (∃ text, compile wide .llvm false "main.cl" = .ok text) ∧
    (¬ ∃ text, compile wide .mips false "main.cl" = .ok text) ∧
    ((∃ text, compile wide .llvm false "main.cl" = .ok text) ↔
      wide.withBuiltins.WellScoped ∧ wide.withBuiltins.Declares Builtin.mainName) ∧
    ((∃ text, compile wide .mips false "main.cl" = .ok text) ↔
      wide.withBuiltins.WellScoped ∧ wide.withBuiltins.WordSized) := by
  have builds : (ClassTable.build wide.withBuiltins).toOption.isSome = true := by decide +kernel
  have native : (compile wide .llvm false "main.cl").toOption.isSome = true := by decide +kernel
  have assembly : compile wide .mips false "main.cl" = .error (.wordRange 4294967296) := by
    decide +kernel
  cases built : ClassTable.build wide.withBuiltins with
  | error f => rw [built] at builds; cases builds
  | ok t =>
  cases llvm : compile wide .llvm false "main.cl" with
  | error f => rw [llvm] at native; cases native
  | ok text =>
  have small : ∀ kind op, compile wide kind false "main.cl" ≠ .error (.overflow op) := by
    intro kind op
    cases kind with
    | llvm => simp [llvm]
    | mips => simp [assembly]
  have same := compile_iff_wellScoped wide false "main.cl" built wide_moderate small
  rw [llvm, assembly] at same
  rw [assembly]
  exact ⟨t, rfl, wide_moderate, small, ⟨text, rfl⟩, by simp, same⟩

end ClassBackend
