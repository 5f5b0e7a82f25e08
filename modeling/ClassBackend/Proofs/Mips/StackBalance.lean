import ClassBackend.Compile
import ClassBackend.Proofs.Emission.Unit
import ClassBackend.Proofs.Mips.Erasure
import ClassBackend.Proofs.Mips.StackDiscipline

/-! The stack discipline of the text that a program is compiled to. -/
namespace ClassBackend.Mips

open Emission Lowering

theorem emitUnit_idle {q : Program} {t : ClassTable} {T : Fault → Prop}
    (excused : ∀ op, T (.overflow op))
    (tags : ∀ k ∈ t.classes, (stackDiscipline T).word k.tag ∧ (stackDiscipline T).word k.lastTag)
    (h : ClassTable.build q.withBuiltins = .ok t) :
    Settles T (∀ k ∈ t.classes, LayoutScoped t k) (emitUnit annotated t) fun s =>
      Pooled (unitTexts t) (codeLiterals t.classes) s.pool ∧ Idle s.target :=
  emitUnit_settles (D := stackDiscipline T) (stackDiscipline_lawful excused) h tags

theorem assemble_activations {gcTest : Bool} {t : ClassTable} {a : Assembly}
    (h : assemble gcTest t = .ok a) : ∃ s, emitUnit annotated t = .ok s ∧
      activations t = .ok s.target.done ∧ a.code = s.target.plain.code.toList := by
  obtain ⟨s, data, emitted, _, rfl⟩ := assemble_made h
  rw [← emitUnit_unannotated] at emitted
  cases run : emitUnit annotated t with
  | error e =>
    rw [run] at emitted
    cases emitted
  | ok r =>
    rw [run] at emitted
    cases emitted
    exact ⟨r, rfl, by simp [activations, run, Bind.bind, Except.bind, pure, Except.pure], rfl⟩

/-- What a program is compiled to are functions that keep to the stack discipline. -/
theorem compile_disciplined (p : Program) (gcTest : Bool) (sourceName text : String)
    (h : compile p .mips gcTest sourceName = .ok text) :
    ∃ t fs a, ClassTable.build p.withBuiltins = .ok t ∧ activations t = .ok fs ∧
      assemble gcTest t = .ok a ∧ text = a.text ∧ a.code = fs.flatMap Activation.code ∧
      ∀ f ∈ fs, f.Disciplined ∧ ∀ n o, f.Path n o → o = f.offsetAt n := by
  obtain ⟨t, a, built, assembled, rfl⟩ := compile_mips_ok.mp h
  obtain ⟨s, emitted, functions, code⟩ := assemble_activations assembled
  have idle := emitUnit_idle (T := fun _ => True) (fun _ => trivial)
    (fun _ _ => ⟨.inr trivial, .inr trivial⟩) built
  rw [emitted] at idle
  obtain ⟨_, _, frame, all, done⟩ := idle
  refine ⟨t, s.target.done, a, built, functions, assembled, rfl, code.trans all, fun f hf => ?_⟩
  exact ⟨done f hf, fun n o path => path.agrees (done f hf)⟩

/-- A variable and a conditional among the arguments of a call. -/
def nested : Program := ⟨[⟨"Main", some "Object", [
  .method "pick" [⟨"a", "Object"⟩, ⟨"b", "Object"⟩] "Object" (some (.ident ⟨"Object", 1⟩ "a")),
  .method "main" [] "Object" (some (.dispatch ⟨"Object", 2⟩ (.ident ⟨"SELF_TYPE", 2⟩ "self") none
    "pick" [
      .letIn ⟨"Int", 3⟩ "x" "Int" (some (.int ⟨"Int", 3⟩ 1)) (.ident ⟨"Int", 3⟩ "x"),
      .cond ⟨"Object", 4⟩ (.bool ⟨"Bool", 4⟩ true) (.new ⟨"SELF_TYPE", 4⟩ "SELF_TYPE")
        (.int ⟨"Int", 4⟩ 2)]))],
  "main.cl"⟩]⟩

theorem nested_disciplined : ∃ text, compile nested .mips false "main.cl" = .ok text ∧
    ∃ t fs a, ClassTable.build nested.withBuiltins = .ok t ∧ activations t = .ok fs ∧
      assemble false t = .ok a ∧ text = a.text ∧ a.code = fs.flatMap Activation.code ∧
      ∀ f ∈ fs, f.Disciplined ∧ ∀ n o, f.Path n o → o = f.offsetAt n := by
  have compiles : (compile nested .mips false "main.cl").toOption.isSome = true := by
    decide +kernel
  cases made : compile nested .mips false "main.cl" with
  | error f => rw [made] at compiles; cases compiles
  | ok text => exact ⟨text, rfl, compile_disciplined _ _ _ _ made⟩

end ClassBackend.Mips
