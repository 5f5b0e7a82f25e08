import ClassBackend.Compile
import ClassBackend.Proofs.Llvm.Closed
import ClassBackend.Proofs.Mips.Closed

/-! Units are closed: what a program is compiled to has each symbol once, and needs nothing from
outside but the runtime. -/
namespace ClassBackend

open Lowering

/-- The text is that of a unit of the table, and the unit is closed. -/
def ClosedText (t : ClassTable) (gcTest : Bool) (sourceName text : String) : BackendKind → Prop
  | .mips => ∃ a, Mips.assemble gcTest t = .ok a ∧ text = a.text ∧ a.Closed
  | .llvm => ∃ m, Llvm.Module.assemble sourceName t = .ok m ∧ text = m.text ∧ m.Closed

theorem compile_closed (p : Program) (conventional : p.Conventional) (kind : BackendKind)
    (gcTest : Bool) (sourceName text : String)
    (h : compile p kind gcTest sourceName = .ok text) :
    ∃ t, ClassTable.build p.withBuiltins = .ok t ∧ ClosedText t gcTest sourceName text kind := by
  simp only [compile, except_bind_ok] at h
  obtain ⟨t, built, h⟩ := h
  have table := conventional.table built
  refine ⟨t, built, ?_⟩
  cases kind with
  | mips =>
    simp only [except_bind_ok, except_pure_ok] at h
    obtain ⟨a, assembled, rfl⟩ := h
    obtain ⟨pool, made⟩ := Mips.assemble_assembled built assembled
    exact ⟨a, assembled, rfl, made.closed table⟩
  | llvm =>
    simp only [except_bind_ok, except_pure_ok] at h
    obtain ⟨m, assembled, rfl⟩ := h
    obtain ⟨pool, made⟩ := Llvm.assemble_assembled built assembled
    exact ⟨m, assembled, rfl, made.closed table⟩

/-- A text, a number and a method that overrides one of the runtime. -/
def greeting : Program := ⟨[
  ⟨"Greeter", some "IO", [
    .attribute "count" "Int" none,
    .method "copy" [] "SELF_TYPE" (some (.ident ⟨"SELF_TYPE", 1⟩ "self")),
    .method "greet" [⟨"name", "String"⟩] "Object"
      (some (.dispatch ⟨"SELF_TYPE", 2⟩ (.ident ⟨"SELF_TYPE", 2⟩ "self") none "out_string"
        [.ident ⟨"String", 2⟩ "name"]))], "greeter.cl"⟩,
  ⟨"Main", some "Object", [
    .method "main" [] "Object" (some (.dispatch ⟨"Object", 3⟩ (.new ⟨"Greeter", 3⟩ "Greeter") none
      "greet" [.str ⟨"String", 3⟩ "World"]))], "main.cl"⟩]⟩

theorem greeting_conventional : greeting.Conventional where
  undeclared := by decide
  capital := by
    have large : ∀ c ∈ greeting.classes,
        startsLarge c.name = true ∧ '.' ∉ c.name.toList := by decide
    exact fun c hc => ⟨(large c hc).1, (large c hc).2⟩
  methods := by decide
  main := by decide

theorem greeting_closed :
    (∃ text, compile greeting .mips false "main.cl" = .ok text ∧
      ∃ t, ClassTable.build greeting.withBuiltins = .ok t ∧
        ClosedText t false "main.cl" text .mips) ∧
    ∃ text, compile greeting .llvm false "main.cl" = .ok text ∧
      ∃ t, ClassTable.build greeting.withBuiltins = .ok t ∧
        ClosedText t false "main.cl" text .llvm := by
  have compiles : (compile greeting .mips false "main.cl").toOption.isSome = true ∧
      (compile greeting .llvm false "main.cl").toOption.isSome = true := by
    decide +kernel
  constructor
  · cases made : compile greeting .mips false "main.cl" with
    | error f => rw [made] at compiles; cases compiles.1
    | ok text => exact ⟨text, rfl, compile_closed _ greeting_conventional _ _ _ _ made⟩
  · cases made : compile greeting .llvm false "main.cl" with
    | error f => rw [made] at compiles; cases compiles.2
    | ok text => exact ⟨text, rfl, compile_closed _ greeting_conventional _ _ _ _ made⟩

end ClassBackend
