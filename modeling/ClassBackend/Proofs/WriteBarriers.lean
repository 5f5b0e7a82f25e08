import ClassBackend.Proofs.Llvm.Barriers
import ClassBackend.Proofs.Mips.Barriers

/-! Write barriers pair with stores of objects in fields, in the code of both backends. A store of a
default needs none, and neither does an assignment to a variable that hides an attribute. -/
namespace ClassBackend

open Lowering

/-- Every function of a unit guards the fields of its object: each store of an object in a field is
followed by one barrier for that field, and a function has as many barriers as it has assignments to
attributes and, in an initializer, attributes with an expression. -/
theorem assemble_guardsFields (p : Program) (t : ClassTable) (h : ClassTable.build p = .ok t) :
    (∀ gcTest a, Mips.assemble gcTest t = .ok a → ∃ functions, a.code = functions.flatten ∧
      List.Forall₂ Mips.GuardsFields t.sources functions) ∧
    ∀ sourceName m, Llvm.Module.assemble sourceName t = .ok m →
      List.Forall₂ Llvm.GuardsFields t.sources m.functions := by
  refine ⟨fun gcTest a assembled => ?_, fun name m assembled => ?_⟩
  · obtain ⟨s, data, emitted, _, rfl⟩ := Mips.assemble_made assembled
    obtain ⟨functions, there, keeps⟩ := Watch.emitUnit_keeps Mips.watch_lawful h emitted
    exact ⟨functions, there, keeps.imp fun _ _ => Mips.guardsFields⟩
  · obtain ⟨s, constants, main, emitted, _, _, rfl⟩ := Llvm.assemble_made assembled
    obtain ⟨functions, ⟨_, rfl⟩, keeps⟩ := Watch.emitUnit_keeps Llvm.watch_lawful h emitted
    exact keeps.imp fun _ _ => Llvm.guardsFields

/-- Assignments to an attribute and to variables of every kind that hide it. -/
def shadowing : Program :=
  let six : Expr := .int ⟨"Int", 1⟩ 6
  let store : Expr := .assign ⟨"Int", 1⟩ "value" six
  ⟨[
  ⟨"Cell", some "Object", [
    .attribute "value" "Int" (some store),
    .attribute "spare" "Cell" none,
    .method "put" [⟨"other", "Int"⟩] "Int" (some (.block ⟨"Int", 2⟩ [store, store])),
    .method "formal" [⟨"value", "Int"⟩] "Int" (some store),
    .method "bound" [] "Int" (some (.letIn ⟨"Int", 3⟩ "value" "Int" (some store) store)),
    .method "branch" [] "Int" (some (.caseOf ⟨"Int", 4⟩ six [
      ⟨"value", "Int", store⟩, ⟨"other", "Object", store⟩]))], "cell.cl"⟩,
  ⟨"Main", some "Object", [
    .method "main" [] "Cell" (some (.new ⟨"Cell", 5⟩ "Cell"))], "main.cl"⟩]⟩

theorem shadowing_guardsFields : ∃ t, ClassTable.build shadowing.withBuiltins = .ok t ∧
    ((t.sources.filter (·.cls.name == "Cell")).map fun s => (s.label, s.assigns, s.inits)) =
      [("Cell_init", 1, 1), ("Cell.put", 2, 0), ("Cell.formal", 0, 0), ("Cell.bound", 1, 0),
        ("Cell.branch", 1, 0)] ∧
    (∃ a functions, Mips.assemble false t = .ok a ∧ a.code = functions.flatten ∧
      List.Forall₂ Mips.GuardsFields t.sources functions) ∧
    ∃ m, Llvm.Module.assemble "main.cl" t = .ok m ∧
      List.Forall₂ Llvm.GuardsFields t.sources m.functions := by
  obtain ⟨t, a, m, built, assembled, assembled', checked⟩ := bothBuilt_of_check
    (p := shadowing.withBuiltins) (f := Mips.assemble false) (g := Llvm.Module.assemble "main.cl")
    (c := fun t _ _ =>
      ((t.sources.filter (·.cls.name == "Cell")).map fun s => (s.label, s.assigns, s.inits)) ==
        [("Cell_init", 1, 1), ("Cell.put", 2, 0), ("Cell.formal", 0, 0), ("Cell.bound", 1, 0),
          ("Cell.branch", 1, 0)])
    (by decide +kernel)
  obtain ⟨mips, llvm⟩ := assemble_guardsFields _ t built
  obtain ⟨functions, code, guards⟩ := mips false a assembled
  exact ⟨t, built, eq_of_beq checked, ⟨a, functions, assembled, code, guards⟩, m, assembled',
    llvm "main.cl" m assembled'⟩

end ClassBackend
