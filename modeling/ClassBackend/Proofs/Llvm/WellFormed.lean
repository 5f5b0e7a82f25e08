import ClassBackend.Compile
import ClassBackend.Proofs.Emission.Unit
import ClassBackend.Proofs.Llvm.Discipline

/-! The control flow of the text that a program is compiled to. -/
namespace ClassBackend.Llvm

open Emission Lowering

/-- Emission has no fault but the overflow of a number, and what it emits is well formed. -/
theorem emitUnit_wellFormed {q : Program} {t : ClassTable}
    (h : ClassTable.build q.withBuiltins = .ok t) :
    Settles Overflows (∀ k ∈ t.classes, LayoutScoped t k) (emitUnit backend t) fun s =>
      Pooled (unitTexts t) (codeLiterals t.classes) s.pool ∧ Idle s.target :=
  emitUnit_settles (D := discipline) discipline_lawful h fun _ _ => ⟨trivial, trivial⟩

def CallLine (line : String) : Prop :=
  ∃ result call, line = "  %" ++ result ++ " = call " ++ call

/-- The entry point is one block: calls, and then its only terminator. -/
def Straightforward (lines : List String) : Prop :=
  ∃ calls, lines = ["define i32 @main() \x7b", "entry:"] ++ calls ++ ["  ret i32 0", "\x7d"] ∧
    ∀ line ∈ calls, CallLine line

structure Module.WellFormed (m : Module) : Prop where
  functions : ∀ f ∈ m.functions, Llvm.WellFormed f.body.blocks
  entryPoint : Straightforward (Module.entryPoint m.main)

theorem callLine_text {assignment : String} (result : String)
    (h : assignment = "  %" ++ result ++ " = ") (ty : String) (callee : Operand)
    (args : List (Ty × Operand)) : CallLine (assignment ++ callText ty callee args) := by
  refine ⟨result, ty ++ " " ++ callee.text ++ "(" ++ commas (args.map typed) ++ ")", ?_⟩
  have joint : " = call " = " = " ++ "call " := by decide
  rw [h, joint]
  simp only [callText, String.append_assoc]

theorem entryPoint_straightforward (main : ClassLayout) :
    Straightforward (Module.entryPoint main) := by
  refine ⟨((Module.entryPoint main).drop 2).take 3, rfl, fun line hline => ?_⟩
  simp only [Module.entryPoint, List.drop_succ_cons, List.drop_zero, List.take_succ_cons,
    List.take_zero, List.mem_cons, List.not_mem_nil, or_false] at hline
  rcases hline with rfl | rfl | rfl
  · exact callLine_text "obj" (by decide) _ _ _
  · exact ⟨"main", "ptr @Main_init(ptr %obj)", by decide⟩
  · exact ⟨"result", "ptr @Main.main(ptr %main)", by decide⟩

/-- What a program is compiled to is the text of a well formed module. -/
theorem compile_wellFormed (p : Program) (gcTest : Bool) (sourceName text : String)
    (h : compile p .llvm gcTest sourceName = .ok text) :
    ∃ t m, ClassTable.build p.withBuiltins = .ok t ∧ Module.assemble sourceName t = .ok m ∧
      text = m.text ∧ m.WellFormed := by
  obtain ⟨t, m, built, assembled, rfl⟩ := compile_llvm_ok.mp h
  refine ⟨t, m, built, assembled, rfl, ?_, entryPoint_straightforward _⟩
  obtain ⟨s, constants, main, emitted, _, _, rfl⟩ := assemble_made assembled
  have idle := emitUnit_wellFormed built
  rw [emitted] at idle
  exact idle.2.2.2

/-- A conditional in a method: two blocks that meet in a third. -/
def branching : Program := ⟨[⟨"Main", some "Object", [.method "main" [] "Object"
  (some (.cond ⟨"Int", 1⟩ (.bool ⟨"Bool", 1⟩ true) (.int ⟨"Int", 1⟩ 1) (.int ⟨"Int", 1⟩ 2)))],
  "main.cl"⟩]⟩

theorem branching_wellFormed : ∃ text, compile branching .llvm false "main.cl" = .ok text ∧
    ∃ t m, ClassTable.build branching.withBuiltins = .ok t ∧
      Module.assemble "main.cl" t = .ok m ∧ text = m.text ∧ m.WellFormed := by
  have compiles : (compile branching .llvm false "main.cl").toOption.isSome = true := by
    decide +kernel
  cases made : compile branching .llvm false "main.cl" with
  | error f => rw [made] at compiles; cases compiles
  | ok text => exact ⟨text, rfl, compile_wellFormed _ _ _ _ made⟩

end ClassBackend.Llvm
