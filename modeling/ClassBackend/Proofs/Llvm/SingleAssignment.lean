import ClassBackend.Proofs.Llvm.Reaching
import ClassBackend.Proofs.Llvm.WellFormed

/-! Static single assignment of the text that a program is compiled to: temporaries are defined
once, and before they are read on every path. -/
namespace ClassBackend.Llvm

open Lowering

/-- Calls one after the other and the end of a function. A call reads only results of calls before
it, where `known` are the results so far. -/
inductive InOrder : List String → List String → Prop
  | ret {known : List String} : InOrder known ["  ret i32 0", "\x7d"]
  | call {known rest : List String} (result head : String) (reads : List String) :
    result ∉ known → reads ⊆ known → '%' ∉ head.toList → InOrder (result :: known) rest →
    InOrder known (("  %" ++ result ++ " = call " ++ head ++
      commas (reads.map fun r => "ptr %" ++ r) ++ ")") :: rest)

/-- A definition as text: its signature, and its blocks line by line. -/
def definitionText (signature : String) (cs : List Passage) : String :=
  String.join ((("define " ++ signature ++ " \x7b") ::
    (cs.flatMap fun c => (c.label.text ++ ":") :: c.lines.map fun l => "  " ++ l.text) ++
    ["\x7d"]).map (· ++ "\n"))

theorem Function.text_eq (f : Function) : f.text = definitionText f.signature f.passages := by
  rw [Function.text, Builder.render, bodyLines_passages]
  rfl

structure Module.SingleAssignment (m : Module) : Prop where
  functions : ∀ f ∈ m.functions, f.text = definitionText f.signature f.passages ∧
    Llvm.SingleAssignment f.formals f.passages
  entryPoint : ∃ lines, Module.entryPoint m.main = "define i32 @main() \x7b" :: "entry:" :: lines ∧
    InOrder [] lines

section EntryPoint

theorem commas_three (a b c : String) : commas [a, b, c] = a ++ ", " ++ b ++ ", " ++ c := rfl

theorem no_percent_append {a b : String} (ha : '%' ∉ a.toList) (hb : '%' ∉ b.toList) :
    '%' ∉ (a ++ b).toList := by
  simp [String.toList_append, ha, hb]

theorem no_percent_numeral (n : Nat) : '%' ∉ (toString (n : Int)).toList := by
  have digits : (toString (n : Int)) = toString n := rfl
  rw [digits]
  exact fun mem => absurd (isDigit_of_mem_numeral mem) (by decide)

theorem no_percent_header {k : ClassLayout} (named : k.name = Builtin.mainName) :
    '%' ∉ (commas ((Module.header k).map typed)).toList := by
  have table : '%' ∉ (Linkage.dispatchTable k.name).toList := by
    rw [named]
    decide
  simp only [Module.header, List.map_cons, List.map_nil, commas_three, typed, Operand.text]
  refine no_percent_append
    (no_percent_append (no_percent_append (no_percent_append ?_ ?_) ?_) ?_) ?_
  · exact no_percent_append (by decide) (no_percent_numeral _)
  · decide
  · exact no_percent_append (by decide) (no_percent_numeral _)
  · decide
  · exact no_percent_append (by decide) (no_percent_append (by decide) table)

theorem entryPoint_inOrder {k : ClassLayout} (named : k.name = Builtin.mainName) :
    ∃ lines, Module.entryPoint k = "define i32 @main() \x7b" :: "entry:" :: lines ∧
      InOrder [] lines := by
  refine ⟨_, rfl, ?_⟩
  have first : "  %obj = " ++ callText "ptr" (.symbol Routine.gcAlloc.symbol) (Module.header k) =
      "  %" ++ "obj" ++ " = call " ++
        ("ptr @_gc_alloc(" ++ commas ((Module.header k).map typed)) ++
        commas (([] : List String).map fun r => "ptr %" ++ r) ++ ")" := by
    apply String.toList_inj.mp
    simp [callText, Operand.text, Routine.symbol, commas]
  rw [first]
  refine .call _ _ _ (by simp) (by simp)
    (no_percent_append (by decide) (no_percent_header named)) ?_
  exact .call "main" "ptr @Main_init(" ["obj"] (by decide) (by decide) (by decide)
    (.call "result" "ptr @Main.main(" ["main"] (by decide) (by decide) (by decide) .ret)

end EntryPoint

/-- What a program is compiled to is the text of a module in static single assignment form. -/
theorem compile_singleAssignment (p : Program) (gcTest : Bool) (sourceName text : String)
    (h : compile p .llvm gcTest sourceName = .ok text) :
    ∃ t m, ClassTable.build p.withBuiltins = .ok t ∧ Module.assemble sourceName t = .ok m ∧
      text = m.text ∧ m.SingleAssignment := by
  obtain ⟨t, m, built, assembled, rfl⟩ := compile_llvm_ok.mp h
  refine ⟨t, m, built, assembled, rfl, ?_⟩
  obtain ⟨s, constants, main, emitted, _, found, rfl⟩ := assemble_made assembled
  have idle := emitUnit_wellFormed built
  rw [emitted] at idle
  obtain ⟨_, _, _, wellFormed⟩ := idle
  have certified := emitUnit_certified (Resolved.emitUnit_of_ok built emitted)
  refine ⟨fun f hf => ⟨f.text_eq, ?_⟩, entryPoint_inOrder (ClassTable.name_of_find found)⟩
  obtain ⟨w, formals, covers⟩ := certified f hf
  rw [← formals]
  exact covers.singleAssignment (wellFormed f hf).labels

def looping : Program := ⟨[⟨"Main", some "Object", [.method "main" [⟨"n", "Int"⟩] "Object"
  (some (.loop ⟨"Object", 1⟩ (.bool ⟨"Bool", 1⟩ true)
    (.letIn ⟨"Int", 1⟩ "x" "Int" (some (.ident ⟨"Int", 1⟩ "n")) (.ident ⟨"Int", 1⟩ "x"))))],
  "main.cl"⟩]⟩

theorem looping_singleAssignment : ∃ text, compile looping .llvm false "main.cl" = .ok text ∧
    ∃ t m, ClassTable.build looping.withBuiltins = .ok t ∧
      Module.assemble "main.cl" t = .ok m ∧ text = m.text ∧ m.SingleAssignment := by
  have compiles : (compile looping .llvm false "main.cl").toOption.isSome = true := by
    decide +kernel
  cases made : compile looping .llvm false "main.cl" with
  | error f => rw [made] at compiles; cases compiles
  | ok text => exact ⟨text, rfl, compile_singleAssignment _ _ _ _ made⟩

end ClassBackend.Llvm
