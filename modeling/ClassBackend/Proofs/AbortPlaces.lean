import ClassBackend.Proofs.Llvm.Exits
import ClassBackend.Proofs.Mips.Exits

/-! Aborts report the place that they are about. At each dispatch and at each case of a program, and
whatever stands around it, emitted code that gives up calls the abort routine with the file of the
class and with the line of the receiver or of the scrutinee. An LLVM module passes that line as it
is. MIPS code passes its low word, which is another number for a line of 2147483648 or more. -/
namespace ClassBackend

open Lowering

theorem Mips.low_eq_iff (n : Nat) : Mips.Word.low n = n ↔ n < 2147483648 := by
  refine ⟨fun same => ?_, Mips.low_eq⟩
  have small : Mips.Word.low n < 2147483648 := by
    have bound := Int.bmod_lt (x := (n : Int)) (m := 4294967296) (by decide)
    unfold Mips.Word.low
    omega
  omega

/-- In the units of both backends, what gives up at a dispatch or a case reports its place. -/
theorem assemble_reportsPlaces (p : Program) (t : ClassTable)
    (h : ClassTable.build p.withBuiltins = .ok t) :
    (∀ gcTest a, Mips.assemble gcTest t = .ok a → ∃ pool,
      Mips.Data.emit gcTest t pool = .ok a.data ∧
      ∀ k ∈ t.classes, ∀ e ∈ k.expressions,
        Mips.transcript.Reports Mips.exits ⟨t, k⟩ pool a.code e) ∧
    (∀ sourceName m, Llvm.Module.assemble sourceName t = .ok m → ∃ pool,
      Llvm.Module.constantsOf t (Llvm.Module.complete t pool) = .ok m.constants ∧
      ∀ k ∈ t.classes, ∀ e ∈ k.expressions, ∃ f ∈ m.functions,
        Llvm.transcript.Reports Llvm.exits ⟨t, k⟩ pool f.listing e) ∧
    ∀ n : Nat, Mips.Word.low n = n ↔ n < 2147483648 := by
  refine ⟨fun gcTest a assembled => ?_, fun name m assembled => ?_, Mips.low_eq_iff⟩
  · obtain ⟨distinct, pool, data, has⟩ := Mips.assemble_has h assembled
    exact ⟨pool, data, fun k hk e he => Mips.reports_of_has distinct (has k hk e he)⟩
  · obtain ⟨pool, constants, has⟩ := Llvm.assemble_has h assembled
    refine ⟨pool, constants, fun k hk e he => ?_⟩
    obtain ⟨f, hf, distinct, there⟩ := has k hk e he
    exact ⟨f, hf, Llvm.reports_of_has distinct there⟩

/-- The line that code for the expression gives up with, if it may give up. -/
def Expr.abortLine? : Expr → Option UInt64
  | .dispatch _ recv _ _ _ => some recv.line
  | .caseOf _ e _ => some e.line
  | _ => none

/-- A case over a dispatch, and a dispatch in one of its branches. -/
def nestedExits : Program := ⟨[⟨"Main", some "Object", [
  .attribute "next" "Main" none,
  .method "main" [] "Object" (some (.caseOf ⟨"Object", 3⟩
    (.dispatch ⟨"Object", 4⟩ (.ident ⟨"Main", 5⟩ "next") none "main" []) [
      ⟨"x", "Main", .dispatch ⟨"Object", 6⟩ (.ident ⟨"Main", 7⟩ "x") none "main" []⟩,
      ⟨"y", "Object", .ident ⟨"Object", 8⟩ "y"⟩]))], "main.cl"⟩]⟩

theorem nestedExits_reportPlaces : ∃ t, ClassTable.build nestedExits.withBuiltins = .ok t ∧
    (t.classes.flatMap fun k => k.expressions.filterMap Expr.abortLine?) = [4, 5, 7] ∧
    (∃ a pool, Mips.assemble false t = .ok a ∧ Mips.Data.emit false t pool = .ok a.data ∧
      ∀ k ∈ t.classes, ∀ e ∈ k.expressions,
        Mips.transcript.Reports Mips.exits ⟨t, k⟩ pool a.code e) ∧
    ∃ m pool, Llvm.Module.assemble "main.cl" t = .ok m ∧
      Llvm.Module.constantsOf t (Llvm.Module.complete t pool) = .ok m.constants ∧
      ∀ k ∈ t.classes, ∀ e ∈ k.expressions, ∃ f ∈ m.functions,
        Llvm.transcript.Reports Llvm.exits ⟨t, k⟩ pool f.listing e := by
  obtain ⟨t, a, m, built, assembled, assembled', checked⟩ := bothBuilt_of_check
    (p := nestedExits.withBuiltins) (f := Mips.assemble false)
    (g := Llvm.Module.assemble "main.cl")
    (c := fun t _ _ =>
      (t.classes.flatMap fun k => k.expressions.filterMap Expr.abortLine?) == [4, 5, 7])
    (by decide +kernel)
  obtain ⟨mips, llvm, _⟩ := assemble_reportsPlaces _ t built
  obtain ⟨pool, data, reports⟩ := mips false a assembled
  obtain ⟨pool', constants, reports'⟩ := llvm "main.cl" m assembled'
  exact ⟨t, built, eq_of_beq checked, ⟨a, pool, assembled, data, reports⟩, m, pool', assembled',
    constants, reports'⟩

/-- A dispatch whose receiver stands on a line that does not fit a word. -/
def farDispatch : Program := ⟨[⟨"Main", some "Object", [
  .attribute "next" "Main" none,
  .method "main" [] "Object" (some
    (.dispatch ⟨"Object", 1⟩ (.ident ⟨"Main", 4294967301⟩ "next") none "main" []))], "main.cl"⟩]⟩

def Mips.Instr.loaded? (r : Mips.Reg) : Mips.Instr → Option Int
  | .li d n => if d = r then some n else none
  | _ => none

/-- MIPS code calls the abort routine with line 5 where the receiver stands on line 4294967301. -/
theorem farDispatch_narrowed : ∃ t a, ClassTable.build farDispatch.withBuiltins = .ok t ∧
    Mips.assemble false t = .ok a ∧
    (t.classes.flatMap fun k => k.expressions.filterMap Expr.abortLine?) = [4294967301] ∧
    [.li .t1 5, .jal Mips.Routine.dispatchAbort.symbol] <:+: a.code ∧
    a.code.filterMap (Mips.Instr.loaded? .t1) = [5] := by
  obtain ⟨t, a, built, assembled, checked⟩ := built_of_check
    (p := farDispatch.withBuiltins) (f := Mips.assemble false)
    (c := fun t a =>
      ((t.classes.flatMap fun k => k.expressions.filterMap Expr.abortLine?) == [4294967301]) &&
      (decide ([.li .t1 5, .jal Mips.Routine.dispatchAbort.symbol] <:+: a.code) &&
        (a.code.filterMap (Mips.Instr.loaded? .t1) == [5])))
    (by decide +kernel)
  simp only [Bool.and_eq_true, beq_iff_eq, decide_eq_true_eq] at checked
  exact ⟨t, a, built, assembled, checked⟩

end ClassBackend
