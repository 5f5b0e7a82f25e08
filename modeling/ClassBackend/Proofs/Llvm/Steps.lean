import ClassBackend.Proofs.Llvm.Conventions

/-! Runs through emitted code, instruction by instruction. -/
namespace ClassBackend.Llvm

open Meaning Machine Lowering

namespace Site

variable (u : Site)

def exec : List Instr → Config → Option Config
  | [], c => some c
  | .assign t rhs :: is, c => (u.value c rhs).bind fun x => exec is (c.assign t x)
  | _, _ => none

theorem exec_cons {i : Instr} {is : List Instr} {c c' : Config}
    (h : u.exec (i :: is) c = some c') : ∃ t rhs x, i = .assign t rhs ∧
      u.perform c i = .moves (c.assign t x) ∧ u.exec is (c.assign t x) = some c' := by
  cases i with
  | assign t rhs =>
    obtain ⟨x, known, rest⟩ := Option.bind_eq_some_iff.mp h
    refine ⟨t, rhs, x, rfl, ?_, rest⟩
    cases rhs with
    | arith | call => cases known
    | load | element | row | entry | compare | phi => simp only [perform, define, known]
  | store | callVoid | br | condBr | ret | unreachable => cases h

theorem exec_frame {is : List Instr} {c c' : Config} (h : u.exec is c = some c') :
    c'.label = c.label ∧ c'.index = c.index + is.length ∧ c'.before = c.before ∧
      c'.memory = c.memory ∧
      ∀ q, (∀ rhs, .assign q rhs ∉ is) → c'.temps q = c.temps q := by
  induction is generalizing c with
  | nil =>
    cases h
    exact ⟨rfl, rfl, rfl, rfl, fun _ _ => rfl⟩
  | cons i is ih =>
    obtain ⟨t, rhs, x, rfl, _, rest⟩ := u.exec_cons h
    obtain ⟨label, index, before, memory, temps⟩ := ih rest
    refine ⟨label, ?_, before, memory, fun q hq => ?_⟩
    · rw [index, List.length_cons]
      change c.index + 1 + is.length = _
      omega
    · rw [temps q fun rhs' mem => hq rhs' (List.mem_cons_of_mem _ mem)]
      refine Function.update_of_ne ?_ _ _
      rintro rfl
      exact hq rhs List.mem_cons_self

/-- The instruction gives control to code outside. -/
def Asks (c : Config) (i : Instr) (k : Call) (back : BitVec 64 × Memory 64 → Config) : Prop :=
  u.perform c i = .calls k ((u.outside k).map back)

theorem asks_call (c : Config) (t : Temp) (ty : Ty) (f : Operand) (args : List (Ty × Operand)) :
    u.Asks c (.assign t (.call ty f args)) (u.callee c f args) fun r =>
      { c.assign t r.1 with memory := r.2 } := rfl

theorem asks_void (c : Config) (f : Operand) (args : List (Ty × Operand)) :
    u.Asks c (.callVoid f args) (u.callee c f args) fun r => { c.next with memory := r.2 } := rfl

end Site

namespace Scenario

variable (X : Scenario)

abbrev Code (l : Label) (n : Nat) (is : List Instr) : Prop :=
  Laid (X.site.body.instr? l) (X.allowed l) n is

variable {X}
variable {os : List (Sight Call)} {c c' : Config} {V : View 64} {i : Instr} {is : List Instr}

theorem step_of_head (h : X.Code c.label c.index (i :: is)) :
    X.course.engine.step c = X.site.perform c i := by
  change X.site.step c = _
  simp only [Site.step, h.head.1]

theorem run_quiet (code : X.Code c.label c.index is) (run : X.site.exec is c = some c')
    (h : X.course.Along os c V) : X.course.Along os c' V := by
  induction is generalizing c with
  | nil =>
    cases run
    exact h
  | cons i is ih =>
    obtain ⟨t, rhs, x, rfl, performs, rest⟩ := X.site.exec_cons run
    exact ih code.tail rest (.moves h code.head.2 ((step_of_head code).trans performs))

theorem run_br {l : Label} (code : X.Code c.label c.index (.br l :: is))
    (h : X.course.Along os c V) : X.course.Along os (c.enter l) V :=
  .moves h code.head.2 (step_of_head code)

theorem run_condBr {b : Operand} {yes no : Label}
    (code : X.Code c.label c.index (.condBr b yes no :: is)) {taken : Bool}
    (test : decide (X.site.eval c.temps b ≠ 0) = taken) (h : X.course.Along os c V) :
    X.course.Along (os ++ [.branch taken]) (c.enter (if taken then yes else no))
      (V.log (.branch taken)) := by
  refine .branches h code.head.2 ?_
  rw [step_of_head code]
  subst test
  simp only [Site.perform, decide_eq_true_eq]
  rfl

theorem step_store {ty : Ty} {v p : Operand} {a : BitVec 64}
    (code : X.Code c.label c.index (.store ty v p :: is)) (address : X.site.eval c.temps p = a)
    (mapped : (c.memory a).isSome) :
    X.course.engine.step c =
      .writes a (X.site.eval c.temps v) (c.write a (X.site.eval c.temps v)) := by
  rw [step_of_head code]
  simp only [Site.perform, address, mapped, if_true]
  rfl

theorem run_settle {t : Temp} {rhs : Rhs} {k : Calc} {m : Int}
    (code : X.Code c.label c.index (.assign t rhs :: is))
    (performs : X.site.define c t rhs = Site.settle c t k) (result : k = .result m)
    (h : X.course.Along os c V) : X.course.Along os (c.assign t (BitVec.ofInt 64 m)) V := by
  refine .moves h code.head.2 ?_
  rw [step_of_head code]
  change X.site.define c t rhs = _
  rw [performs, result]
  rfl

variable {k : Call} {back : BitVec 64 × Memory 64 → Config} {e : Event}

theorem calling (code : X.Code c.label c.index (i :: is)) (asks : X.site.Asks c i k back)
    (h : X.course.Along os c V) : X.course.Calling V k :=
  ⟨os, c, _, h, code.head.2, (step_of_head code).trans asks⟩

theorem run_call {r : BitVec 64 × Memory 64} {W : View 64}
    (code : X.Code c.label c.index (i :: is)) (asks : X.site.Asks c i k back)
    (answer : X.site.outside k = some r) (means : X.means V k e)
    (after : X.setting.after e V.store = some W.store) (grown : V.Extends W)
    (held : X.course.Held W (back r).memory) (h : X.course.Along os c V) :
    X.course.Along (os ++ [.call k]) (back r) W := by
  refine .calls h code.head.2 ?_ means after grown held
  rw [step_of_head code, asks, answer]
  rfl

theorem run_halt (code : X.Code c.label c.index (i :: is)) (asks : X.site.Asks c i k back)
    (answer : X.site.outside k = none) (means : X.means V k e) (h : X.course.Along os c V) :
    X.course.ends (.halted (V.store.log e).trace) := by
  refine ⟨os, c, V, k, e, h, code.head.2, ?_, means, rfl⟩
  rw [step_of_head code, asks, answer]
  rfl

end Scenario

end ClassBackend.Llvm
