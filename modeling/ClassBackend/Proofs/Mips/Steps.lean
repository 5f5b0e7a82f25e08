import ClassBackend.Proofs.Mips.Conventions

/-! Runs through emitted code, instruction by instruction. -/
namespace ClassBackend.Mips

open Meaning Machine Lowering

namespace Site

variable (u : Site)

def exec : List Instr → Cpu → Option Cpu
  | [], s => some s
  | i :: is, s => (u.effect s i).bind (exec is)

theorem perform_effect {c : Config} {i : Instr} {s : Cpu} (h : u.effect c.cpu i = some s) :
    u.perform c i = .moves ⟨c.pc + 1, s⟩ := by
  cases i with
  | sw | arith | neg | branch | goto | jal | jalr | jr => simp [effect] at h
  | label | la | li | lw | move | addiu | addu | sll => simp only [perform, h]

end Site

namespace Scenario

variable (X : Scenario)

abbrev Code (n : Nat) (is : List Instr) : Prop := Laid (fun k => X.site.code[k]?) X.allowed n is

variable {X}

theorem step_of_head {n : Nat} {i : Instr} {is : List Instr} (h : X.Code n (i :: is)) (s : Cpu) :
    X.course.engine.step ⟨n, s⟩ = X.site.perform ⟨n, s⟩ i := by
  change X.site.step ⟨n, s⟩ = _
  simp only [Site.step, h.head.1]

variable {os : List (Sight Call)} {n : Nat} {s s' : Cpu} {V : View 32}

theorem run_quiet {is : List Instr} (code : X.Code n is) (run : X.site.exec is s = some s')
    (h : X.course.Along os ⟨n, s⟩ V) : X.course.Along os ⟨n + is.length, s'⟩ V := by
  induction is generalizing n s with
  | nil =>
    cases run
    exact h
  | cons i is ih =>
    obtain ⟨mid, first, rest⟩ := Option.bind_eq_some_iff.mp run
    have step := step_of_head code s
    rw [X.site.perform_effect first] at step
    have := ih code.tail rest (.moves h code.head.2 step)
    rwa [List.length_cons, Nat.add_comm is.length, ← Nat.add_assoc]

theorem run_goto {l : Label} {is : List Instr} (code : X.Code n (.goto l :: is))
    (h : X.course.Along os ⟨n, s⟩ V) :
    X.course.Along os ⟨X.site.code.idxOf (.label l), s⟩ V :=
  .moves h code.head.2 (step_of_head code s)

theorem run_branch {cond : Cond} {op : Relop} {a : Reg} {b : Operand} {l : Label}
    {is : List Instr} (code : X.Code n (.branch cond a b l :: is))
    (known : cond.relation? = some op) {taken : Bool}
    (test : holds op (s.get a).toInt (s.operand b).toInt = taken)
    (h : X.course.Along os ⟨n, s⟩ V) :
    X.course.Along (os ++ [.branch taken])
      ⟨if taken then X.site.code.idxOf (.label l) else n + 1, s⟩ (V.log (.branch taken)) := by
  refine .branches h code.head.2 ?_
  rw [step_of_head code]
  simp only [Site.perform, known, test]
  rfl

theorem run_frame {r b : Reg} {off top : Int} {is : List Instr}
    (code : X.Code n (.sw r off b :: is))
    (address : s.get b + BitVec.ofInt 32 off = X.frameWord top) (frame : X.InFrame top)
    (held : X.course.Held V s.mem) (h : X.course.Along os ⟨n, s⟩ V) :
    X.course.Along os ⟨n + 1, s.store (X.frameWord top) (s.get r)⟩ V := by
  have reserved : X.geometry.reserved (X.frameWord top) := .inl ⟨top, frame, rfl⟩
  refine .keeps h code.head.2 (a := X.frameWord top) (x := s.get r) ?_ reserved
  rw [step_of_head code]
  have mapped : (s.mem (X.frameWord top)).isSome := held.kept _ reserved
  simp only [Site.perform, address, mapped, if_true]
  rfl

theorem run_field {r b : Reg} {off : Int} {is : List Instr} {p i : Nat} {o : Obj} {d : Cell}
    {v : Val} (code : X.Code n (.sw r off b :: is))
    (address : s.get b + BitVec.ofInt 32 off = X.geometry.word (V.place p) (headerWords + i))
    (held : X.course.Held V s.mem) (found : V.store.heap[p]? = some o) (hd : o.cells[i]? = some d)
    (pointer : d.isPointer) (rep : V.Rep v (s.get r)) (h : X.course.Along os ⟨n, s⟩ V) :
    X.course.Along os
      ⟨n + 1, s.store (X.geometry.word (V.place p) (headerWords + i)) (s.get r)⟩
      (V.setCell p i (.ref v)) := by
  refine .stores h code.head.2 (x := s.get r) ?_ found hd pointer rep
  rw [step_of_head code]
  have mapped : (s.mem (X.geometry.word (V.place p) (headerWords + i))).isSome :=
    held.mapped p _ (View.inside_cell found hd)
  simp only [Site.perform, address, mapped, if_true]
  rfl

theorem run_box {r b : Reg} {off : Int} {is : List Instr} {p : Nat} {int : ClassLayout}
    (code : X.Code n (.sw r off b :: is))
    (address : s.get b + BitVec.ofInt 32 off = X.geometry.word (V.place p) headerWords)
    (held : X.course.Held V s.mem) (known : X.setting.classes.find Builtin.intName = .ok int)
    (found : V.store.heap[p]? = some ⟨int.tag, [.unset]⟩) (h : X.course.Along os ⟨n, s⟩ V) :
    X.course.Along os ⟨n + 1, s.store (X.geometry.word (V.place p) headerWords) (s.get r)⟩
      (V.setCell p 0 (.word (s.get r).toInt)) := by
  refine .boxes h code.head.2 (x := s.get r) ?_ known found
  rw [step_of_head code]
  have mapped : (s.mem (X.geometry.word (V.place p) headerWords)).isSome :=
    held.mapped p _ (View.inside_cell (i := 0) found rfl)
  simp only [Site.perform, address, mapped, if_true]
  rfl

theorem run_settle {i : Instr} {is : List Instr} {d : Reg} {k : Calc} {m : Int}
    (code : X.Code n (i :: is))
    (performs : X.site.perform ⟨n, s⟩ i = Site.settle ⟨n, s⟩ d k) (result : k = .result m)
    (h : X.course.Along os ⟨n, s⟩ V) :
    X.course.Along os ⟨n + 1, s.set d (BitVec.ofInt 32 m)⟩ V := by
  refine .moves h code.head.2 ?_
  rw [step_of_head code, performs, result]
  rfl

theorem run_trap {i : Instr} {is : List Instr} {d : Reg} (code : X.Code n (i :: is))
    (performs : X.site.perform ⟨n, s⟩ i = Site.settle ⟨n, s⟩ d .trap)
    (h : X.course.Along os ⟨n, s⟩ V) : X.course.ends (.trapped V.store.trace) := by
  refine ⟨os, ⟨n, s⟩, V, h, code.head.2, ?_, rfl⟩
  rw [step_of_head code, performs]
  rfl

def Calls (i : Instr) (s : Cpu) (a : BitVec 32) : Prop :=
  (∃ name, i = .jal name ∧ a = X.site.symbol name) ∨ ∃ r, i = .jalr r ∧ a = s.get r

theorem step_call {i : Instr} {is : List Instr} {a : BitVec 32} (code : X.Code n (i :: is))
    (calls : Calls (X := X) i s a) : X.course.engine.step ⟨n, s⟩ = X.site.call ⟨n, s⟩ a := by
  rw [step_of_head code]
  rcases calls with ⟨name, rfl, rfl⟩ | ⟨r, rfl, rfl⟩ <;> rfl

theorem calling {i : Instr} {is : List Instr} {a : BitVec 32} (code : X.Code n (i :: is))
    (calls : Calls (X := X) i s a) (h : X.course.Along os ⟨n, s⟩ V) :
    X.course.Calling V ⟨a, s⟩ :=
  ⟨os, ⟨n, s⟩, _, h, code.head.2, step_call code calls⟩

theorem run_call {i : Instr} {is : List Instr} {a : BitVec 32} {e : Event} {V' : View 32}
    (code : X.Code n (i :: is)) (calls : Calls (X := X) i s a)
    (answer : X.site.outside a s = some s') (means : X.means V ⟨a, s⟩ e)
    (after : X.setting.after e V.store = some V'.store) (grown : V.Extends V')
    (held : X.course.Held V' s'.mem) (h : X.course.Along os ⟨n, s⟩ V) :
    X.course.Along (os ++ [.call ⟨a, s⟩]) ⟨n + 1, s'⟩ V' := by
  refine .calls h code.head.2 ?_ means after grown held
  rw [step_call code calls]
  simp only [Site.call, answer, Option.map_some]
  rfl

theorem run_halt {i : Instr} {is : List Instr} {a : BitVec 32} {e : Event}
    (code : X.Code n (i :: is)) (calls : Calls (X := X) i s a)
    (answer : X.site.outside a s = none) (means : X.means V ⟨a, s⟩ e)
    (h : X.course.Along os ⟨n, s⟩ V) : X.course.ends (.halted (V.store.log e).trace) := by
  refine ⟨os, ⟨n, s⟩, V, ⟨a, s⟩, e, h, code.head.2, ?_, means, rfl⟩
  rw [step_call code calls]
  simp only [Site.call, answer, Option.map_none]
  rfl

end Scenario

end ClassBackend.Mips
