import Mathlib.Data.List.Basic
import ClassBackend.Proofs.Mips.Roots.Charted
import ClassBackend.Proofs.Mips.StackState
import ClassBackend.Proofs.Text.GlobalName

/-! Straight code under the tracking of what is held: one rule for each instruction that the
operations of the backend emit. -/
namespace ClassBackend.Mips

/-- The words of a frame with so many slots in use: those of the formals and the slots are
objects. -/
def slots (formals depth : Nat) (x : Int) : Kind :=
  if wordSize ∣ x ∧ ((level depth < x ∧ x ≤ -savedArea) ∨ (0 < x ∧ x ≤ wordSize * formals)) then
    .object
  else .lost

def rest : Reg → Kind
  | .zero | .s0 => .object
  | .sp | .fp => .address
  | _ => .lost

section Slots

variable {formals n k : Nat} {regs regs' : Reg → Kind}

theorem rest_fixed {r : Reg} (h : r ∈ Held.fixed) (base : rest ≤ regs) : regs r = rest r := by
  refine Kind.eq_of_le (base r) ?_
  revert r
  unfold Held.fixed
  simp [rest]

theorem rest_free {r : Reg} (free : r ∉ Held.fixed) (κ : Kind) : rest r ≤ κ := by
  refine .inl ?_
  cases r <;> first | rfl | exact absurd (by decide) free

theorem rest_update {r : Reg} {κ : Kind} (base : rest ≤ regs) (free : r ∉ Held.fixed) :
    rest ≤ Function.update regs r κ :=
  le_update_iff.mpr ⟨rest_free free κ, fun q _ => base q⟩

theorem slots_start : (⟨rest, slots formals 0⟩ : Held) ≤ .start formals := by
  refine Held.le_of (fun r => ?_) fun x => ?_
  · cases r <;> first | exact Kind.lost_le | exact le_rfl
  · refine le_of_eq ?_
    simp only [slots, Held.start, level_zero]
    refine if_congr ?_ rfl rfl
    simp only [wordSize, savedArea]
    omega

theorem slots_top : slots formals (n + 1) (level (n + 1) + wordSize) = .object := by
  rw [slots, if_pos]
  rw [level_succ]
  have low := level_low n
  refine ⟨?_, .inl ⟨?_, ?_⟩⟩
  · simp only [level, wordSize, savedArea]
    omega
  · simp only [wordSize]
    omega
  · simp only [wordSize]
    omega

theorem slots_level : slots formals (n + 1) (level n) = .object := by
  have top : level (n + 1) + wordSize = level n := by
    rw [level_succ]
    exact Int.sub_add_cancel _ _
  rw [← top, slots_top]

theorem slots_passed {j : Nat} (pos : 0 < j) (le : j ≤ k) :
    slots formals (n + k) (level (n + k) + wordSize * j) = .object := by
  rw [slots, if_pos]
  refine ⟨?_, .inl ⟨?_, ?_⟩⟩ <;> simp only [level, wordSize, savedArea] <;> omega

theorem slots_le (le : n ≤ k) (x : Int) : slots formals n x ≤ slots formals k x := by
  unfold slots
  by_cases live : wordSize ∣ x ∧
      ((level n < x ∧ x ≤ -savedArea) ∨ (0 < x ∧ x ≤ wordSize * formals))
  · rw [if_pos live, if_pos]
    refine ⟨live.1, live.2.imp_left fun h => ⟨?_, h.2⟩⟩
    simp only [level, wordSize, savedArea] at h ⊢
    omega
  · rw [if_neg live]
    exact Kind.lost_le

theorem slots_push (le : regs' ≤ regs) : (⟨regs', slots formals (n + 1)⟩ : Held) ≤
    ((⟨regs, slots formals n⟩ : Held).store (level n + 0) .object).above
      (level n + -wordSize) := by
  refine Held.le_of le fun x => ?_
  by_cases live : wordSize ∣ x ∧
      ((level (n + 1) < x ∧ x ≤ -savedArea) ∨ (0 < x ∧ x ≤ wordSize * formals))
  · have below : level n + -wordSize < x := by
      simp only [level, wordSize, savedArea] at live ⊢
      omega
    refine le_of_eq ?_
    show slots formals (n + 1) x = if level n + -wordSize < x then
      Function.update (slots formals n) (level n + 0) .object x else .lost
    rw [if_pos below, slots, if_pos live]
    by_cases top : x = level n + 0
    · rw [top, Function.update_self]
    · rw [Function.update_of_ne top, slots, if_pos]
      simp only [level, wordSize, savedArea] at live top ⊢
      omega
  · refine .inl ?_
    show slots formals (n + 1) x = .lost
    rw [slots, if_neg live]

theorem slots_pop {d : Nat} {words : Int → Kind} (le : regs' ≤ regs)
    (above : ∀ x, level n < x → slots formals n x ≤ words x) :
    (⟨regs', slots formals n⟩ : Held) ≤
      (⟨regs, words⟩ : Held).above (level (n + d) + wordSize * d) := by
  rw [level_add]
  refine Held.le_of le fun x => ?_
  by_cases live : wordSize ∣ x ∧
      ((level n < x ∧ x ≤ -savedArea) ∨ (0 < x ∧ x ≤ wordSize * formals))
  · have inside : level n < x := by
      have low := level_low n
      simp only [savedArea] at live low
      omega
    show slots formals n x ≤ if level n < x then words x else .lost
    rw [if_pos inside]
    exact above x inside
  · refine .inl ?_
    show slots formals n x = .lost
    rw [slots, if_neg live]

end Slots

section Symbols

theorem const_loads (c : Const) : symbolKind c.label = .object := by
  refine if_neg fun same => ?_
  have first := congrArg (fun s => s.toList.head?) same
  revert first
  cases c with
  | bool b => cases b <;> decide
  | _ => simp [Const.label, Linkage.classObjects]

theorem prototype_loads (cls : String) : symbolKind (Linkage.prototype cls) = .object := by
  refine if_neg fun same => ?_
  have last := congrArg (fun s => s.toList.getLast?) same
  rw [show (Linkage.prototype cls).toList.getLast? = _ from
    GlobalName.artifact_last cls .prototype] at last
  revert last
  decide

end Symbols

/-- An instruction that may stand behind what is held. -/
structure Able (k : ClassLayout) (w : Entries) (c : Int) (p : Nat) (i : Instr) (g : Held) :
    Prop where
  safe : Safe c ⟨i, c, p⟩ g
  plain : Noted.mark ⟨i, c, p⟩ = none
  targets : ∀ l ∈ i.targets, ∃ b, l = .block b ∧ b.id < w.next ∧
    w.held b ≤ track k c ⟨i, c, p⟩ g

/-- Instructions that are noted alike, from what is held in front of them to what is held behind,
if control gets there. -/
inductive Runs (k : ClassLayout) (w : Entries) (c : Int) (p : Nat) :
    List Instr → Held → Option Held → Prop where
  | done {g g'} : g' ≤ g → Runs k w c p [] g (some g')
  | next {i is g o} : Able k w c p i g → i.proceeds = true →
      Runs k w c p is (track k c ⟨i, c, p⟩ g) o → Runs k w c p (i :: is) g o
  | last {i g} : Able k w c p i g → i.proceeds = false → Runs k w c p [i] g none

section Pieces

variable {k : ClassLayout} {w : Entries} {c off : Int} {p formals : Nat} {is : List Instr}
variable {i : Instr} {g g' : Held} {o : Option Held} {d r b : Reg} {κ : Kind} {s : String}

theorem Able.mono (able : Able k w c p i g) (h : g ≤ g') : Able k w c p i g' where
  safe := able.safe.mono h
  plain := able.plain
  targets l hl := (able.targets l hl).imp fun _ hb => ⟨hb.1, hb.2.1, hb.2.2.trans (track_le h)⟩

theorem Runs.mono (h : Runs k w c p is g o) (le : g ≤ g') : Runs k w c p is g' o := by
  induction h generalizing g' with
  | done le' => exact .done (le'.trans le)
  | next able proceeds _ ih => exact .next (able.mono le) proceeds (ih (track_le le))
  | last able stops => exact .last (able.mono le) stops

theorem Charted.runs {ms : List (Noted × Held)} (h : Charted k formals w ms (some g))
    (runs : Runs k w c p is g o) : ∃ ms', ms'.map Prod.fst = is.map (fun i => ⟨i, c, p⟩) ∧
      Charted k formals w (ms ++ ms') o := by
  induction runs generalizing ms with
  | done le => exact ⟨[], rfl, by simpa using h.forget le⟩
  | @next i is g o able proceeds _ ih =>
    have step := h.step able.safe able.plain able.targets
    rw [if_pos proceeds] at step
    obtain ⟨ms', notes, laid⟩ := ih step
    refine ⟨(⟨i, c, p⟩, g) :: ms', by simp [notes], ?_⟩
    rwa [List.append_cons]
  | @last i g able stops =>
    have step := h.step able.safe able.plain able.targets
    rw [if_neg (by simp [stops])] at step
    exact ⟨[(⟨i, c, p⟩, g)], rfl, step⟩

namespace Runs

theorem write (writes : i.written = some d) (other : d ≠ .s0)
    (known : ∀ q ∈ i.reads, g.reg q ≠ .lost) (loads : ∀ e s, i = .la e s → Loadable s)
    (rest : Runs k w c p is (track k c ⟨i, c, p⟩ g) o) : Runs k w c p (i :: is) g o := by
  have unlike (j : Instr) (idle : j.written = none) : i ≠ j := by
    rintro rfl
    rw [idle] at writes
    cases writes
  refine .next ⟨?_, ?_, ?_⟩ ?_ rest
  · constructor
    · exact known
    · exact fun r offset base stores => absurd stores (unlike _ rfl)
    · exact fun r offset stores => absurd stores (unlike _ rfl)
    · rw [writes]
      exact fun same => other (Option.some.inj same)
    · intro collects
      cases i <;> cases writes <;> cases collects
    · exact loads
  · cases i <;> cases writes <;> rfl
  · cases i <;> cases writes <;> simp [Instr.targets]
  · cases i <;> cases writes <;> rfl

theorem la (loadable : Loadable s) (object : symbolKind s = κ) (other : d ≠ .s0)
    (rest : Runs k w c p is (g.put d κ) o) : Runs k w c p (.la d s :: is) g o := by
  subst object
  refine write rfl other (by simp [Instr.reads]) ?_ rest
  intro e s' same
  cases same
  exact loadable

theorem const {a : Const} (other : d ≠ .s0) (rest : Runs k w c p is (g.put d .object) o) :
    Runs k w c p (.la d a.label :: is) g o :=
  la (.inr (.inl ⟨a, rfl⟩)) (const_loads a) other rest

theorem prototype {cls : String} (other : d ≠ .s0)
    (rest : Runs k w c p is (g.put d .object) o) :
    Runs k w c p (.la d (Linkage.prototype cls) :: is) g o :=
  la (.inr (.inr ⟨cls, rfl⟩)) (prototype_loads cls) other rest

theorem li {n : Int} (other : d ≠ .s0) (rest : Runs k w c p is (g.put d .raw) o) :
    Runs k w c p (.li d n :: is) g o :=
  write rfl other (by simp [Instr.reads]) (by simp) rest

theorem lw (other : d ≠ .s0) (known : g.reg b ≠ .lost)
    (rest : Runs k w c p is (g.put d (g.loaded k c off b)) o) :
    Runs k w c p (.lw d off b :: is) g o :=
  write rfl other (by simpa [Instr.reads] using known) (by simp) rest

theorem move (other : d ≠ .s0) (known : g.reg r ≠ .lost)
    (rest : Runs k w c p is (g.put d (g.reg r)) o) : Runs k w c p (.move d r :: is) g o :=
  write rfl other (by simpa [Instr.reads] using known) (by simp) rest

theorem address {n : Int} (known : g.reg r ≠ .lost)
    (rest : Runs k w c p is (g.put .a1 .address) o) :
    Runs k w c p (.addiu .a1 r n :: is) g o :=
  write rfl (by decide) (by simpa [Instr.reads] using known) (by simp) rest

theorem addu (other : d ≠ .s0) (first : g.reg r ≠ .lost) (second : g.reg b ≠ .lost)
    (rest : Runs k w c p is (g.put d (g.reg r).plus) o) : Runs k w c p (.addu d r b :: is) g o :=
  write rfl other (by simpa [Instr.reads] using ⟨first, second⟩) (by simp) rest

theorem sll {n : UInt8} (other : d ≠ .s0) (known : g.reg r ≠ .lost)
    (rest : Runs k w c p is (g.put d .raw) o) : Runs k w c p (.sll d r n :: is) g o :=
  write rfl other (by simpa [Instr.reads] using known) (by simp) rest

theorem arith {op : Arith} (other : d ≠ .s0) (first : g.reg r ≠ .lost) (second : g.reg b ≠ .lost)
    (rest : Runs k w c p is (g.put d .raw) o) : Runs k w c p (.arith op d r (.reg b) :: is) g o :=
  write rfl other (by simpa [Instr.reads, Operand.regs] using ⟨first, second⟩) (by simp) rest

theorem neg (other : d ≠ .s0) (known : g.reg r ≠ .lost)
    (rest : Runs k w c p is (g.put d .raw) o) : Runs k w c p (.neg d r :: is) g o :=
  write rfl other (by simpa [Instr.reads] using known) (by simp) rest

theorem shift {n : Int} (known : g.reg .sp ≠ .lost) (rest : Runs k w c p is (g.above (c + n)) o) :
    Runs k w c p (.addiu .sp .sp n :: is) g o :=
  write rfl (by decide) (by simpa [Instr.reads] using known) (by simp) rest

theorem sw (known : g.reg r ≠ .lost) (place : g.reg b ≠ .lost)
    (stacked : b = .sp ∨ b = .fp → g.reg r = .object ∨ g.reg r = .entry)
    (fields : b = .s0 → g.reg r = .object)
    (rest : Runs k w c p is (track k c ⟨.sw r off b, c, p⟩ g) o) :
    Runs k w c p (.sw r off b :: is) g o := by
  refine .next ⟨?_, rfl, by simp [Instr.targets]⟩ rfl rest
  constructor
  · simpa [Instr.reads] using ⟨known, place⟩
  · intro r' off' b' stores on
    cases stores
    exact stacked on
  · intro r' off' stores
    cases stores
    exact fields rfl
  · simp [Instr.written]
  · simp [Instr.collects]
  · simp

theorem jal (returns : (Instr.jal s).proceeds = true)
    (known : ∀ q ∈ Instr.passed s, g.reg q ≠ .lost)
    (passed : (Instr.jal s).collects = true →
      g.reg .a0 = .object ∧ ∀ j : Nat, 0 < j → j ≤ p → g.word (c + wordSize * j) = .object)
    (rest : Runs k w c p is ((g.calledAt s).above (c + wordSize * p)) o) :
    Runs k w c p (.jal s :: is) g o := by
  refine .next ⟨?_, rfl, by simp [Instr.targets]⟩ returns rest
  exact ⟨known, by simp, by simp, by simp [Instr.written], passed, by simp⟩

theorem jalr (known : g.reg r ≠ .lost) (object : g.reg .a0 = .object)
    (passed : ∀ j : Nat, 0 < j → j ≤ p → g.word (c + wordSize * j) = .object)
    (rest : Runs k w c p is (g.called.above (c + wordSize * p)) o) :
    Runs k w c p (.jalr r :: is) g o := by
  refine .next ⟨?_, rfl, by simp [Instr.targets]⟩ rfl rest
  refine ⟨?_, by simp, by simp, by simp [Instr.written], fun _ => ⟨object, passed⟩, by simp⟩
  simpa [Instr.reads, object] using known

theorem abort (kind : AbortKind) (file : g.reg .a0 ≠ .lost) (line : g.reg .t1 ≠ .lost) :
    Runs k w c p [.jal (Routine.ofAbort kind).symbol] g none := by
  have passed : Instr.passed (Routine.ofAbort kind).symbol = [.a0, .t1] := by
    cases kind <;> decide
  have quiet : (Instr.jal (Routine.ofAbort kind).symbol).collects = false := by
    cases kind <;> decide
  have stops : (Instr.jal (Routine.ofAbort kind).symbol).proceeds = false := by
    cases kind <;> decide
  refine .last ⟨?_, rfl, by simp [Instr.targets]⟩ stops
  refine ⟨?_, by simp, by simp, by simp [Instr.written], ?_, by simp⟩
  · show ∀ q ∈ Instr.passed _, _
    simpa [passed] using ⟨file, line⟩
  · intro collects
    cases quiet.symm.trans collects

theorem branch {op : Cond} {a : Operand} {b : BlockName}
    (known : ∀ q ∈ r :: a.regs, g.reg q ≠ .lost) (named : b.id < w.next) (le : w.held b ≤ g)
    (rest : Runs k w c p is g o) : Runs k w c p (.branch op r a (.block b) :: is) g o := by
  refine .next ⟨?_, rfl, by simpa [Instr.targets] using ⟨named, le⟩⟩ rfl rest
  exact ⟨known, by simp, by simp, by simp [Instr.written], by simp [Instr.collects], by simp⟩

theorem goto {b : BlockName} (named : b.id < w.next) (le : w.held b ≤ g) :
    Runs k w c p [.goto (.block b)] g none := by
  refine .last ⟨?_, rfl, by simpa [Instr.targets] using ⟨named, le⟩⟩ rfl
  exact ⟨by simp [Instr.reads], by simp, by simp, by simp [Instr.written],
    by simp [Instr.collects], by simp⟩

end Runs

end Pieces

end ClassBackend.Mips
