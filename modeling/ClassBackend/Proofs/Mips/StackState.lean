import ClassBackend.Proofs.Emission.Discipline
import ClassBackend.Proofs.Mips.Emission
import ClassBackend.Proofs.Mips.StackPaths

/-! States of an annotated emission: the offset that the frame tracks is that of the slots that are
live, and all that has been emitted follows it. -/
namespace ClassBackend.Mips

open Emission Lowering

/-- How far `$sp` is from `$fp` with so many slots in use. -/
def level (n : Nat) : Int := -savedArea - wordSize * n

theorem level_zero : level 0 = -savedArea := by decide

theorem level_succ (n : Nat) : level (n + 1) = level n - wordSize := by
  simp only [level, wordSize, savedArea]
  omega

theorem level_add (n m : Nat) : level (n + m) + wordSize * m = level n := by
  simp only [level, wordSize, savedArea]
  omega

theorem level_low (n : Nat) : level n ≤ -savedArea := by
  simp only [level, wordSize, savedArea]
  omega

theorem level_few {n : Nat} (h : Word.fits (level n) = true) : n < 536870912 := by
  simp only [Word.fits, Bool.and_eq_true, decide_eq_true_eq] at h
  simp only [level, wordSize, savedArea] at h
  omega

theorem level_fits {n k : Nat} (h : Word.fits (level (n + k)) = true) :
    Word.fits (level n) = true := by
  simp only [Word.fits, Bool.and_eq_true, decide_eq_true_eq] at h ⊢
  simp only [level, wordSize, savedArea] at h ⊢
  omega

/-- Every slot stands right below those before it. -/
def Piled : List (Slot annotated) → Prop
  | [] => True
  | s :: K => s.elim id id = level K.length ∧ Piled K

theorem Piled.live {K : List (Slot annotated)} (h : Piled K) {s : Slot annotated} (hs : s ∈ K) :
    level K.length < s.elim id id ∧ s.elim id id ≤ -savedArea := by
  induction K with
  | nil => cases hs
  | cons s' K ih =>
    rw [List.length_cons, level_succ]
    have positive : (0 : Int) < wordSize := by decide
    rcases List.mem_cons.mp hs with rfl | old
    · rw [h.1]
      exact ⟨by omega, level_low _⟩
    · obtain ⟨above, below⟩ := ih h.2 old
      exact ⟨by omega, below⟩

theorem Piled.drop {R K : List (Slot annotated)} (h : Piled (R ++ K)) : Piled K := by
  induction R with
  | nil => exact h
  | cons s R ih => exact ih h.2

theorem Piled.first {a : Int} {args : List Int} {K : List (Slot annotated)}
    (h : Piled ((((a :: args).map .inr).reverse : List (Slot annotated)) ++ K)) :
    a = level K.length := by
  rw [List.map_cons, List.reverse_cons, List.append_assoc] at h
  exact h.drop.1

/-- The formals that have been bound stand where the frame says. -/
structure Numbered (F : Formals annotated) : Prop where
  within : F.bound.length ≤ F.count
  places : ∀ i a, F.bound[i]? = some a →
    a = wordSize * Word.low (F.count - i) ∧ Word.fits a = true

theorem Numbered.few {F : Formals annotated} (h : Numbered F) (all : F.bound.length = F.count) :
    F.count < 536870912 := by
  by_contra many
  have inside : F.count - 536870912 < F.bound.length := by omega
  obtain ⟨same, fits⟩ := h.places _ _ (List.getElem?_eq_getElem inside)
  have rest : F.count - (F.count - 536870912) = 536870912 := by omega
  rw [same, rest] at fits
  revert fits
  decide

theorem Numbered.inUse {F : Formals annotated} (h : Numbered F) (all : F.bound.length = F.count)
    {a : Int} (ha : a ∈ F.bound) (sp : Int) : InUse F.count sp a := by
  obtain ⟨i, inside, rfl⟩ := List.mem_iff_getElem.mp ha
  have few := h.few all
  obtain ⟨same, _⟩ := h.places _ _ (List.getElem?_eq_getElem inside)
  refine .inr ⟨F.count - i, by omega, by omega, ?_⟩
  rw [same, low_eq (by omega)]

theorem Numbered.bind {n : Nat} {as : List Int} (h : Numbered ⟨n, as⟩) (more : as.length < n)
    (fits : Word.fits (wordSize * Word.low (n - as.length)) = true) :
    Numbered ⟨n, as ++ [wordSize * Word.low (n - as.length)]⟩ where
  within := by
    rw [List.length_append]
    exact more
  places i a ha := by
    rcases Nat.lt_trichotomy i as.length with lt | rfl | gt
    · rw [List.getElem?_append_left lt] at ha
      exact h.places i a ha
    · simp only [List.getElem?_concat_length, Option.some.injEq] at ha
      exact ⟨ha.symm, ha ▸ fits⟩
    · rw [List.getElem?_eq_none (by simp; omega)] at ha
      cases ha

/-- The blocks that wait for a place, with the offset of `$sp` where they are entered. -/
def pending (O : List (Pending annotated)) : List (BlockName × Int) :=
  O.map fun p => (p.name, level p.slots.length)

def headers (H : List (BlockName × List (Slot annotated))) : List (BlockName × Int) :=
  H.map fun h => (h.1, level h.2.length)

theorem target_placed {K : List (Slot annotated)} {O : List (Pending annotated)}
    {H : List (BlockName × List (Slot annotated))} {b : BlockName} (h : Target K O H b) :
    (b, level K.length) ∈ pending O ∨ (b, level K.length) ∈ headers H := by
  rcases h with waits | header
  · exact .inl (List.mem_map.mpr ⟨_, waits, rfl⟩)
  · exact .inr (List.mem_map.mpr ⟨_, header, rfl⟩)

/-- Inside a function: all that has been emitted is in a finished function or in this one, and both
keep to the discipline so far. -/
structure Inside (F : Formals annotated) (K : List (Slot annotated)) (O : List (Pending annotated))
    (H : List (BlockName × List (Slot annotated))) (s : Record) : Prop where
  frame : s.plain.frame = some ⟨F.count, level K.length⟩
  fits : Word.fits (level K.length) = true
  stacked : Piled K
  formals : Numbered F
  code : s.plain.code.toList = s.done.flatMap Activation.code ++
    (.label (.symbol s.label) :: Frame.prologue ++ s.body.map (·.instr))
  paths : Paths s.plain.fresh.next (pending O) (headers H) F.count (level K.length) s.body
  done : ∀ a ∈ s.done, a.Disciplined

structure Idle (s : Record) : Prop where
  frame : s.plain.frame = none
  code : s.plain.code.toList = s.done.flatMap Activation.code
  done : ∀ a ∈ s.done, a.Disciplined

/-- The registers that lowered values are in. -/
def IsValue (v : Reg) : Prop := v ∈ [Reg.a0, .t1, .s0, .zero]

def General (r : Reg) : Prop := r ≠ .sp ∧ r ≠ .fp

theorem IsValue.general {v : Reg} (h : IsValue v) : General v := by
  simp only [IsValue, List.mem_cons, List.not_mem_nil, or_false] at h
  rcases h with rfl | rfl | rfl | rfl <;> exact ⟨by decide, by decide⟩

theorem IsValue.ne_t2 {v : Reg} (h : IsValue v) : v ≠ .t2 := by
  rintro rfl
  revert h
  unfold IsValue
  decide

theorem scratch_general (n : Nat) : General (Reg.scratchAt n) := by
  have five : n % 5 < 5 := Nat.mod_lt _ (by decide)
  unfold Reg.scratchAt
  generalize n % 5 = m at five
  have : ∀ m < 5, General ((Reg.scratch[m]?).getD .t2) := by
    unfold General
    decide
  exact this m five

/-- An instruction that leaves `$sp` and `$fp` alone, stays out of the frame, and is neither a jump
nor a label. -/
structure Still (pops : Nat) (i : Instr) : Prop where
  level : i.shift pops = some 0
  straight : i.targets = []
  plain : ∀ c, Noted.mark ⟨i, c, pops⟩ = none
  fixed : i.written ≠ some .fp
  away : i.frameWord = none

section Instructions

variable {d r b : Reg} {k : Nat} {off : Int} {i : Instr}

theorem still_write (writes : i.written = some d) (hd : General d) (away : i.frameWord = none) :
    Still k i := by
  obtain ⟨sp, fp⟩ := hd
  constructor
  · unfold Instr.shift
    split <;> simp_all [Instr.written]
  · cases i <;> simp_all [Instr.written, Instr.targets]
  · cases i <;> simp_all [Instr.written, Noted.mark]
  · simpa [writes] using fp
  · exact away

theorem still_load (hd : General d) (hb : b ≠ .fp) : Still k (.lw d off b) :=
  still_write rfl hd (by simp [Instr.frameWord, hb])

theorem still_store (hb : b ≠ .fp) : Still k (.sw r off b) := by
  constructor <;> simp [Instr.shift, Instr.written, Instr.targets, Noted.mark, Instr.frameWord, hb]

theorem still_call {name : String} : Still 0 (.jal name) := by
  constructor <;> simp [Instr.shift, Instr.written, Instr.targets, Noted.mark, Instr.frameWord]

theorem still_jalr : Still 0 (.jalr r) := by
  constructor <;> simp [Instr.shift, Instr.written, Instr.targets, Noted.mark, Instr.frameWord]

end Instructions

section Writing

variable {T : Fault → Prop} {ok : Instr → Prop} {α β : Type} {m : Asm α} {f : α → Asm β}
variable {R : α → Prop} {R' : β → Prop} {i : Instr}

/-- An operation that emits such instructions and nothing else. -/
def Writes (T : Fault → Prop) (ok : Instr → Prop) (m : Asm α) (R : α → Prop) : Prop :=
  ∀ t, Settles T True (m t) fun p => R p.1 ∧ ∃ is, p.2.code.toList = t.code.toList ++ is ∧
    p.2.frame = t.frame ∧ p.2.fresh = t.fresh ∧ ∀ i ∈ is, ok i

theorem Writes.ret {a : α} (ha : R a) : Writes T ok (pure a) R :=
  fun _ => ⟨trivial, ha, [], by simp, rfl, rfl, by simp⟩

theorem Writes.bind (h : Writes T ok m R) (k : ∀ a, R a → Writes T ok (f a) R') :
    Writes T ok (m >>= f) R' := by
  intro t
  refine (Settles.bind (D := True) (h t) fun p hp => ?_).mono (by simp) fun _ hq => hq
  obtain ⟨hR, is, code, frame, fresh, all⟩ := hp
  refine (k p.1 hR p.2).mono Iff.rfl fun q hq => ?_
  obtain ⟨hR', js, code', frame', fresh', all'⟩ := hq
  exact ⟨hR', is ++ js, by rw [code', code, List.append_assoc], frame'.trans frame,
    fresh'.trans fresh, List.forall_mem_append.mpr ⟨all, all'⟩⟩

theorem Writes.emit (hi : ok i) : Writes T ok (Asm.emit i) anything :=
  fun _ => ⟨trivial, trivial, [i], by simp, rfl, rfl, by simpa using hi⟩

theorem Writes.scratch : Writes T ok Asm.scratch General :=
  fun t => ⟨trivial, scratch_general t.nextScratch, [], by simp, rfl, rfl, by simp⟩

theorem Writes.ofExcept {x : Except Fault α} (h : Settles T True x R) :
    Writes T ok (Asm.ofExcept x) R := by
  intro t
  cases x with
  | ok a => exact ⟨trivial, h.2, [], by simp, rfl, rfl, by simp⟩
  | error e => exact h

theorem Writes.intoAcc {v : Reg} (hm : ok (.move .a0 v)) :
    Writes T ok (Asm.intoAcc v) anything := by
  unfold Asm.intoAcc
  split
  · exact .ret trivial
  · exact .emit hm

theorem Writes.inReg {a : Operand} (hl : ∀ r n, General r → ok (.li r n)) :
    Writes T ok (Asm.inReg a) anything := by
  cases a with
  | reg r => exact .ret trivial
  | imm n =>
    refine Writes.bind .scratch fun r hr => ?_
    exact Writes.bind (.emit (hl r n hr)) fun _ _ => .ret trivial

end Writing

theorem fits_falsity : Word.fits 0 = true := by decide
theorem fits_truth : Word.fits 1 = true := by decide
theorem fits_savedArea : Word.fits (-savedArea) = true := by decide

section Words

attribute [local irreducible] Word.low Word.fits

variable {T : Fault → Prop} (excused : ∀ op, T (.overflow op))
include excused

theorem checked_settles (op : Overflow) (n : Int) :
    Settles T True (Word.checked op n) fun m => m = n ∧ Word.fits n = true := by
  unfold Word.checked
  split
  · rename_i fits
    exact ⟨trivial, rfl, fits⟩
  · exact fun _ => excused op

theorem add_settles (a b : Int) :
    Settles T True (Word.add a b) fun m => m = a + b ∧ Word.fits (a + b) = true := by
  unfold Word.add
  exact checked_settles excused _ _

theorem sub_settles (a b : Int) :
    Settles T True (Word.sub a b) fun m => m = a - b ∧ Word.fits (a - b) = true := by
  unfold Word.sub
  exact checked_settles excused _ _

theorem mul_settles (a b : Int) :
    Settles T True (Word.mul a b) fun m => m = a * b ∧ Word.fits (a * b) = true := by
  unfold Word.mul
  exact checked_settles excused _ _

theorem fieldOffset_settles (slot : Nat) : Settles T True (fieldOffset slot) anything := by
  have sum (n : Int) : Settles T True (Word.add headerSize n) anything :=
    (add_settles excused _ _).mono Iff.rfl fun _ _ => trivial
  exact (mul_settles excused _ _).then fun n _ => sum n

end Words

namespace Record

variable {T : Fault → Prop} {α : Type} {m : Asm α} {R : α → Prop} {k : Nat} {s : Record} {t : State}
variable {F : Formals annotated} {K : List (Slot annotated)} {O : List (Pending annotated)}
variable {H : List (BlockName × List (Slot annotated))} {is : List Instr} {a : α}

theorem noted_run {l : List Instr} (run : m s.plain = .ok (a, t))
    (grown : t.code.toList = s.plain.code.toList ++ l) :
    noted k m s = .ok (a, { s with
      plain := t
      body := s.body ++ l.map fun i => ⟨i, s.offset, k⟩ }) := by
  have added : t.code.toList.drop s.plain.code.size = l := by
    rw [grown, ← Array.length_toList, List.drop_left]
  simp only [noted, run, added]

end Record

/-- An instruction that may stand here and leaves `$sp` as it is. -/
structure Allowed (O H : List (BlockName × Int)) (formals : Nat) (c : Int) (k : Nat) (i : Instr) :
    Prop where
  fits : Paths.Fits O H formals c c ⟨i, c, k⟩
  plain : Noted.mark ⟨i, c, k⟩ = none

section Extending

variable {T : Fault → Prop} {α : Type} {m : Asm α} {R : α → Prop} {k n formals : Nat} {c : Int}
variable {O H : List (BlockName × Int)} {body : List Noted} {is : List Instr} {i : Instr}

theorem Still.allowed (h : Still k i) (low : c ≤ -savedArea) : Allowed O H formals c k i where
  fits := {
    here := rfl
    shift := ⟨0, h.level, fun _ => by simp⟩
    targets := by simp [h.straight]
    fixed := h.fixed
    floor := low
    words := by simp [h.away] }
  plain := h.plain c

theorem Paths.extend {l : List Instr} (h : Paths n O H formals c body)
    (all : ∀ i ∈ l, Allowed O H formals c k i) :
    Paths n O H formals c (body ++ l.map fun i => ⟨i, c, k⟩) := by
  induction l generalizing body with
  | nil => simpa using h
  | cons i l ih =>
    obtain ⟨fits, plain⟩ := all i (List.mem_cons_self ..)
    have rest := ih (h.snoc fits plain) fun j hj => all j (List.mem_cons_of_mem _ hj)
    simpa using rest

end Extending

section Inside

open Record

variable {T : Fault → Prop} {α : Type} {m : Asm α} {R : α → Prop} {k : Nat} {s : Record} {t : State}
variable {F : Formals annotated} {K K' : List (Slot annotated)} {O O' : List (Pending annotated)}
variable {H H' : List (BlockName × List (Slot annotated))} {is : List Instr} {i : Instr}

theorem Inside.offset (h : Inside F K O H s) : s.offset = level K.length := by
  simp only [Record.offset, h.frame]

theorem Inside.extend (h : Inside F K O H s)
    (code : t.code.toList = s.plain.code.toList ++ is)
    (frame : t.frame = some ⟨F.count, level K'.length⟩) (fits : Word.fits (level K'.length) = true)
    (stacked : Piled K')
    (paths : Paths t.fresh.next (pending O') (headers H') F.count (level K'.length)
      (s.body ++ is.map fun i => ⟨i, s.offset, k⟩)) :
    Inside F K' O' H' { s with
      plain := t
      body := s.body ++ is.map fun i => ⟨i, s.offset, k⟩ } where
  frame := frame
  fits := fits
  stacked := stacked
  formals := h.formals
  code := by
    rw [code, h.code]
    simp [Function.comp_def]
  paths := paths
  done := h.done

theorem noted_inside
    (h : Writes T (Allowed (pending O) (headers H) F.count (level K.length) k) m R) :
    Emits T True (Inside F K O H) (noted k m) R fun _ => Inside F K O H := by
  intro s hs
  have step := h s.plain
  cases run : m s.plain with
  | error e =>
    rw [run] at step
    simp only [noted, run]
    exact step
  | ok p =>
    rw [run] at step
    obtain ⟨_, hR, is, code, frame, fresh, all⟩ := step
    rw [noted_run run code]
    refine ⟨trivial, hR, hs.extend code (frame.trans hs.frame) hs.fits hs.stacked ?_⟩
    rw [hs.offset, fresh]
    exact hs.paths.extend all

theorem noted_still (h : Writes T (Still k) m R) :
    Emits T True (Inside F K O H) (noted k m) R fun _ => Inside F K O H := by
  refine noted_inside fun t => (h t).mono Iff.rfl fun p hp => ?_
  obtain ⟨hR, is, code, frame, fresh, all⟩ := hp
  exact ⟨hR, is, code, frame, fresh, fun i hi => (all i hi).allowed (level_low _)⟩

end Inside

end ClassBackend.Mips
