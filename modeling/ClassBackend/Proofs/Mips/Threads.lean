import ClassBackend.Proofs.Mips.Emission

/-! Straight-line code on a memory of words, where control is an address. A store gives a word its
value whatever was there, and a jump that means to come back leaves the address behind it in `$ra`.
With it, the frame states that a function can be in and the words it has in use there. -/
namespace ClassBackend.Mips

open Lowering

def shifted (a : BitVec 32) (n : Int) : BitVec 32 := a + BitVec.ofInt 32 n

section Addresses

variable {a : BitVec 32} {m n : Int}

theorem add_ofInt : a + BitVec.ofInt 32 n = shifted a n := rfl

@[simp] theorem shifted_zero : shifted a 0 = a := by
  unfold shifted
  exact BitVec.add_zero a

@[simp] theorem shifted_shifted : shifted (shifted a m) n = shifted a (m + n) := by
  simp only [shifted, BitVec.ofInt_add, BitVec.add_assoc]

theorem shifted_ne (apart : m ≠ n) (above : m - n < 4294967296) (below : n - m < 4294967296) :
    shifted a m ≠ shifted a n := by
  intro same
  have offsets : BitVec.ofInt 32 m = BitVec.ofInt 32 n := (BitVec.add_right_inj a).mp same
  have naturals := congrArg BitVec.toNat offsets
  simp only [BitVec.toNat_ofInt] at naturals
  omega

theorem shifted_ne_self (apart : n ≠ 0) (above : n < 4294967296) (below : -n < 4294967296) :
    shifted a n ≠ a := by
  intro same
  rw [← @shifted_zero a, shifted_shifted] at same
  exact shifted_ne (by omega) (by omega) (by omega) same

theorem shifted_sub (h : Word.fits n = true) : (shifted a n - a).toInt = n := by
  have difference : shifted a n - a = BitVec.ofInt 32 n := by
    unfold shifted
    rw [BitVec.add_comm, BitVec.add_sub_cancel]
  rw [difference, fits_toInt h]

theorem eq_shifted {b : BitVec 32} (h : (b - a).toInt = n) : b = shifted a n := by
  rw [← h, shifted, BitVec.ofInt_toInt, BitVec.add_comm, BitVec.sub_add_cancel]

end Addresses

structure Thread where
  pc : BitVec 32
  cpu : Cpu

namespace Thread

def get (s : Thread) (r : Reg) : BitVec 32 := s.cpu.get r

def word (s : Thread) (a : BitVec 32) : Option (BitVec 32) := s.cpu.mem a

/-- Control goes to an address, and the one behind the jump stays in `$ra`. -/
def jump (s : Thread) (target : BitVec 32) : Thread := ⟨target, s.cpu.set .ra (s.pc + 4)⟩

@[simp] theorem get_mk (a : BitVec 32) (s : Cpu) (r : Reg) : (Thread.mk a s).get r = s.get r := rfl

@[simp] theorem word_mk (a b : BitVec 32) (s : Cpu) : (Thread.mk a s).word b = s.mem b := rfl

theorem jump_get (s : Thread) (target : BitVec 32) {r : Reg} (other : r ≠ .ra) :
    (s.jump target).get r = s.get r :=
  Cpu.get_set_ne _ _ other

@[simp] theorem jump_ra (s : Thread) (target : BitVec 32) :
    (s.jump target).get .ra = s.pc + 4 :=
  Cpu.get_set_self _ _ (by decide)

@[simp] theorem jump_word (s : Thread) (target : BitVec 32) : (s.jump target).word = s.word := rfl

end Thread

namespace Site

variable (u : Site)

def advance (s : Thread) : Instr → Option Thread
  | .label _ => some s
  | .sw r off b => some ⟨s.pc + 4, s.cpu.store (s.cpu.get b + BitVec.ofInt 32 off) (s.cpu.get r)⟩
  | .jal name => some (s.jump (u.symbol name))
  | .jalr r => some (s.jump (s.get r))
  | .jr r => some ⟨s.get r, s.cpu⟩
  | i => (u.effect s.cpu i).map (Thread.mk (s.pc + 4))

def follow : List Instr → Thread → Option Thread
  | [], s => some s
  | i :: is, s => (u.advance s i).bind (follow is)

end Site

section Pieces

variable (u : Site)

/-- The processor once the callee's saved area is written and its registers are set. -/
def entered (s : Cpu) : Cpu :=
  ((((s.set .sp (shifted (s.get .sp) (-12))).store (s.get .sp) (s.get .fp)).store
    (shifted (s.get .sp) (-4)) (s.get .s0)).store
    (shifted (s.get .sp) (-8)) (s.get .ra)).set .fp (s.get .sp) |>.set .s0 (s.get .a0)

theorem follow_push (s : Thread) (r : Reg) : u.follow (Frame.pushCode r) s =
    some ⟨s.pc + 4 + 4,
      (s.cpu.store (s.get .sp) (s.get r)).set .sp (shifted (s.get .sp) (-4))⟩ := by
  simp only [Frame.pushCode, Site.follow, Site.advance, Site.effect, Option.bind_some,
    Option.map_some, Cpu.store_get, add_ofInt, shifted_zero, Thread.get, wordSize]

theorem follow_prologue (s : Thread) :
    u.follow Frame.prologue s = some ⟨s.pc + 4 + 4 + 4 + 4 + 4 + 4, entered s.cpu⟩ := by
  simp only [Frame.prologue, Site.follow, Site.advance, Site.effect, Option.bind_some,
    Option.map_some, Cpu.store_get, Cpu.get_set, add_ofInt, shifted_shifted, savedArea,
    reduceCtorEq, if_true, if_false, Int.reduceNeg, Int.reduceAdd, shifted_zero, entered]

theorem epilogue_ok {g : Frame} {code : List Instr} (h : g.epilogue = .ok code) :
    code = [.lw .ra 4 .sp, .lw .s0 8 .sp, .lw .fp 12 .sp,
      .addiu .sp .sp (12 + 4 * Word.low g.formals), .jr .ra] := by
  unfold Frame.epilogue at h
  split at h
  · simp only [Word.add, Word.mul, wordSize, savedArea, except_bind_ok, checked_ok,
      except_pure_ok] at h
    obtain ⟨_, ⟨_, rfl⟩, _, ⟨_, rfl⟩, rfl⟩ := h
    rfl
  · cases h

theorem words_ok {n : Nat} (few : n < 536870912) :
    Word.mul wordSize (Word.low n) = .ok (4 * (n : Int)) := by
  have fits : Word.fits (4 * (n : Int)) = true := by
    simp only [Word.fits, Bool.and_eq_true, decide_eq_true_eq]
    omega
  rw [low_eq (by omega)]
  exact checked_ok.mpr ⟨fits, rfl⟩

theorem formalOffset_ok {g : Frame} {i : Nat} (hi : i < g.formals) (few : g.formals < 536870912) :
    g.formalOffset i = .ok (4 * ((g.formals - i : Nat) : Int)) := by
  rw [Frame.formalOffset, if_pos hi]
  exact words_ok (by omega)

theorem epilogue_exists {n : Nat} (few : n + 3 < 536870912) :
    ∃ code, (Frame.new n).epilogue = .ok code := by
  have count := words_ok (n := n) (by omega)
  have total : Word.add savedArea (4 * (n : Int)) = .ok (12 + 4 * (n : Int)) := by
    have fits : Word.fits (12 + 4 * (n : Int)) = true := by
      simp only [Word.fits, Bool.and_eq_true, decide_eq_true_eq]
      omega
    exact checked_ok.mpr ⟨fits, rfl⟩
  have balanced : (Frame.new n).spOffset = -savedArea := rfl
  unfold Frame.epilogue
  rw [if_pos balanced]
  exact ⟨_, except_bind_ok.mpr ⟨_, count, except_bind_ok.mpr ⟨_, total, rfl⟩⟩⟩

theorem follow_epilogue {g : Frame} {code : List Instr} (h : g.epilogue = .ok code) {b : Thread}
    {base fp self back : BitVec 32} (sp : b.get .sp = shifted base (-12))
    (first : b.word base = some fp) (second : b.word (shifted base (-4)) = some self)
    (third : b.word (shifted base (-8)) = some back) :
    ∃ r, u.follow code b = some r ∧ r.pc = back ∧ r.get .fp = fp ∧ r.get .s0 = self ∧
      r.get .sp = shifted base (4 * Word.low g.formals) ∧ r.word = b.word := by
  simp only [Thread.get] at sp
  simp only [Thread.word] at first second third
  have top (n : Int) : -12 + (12 + n) = n := by omega
  refine ⟨⟨back, (((b.cpu.set .ra back).set .s0 self).set .fp fp).set .sp
    (shifted base (4 * Word.low g.formals))⟩, ?_, rfl, ?_, ?_, ?_, rfl⟩
  · simp only [epilogue_ok h, Site.follow, Site.advance, Site.effect, Thread.get, Option.bind_some,
      Option.map_some, Cpu.get_set, Cpu.set_mem, sp, add_ofInt, shifted_shifted, shifted_zero,
      first, second, third, top, reduceCtorEq, if_true, if_false, Int.reduceNeg, Int.reduceAdd]
  · simp
  · simp
  · simp

end Pieces

/-- The states that a frame comes to, with the words in use, newest first: a word is given back when
it is the newest, and a callee pops words that were pushed for it. -/
inductive Frame.Uses : Frame → List Int → Prop where
  | new (formals : Nat) : Uses (Frame.new formals) []
  | push {f f' : Frame} {slots : List Int} {slot : Int} :
      Uses f slots → f.push = .ok (slot, f') → Uses f' (slot :: slots)
  | release {f f' : Frame} {slots : List Int} {slot : Int} :
      Uses f (slot :: slots) → f.release slot = .ok f' → Uses f' slots
  | popped {f f' : Frame} {slots : List Int} {n : Nat} :
      Uses f slots → n ≤ slots.length → f.calleePopped n = .ok f' → Uses f' (slots.drop n)

section Slots

variable {f f' : Frame} {slots : List Int} {slot : Int}

/-- The offsets of the first words below the saved area, the last of them first. -/
def firstSlots : Nat → List Int
  | 0 => []
  | n + 1 => (-12 - 4 * n) :: firstSlots n

theorem drop_firstSlots (m n : Nat) : (firstSlots m).drop n = firstSlots (m - n) := by
  induction n generalizing m with
  | zero => rfl
  | succ n ih =>
    cases m with
    | zero => simp [firstSlots]
    | succ m => simp [firstSlots, ih]

theorem mem_firstSlots {n : Nat} (h : slot ∈ firstSlots n) :
    -12 - 4 * (n : Int) < slot ∧ slot ≤ -12 := by
  induction n with
  | zero => cases h
  | succ n ih =>
    rcases List.mem_cons.mp h with rfl | h
    · omega
    · have := ih h
      omega

theorem Frame.push_eq (h : f.push = .ok (slot, f')) : slot = f.spOffset ∧
    Word.fits (f.spOffset - 4) = true ∧ f' = { f with spOffset := f.spOffset - 4 } := by
  simp only [Frame.push, Word.sub, wordSize, except_bind_ok, checked_ok, except_pure_ok,
    Prod.mk.injEq] at h
  obtain ⟨_, ⟨fits, rfl⟩, rfl, rfl⟩ := h
  exact ⟨rfl, fits, rfl⟩

/-- How far down the frame reaches tells which words are in use. -/
structure Tracks (f : Frame) (slots : List Int) : Prop where
  first : slots = firstSlots slots.length
  offset : f.spOffset = -12 - 4 * (slots.length : Int)
  fits : Word.fits f.spOffset = true

theorem Frame.Uses.tracks (h : f.Uses slots) : Tracks f slots := by
  induction h with
  | new formals => exact ⟨rfl, rfl, rfl⟩
  | push _ pushed ih =>
    obtain ⟨rfl, fits, rfl⟩ := Frame.push_eq pushed
    refine ⟨?_, ?_, fits⟩
    · rw [List.length_cons, firstSlots, ← ih.offset, ← ih.first]
    · simp only [List.length_cons, ih.offset]
      omega
  | @release f f' slots slot _ released ih =>
    obtain ⟨-, fits, rfl⟩ := release_ok released
    have below := ih.first
    rw [List.length_cons, firstSlots, List.cons.injEq] at below
    refine ⟨below.2, ?_, fits⟩
    have := ih.offset
    simp only [List.length_cons] at this ⊢
    omega
  | @popped f f' slots n _ pushed popped ih =>
    obtain ⟨fits, rfl⟩ := calleePopped_ok popped
    have := ih.offset
    have range := ih.fits
    simp only [Word.fits, Bool.and_eq_true, decide_eq_true_eq] at range
    refine ⟨?_, ?_, fits⟩
    · rw [List.length_drop, ← drop_firstSlots, ← ih.first]
    · rw [low_eq (by omega)]
      simp only [List.length_drop]
      omega

end Slots

end ClassBackend.Mips
