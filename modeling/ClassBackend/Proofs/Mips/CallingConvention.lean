import ClassBackend.Proofs.Mips.Threads

/-! The calling convention. A caller pushes the arguments and jumps; the callee finds them above its
frame pointer, counted from the other end, and pops them behind the registers that it saved. So the
caller goes on with its frame as it was before the first push. -/
namespace ClassBackend.Mips

open Lowering

/-- What the code that works out an argument leaves alone: its own frame and stack pointer, the
arguments pushed so far, and the words that are to be kept. -/
structure Meanwhile (keep : BitVec 32 → Prop) (pushed : Nat) (s s' : Thread) : Prop where
  sp : s'.get .sp = s.get .sp
  fp : s'.get .fp = s.get .fp
  args : ∀ j < pushed, s'.word (shifted (s.get .sp) (4 * (j + 1))) =
    s.word (shifted (s.get .sp) (4 * (j + 1)))
  kept : ∀ a, keep a → s'.word a = s.word a

/-- The arguments are pushed one after the other, each from the register that it was worked out in,
with so many of them pushed already; the last state is that of the jump. -/
inductive Passes (u : Site) (keep : BitVec 32 → Prop) :
    Nat → Frame → Thread → List (BitVec 32) → Frame → Thread → Prop where
  | jump {k : Nat} {f : Frame} {s c : Thread} : Meanwhile keep k s c → Passes u keep k f s [] f c
  | push {k : Nat} {f f' f'' : Frame} {s m e c : Thread} {r : Reg} {slot : Int}
      {args : List (BitVec 32)} : Meanwhile keep k s m → f.push = .ok (slot, f') →
      u.follow (Frame.pushCode r) m = some e → Passes u keep (k + 1) f' e args f'' c →
      Passes u keep k f s (m.get r :: args) f'' c

inductive Calls : Instr → Prop where
  | jal (name : String) : Calls (.jal name)
  | jalr (r : Reg) : Calls (.jalr r)

/-- The second address lies above the first, by less than half of the memory. -/
def Above (base a : BitVec 32) : Prop := 0 < (a - base).toInt

/-- What a body with so many arguments does meanwhile the prologue and the epilogue: it may do as it
likes below its saved area, to its own arguments and to the other registers. -/
structure Body (arguments : Nat) (e b : Thread) : Prop where
  sp : b.get .sp = e.get .sp
  fp : b.get .fp = e.get .fp
  saved : ∀ j : Nat, j < 3 →
    b.word (shifted (e.get .fp) (-4 * j)) = e.word (shifted (e.get .fp) (-4 * j))
  above : ∀ a, Above (e.get .fp) a →
    (∀ j : Nat, j < arguments → a ≠ shifted (e.get .fp) (4 * (j + 1))) → b.word a = e.word a

structure Receives (args : List (BitVec 32)) (c e : Thread) : Prop where
  self : e.get .s0 = c.get .a0
  argument : ∀ g : Frame, g.formals = args.length → ∀ (i : Nat) (hi : i < args.length),
    ∃ off, g.formalOffset i = .ok off ∧ e.word (shifted (e.get .fp) off) = some args[i]

/-- How the caller goes on: `f` is its frame in `s`, before the first push, and `f'` in `c`, at the
jump. -/
structure Resumes (keep : BitVec 32 → Prop) (f f' : Frame) (slots : List Int) (arguments : Nat)
    (s c r : Thread) : Prop where
  pc : r.pc = c.pc + 4
  fp : r.get .fp = c.get .fp
  self : r.get .s0 = c.get .s0
  sp : r.get .sp = s.get .sp
  /-- The words in use are those of the jump, and those of the first push where the arguments that
  were worked out in between left them alone. -/
  live : ∀ x ∈ slots, r.word (shifted (r.get .fp) x) = c.word (shifted (r.get .fp) x)
  kept : ∀ x ∈ slots, keep (shifted (r.get .fp) x) →
    r.word (shifted (r.get .fp) x) = s.word (shifted (r.get .fp) x)
  popped : f'.calleePopped arguments = .ok f
  tracked : (r.get .sp - r.get .fp).toInt = f.spOffset

variable {u : Site} {keep : BitVec 32 → Prop} {k : Nat} {f f' : Frame} {slots : List Int}
  {s c : Thread} {args : List (BitVec 32)}

section Caller

theorem pushed_word {m e : Thread} {r : Reg} (h : u.follow (Frame.pushCode r) m = some e) :
    e.get .sp = shifted (m.get .sp) (-4) ∧ e.get .fp = m.get .fp ∧
      e.word (m.get .sp) = some (m.get r) ∧ ∀ a, a ≠ m.get .sp → e.word a = m.word a := by
  rw [follow_push] at h
  cases h
  refine ⟨Cpu.get_set_self _ _ (by decide), Cpu.get_set_ne _ _ (by decide), ?_, ?_⟩
  · exact Function.update_self _ _ _
  · exact fun a other => Function.update_of_ne other _ _

theorem Passes.uses (h : Passes u keep k f s args f' c) (live : f.Uses slots) :
    ∃ pushed, pushed.length = args.length ∧ f'.Uses (pushed ++ slots) ∧ f'.formals = f.formals := by
  induction h generalizing slots with
  | jump => exact ⟨[], rfl, live, rfl⟩
  | @push _ _ _ _ _ _ _ _ _ slot _ _ pushed _ _ ih =>
    obtain ⟨rest, length, live, same⟩ := ih (live.push pushed)
    obtain ⟨-, -, rfl⟩ := Frame.push_eq pushed
    refine ⟨rest ++ [slot], ?_, ?_, same⟩
    · rw [List.length_append, length, List.length_singleton, List.length_cons]
    · rwa [List.append_assoc, List.singleton_append]

theorem Passes.fp (h : Passes u keep k f s args f' c) : c.get .fp = s.get .fp := by
  induction h with
  | jump meanwhile => exact meanwhile.fp
  | push meanwhile _ run _ ih => rw [ih, (pushed_word run).2.1, meanwhile.fp]

theorem Passes.sp (h : Passes u keep k f s args f' c) :
    c.get .sp = shifted (s.get .sp) (-4 * args.length) := by
  induction h with
  | jump meanwhile => simpa using meanwhile.sp
  | push meanwhile _ run _ ih =>
    rw [ih, (pushed_word run).1, meanwhile.sp, shifted_shifted, List.length_cons]
    congr 1
    omega

theorem Passes.earlier (h : Passes u keep k f s args f' c)
    (room : 4 * (k + args.length) < 4294967296) {j : Nat} (hj : j < k) :
    c.word (shifted (s.get .sp) (4 * (j + 1))) = s.word (shifted (s.get .sp) (4 * (j + 1))) := by
  induction h generalizing j with
  | jump meanwhile => exact meanwhile.args j hj
  | @push k _ _ _ s m e _ _ _ _ meanwhile _ run _ ih =>
    obtain ⟨sp, -, -, others⟩ := pushed_word run
    have lower : shifted (e.get .sp) (4 * ((j + 1 : Nat) + 1)) =
        shifted (s.get .sp) (4 * (j + 1)) := by
      rw [sp, meanwhile.sp, shifted_shifted]
      congr 1
      omega
    simp only [List.length_cons] at room
    have apart : shifted (s.get .sp) (4 * (j + 1)) ≠ m.get .sp := by
      rw [meanwhile.sp, ← @shifted_zero (s.get .sp), shifted_shifted]
      exact shifted_ne (by omega) (by omega) (by omega)
    rw [← lower, ih (by omega) (by omega), lower, others _ apart, meanwhile.args j hj]

/-- At the jump the last argument stands right above the stack pointer, the first one highest. -/
theorem Passes.passed (h : Passes u keep k f s args f' c)
    (room : 4 * (k + args.length) < 4294967296) {i : Nat} (hi : i < args.length) :
    c.word (shifted (c.get .sp) (4 * ((args.length - i : Nat) : Int))) = some args[i] := by
  induction h generalizing i with
  | jump => cases hi
  | @push k _ _ _ s m e c r _ args meanwhile _ run rest ih =>
    simp only [List.length_cons] at room hi
    cases i with
    | zero =>
      obtain ⟨sp, -, here, -⟩ := pushed_word run
      have top : shifted (c.get .sp) (4 * ((args.length + 1 - 0 : Nat) : Int)) =
          shifted (e.get .sp) (4 * ((0 : Nat) + 1)) := by
        rw [rest.sp, shifted_shifted]
        congr 1
        omega
      have own : shifted (e.get .sp) (4 * ((0 : Nat) + 1)) = m.get .sp := by
        rw [sp, shifted_shifted]
        exact shifted_zero
      rw [List.length_cons, top, rest.earlier (by omega) (Nat.succ_pos k), own, here]
      rfl
    | succ i =>
      have later := ih (by omega) (i := i) (by omega)
      simpa using later

theorem Passes.kept (h : Passes u keep k f s args f' c) {a : BitVec 32} (ha : keep a)
    (apart : ∀ j < args.length, a ≠ shifted (s.get .sp) (-4 * j)) : c.word a = s.word a := by
  induction h with
  | jump meanwhile => exact meanwhile.kept a ha
  | @push _ _ _ _ s m e _ _ _ args meanwhile _ run _ ih =>
    obtain ⟨sp, -, -, others⟩ := pushed_word run
    have first : a ≠ m.get .sp := by
      have := apart 0 (Nat.succ_pos _)
      rwa [meanwhile.sp, ← @shifted_zero (s.get .sp)]
    rw [ih fun j hj => ?_, others a first, meanwhile.kept a ha]
    have := apart (j + 1) (Nat.succ_lt_succ hj)
    rw [sp, meanwhile.sp, shifted_shifted]
    refine fun same => this (same.trans ?_)
    congr 1
    omega

end Caller

section Callee

@[simp] theorem entered_sp (s : Cpu) : (entered s).get .sp = shifted (s.get .sp) (-12) := by
  simp [entered]

@[simp] theorem entered_fp (s : Cpu) : (entered s).get .fp = s.get .sp := by
  simp [entered]

@[simp] theorem entered_s0 (s : Cpu) : (entered s).get .s0 = s.get .a0 := by
  simp [entered]

theorem entered_mem (s : Cpu) : (entered s).mem = Function.update (Function.update
    (Function.update s.mem (s.get .sp) (some (s.get .fp)))
    (shifted (s.get .sp) (-4)) (some (s.get .s0)))
    (shifted (s.get .sp) (-8)) (some (s.get .ra)) := rfl

theorem entered_saved (s : Cpu) : (entered s).mem (s.get .sp) = some (s.get .fp) ∧
    (entered s).mem (shifted (s.get .sp) (-4)) = some (s.get .s0) ∧
    (entered s).mem (shifted (s.get .sp) (-8)) = some (s.get .ra) := by
  have first : s.get .sp ≠ shifted (s.get .sp) (-4) :=
    (shifted_ne_self (by decide) (by decide) (by decide)).symm
  have second : s.get .sp ≠ shifted (s.get .sp) (-8) :=
    (shifted_ne_self (by decide) (by decide) (by decide)).symm
  have third : shifted (s.get .sp) (-4) ≠ shifted (s.get .sp) (-8) :=
    shifted_ne (by decide) (by decide) (by decide)
  rw [entered_mem]
  refine ⟨?_, ?_, Function.update_self _ _ _⟩
  · rw [Function.update_of_ne second, Function.update_of_ne first, Function.update_self]
  · rw [Function.update_of_ne third, Function.update_self]

theorem entered_above (s : Cpu) {n : Int} (low : 0 < n) (high : n < 2147483648) :
    (entered s).mem (shifted (s.get .sp) n) = s.mem (shifted (s.get .sp) n) := by
  have first : shifted (s.get .sp) n ≠ s.get .sp :=
    shifted_ne_self (by omega) (by omega) (by omega)
  have second : shifted (s.get .sp) n ≠ shifted (s.get .sp) (-4) :=
    shifted_ne (by omega) (by omega) (by omega)
  have third : shifted (s.get .sp) n ≠ shifted (s.get .sp) (-8) :=
    shifted_ne (by omega) (by omega) (by omega)
  rw [entered_mem, Function.update_of_ne third, Function.update_of_ne second,
    Function.update_of_ne first]

/-- The callee's state behind the prologue, told from the jump. -/
structure Entry (c e : Thread) : Prop where
  sp : e.get .sp = shifted (c.get .sp) (-12)
  fp : e.get .fp = c.get .sp
  self : e.get .s0 = c.get .a0
  oldFp : e.word (c.get .sp) = some (c.get .fp)
  oldSelf : e.word (shifted (c.get .sp) (-4)) = some (c.get .s0)
  back : e.word (shifted (c.get .sp) (-8)) = some (c.pc + 4)
  above : ∀ n : Int, 0 < n → n < 2147483648 →
    e.word (shifted (c.get .sp) n) = c.word (shifted (c.get .sp) n)

theorem follow_entry (u : Site) (c : Thread) (target : BitVec 32) :
    ∃ e, u.follow Frame.prologue (c.jump target) = some e ∧ Entry c e := by
  have other {r : Reg} (h : r ≠ .ra) : (c.jump target).cpu.get r = c.get r := c.jump_get target h
  have sp := other (r := .sp) (by decide)
  obtain ⟨oldFp, oldSelf, back⟩ := entered_saved (c.jump target).cpu
  rw [sp, other (by decide)] at oldFp oldSelf
  rw [sp] at back
  refine ⟨_, follow_prologue u _, ?_, ?_, ?_, ?_, ?_, ?_, ?_⟩
  · rw [Thread.get_mk, entered_sp, sp]
  · rw [Thread.get_mk, entered_fp, sp]
  · rw [Thread.get_mk, entered_s0, other (by decide)]
  · rw [Thread.word_mk, oldFp]
  · rw [Thread.word_mk, oldSelf]
  · rw [Thread.word_mk, back]
    exact congrArg some (c.jump_ra target)
  · intro n low high
    have same := entered_above (c.jump target).cpu low high
    rw [sp] at same
    rw [Thread.word_mk, same]
    rfl

end Callee

section Call

/-- Where the words of caller and callee are, seen from the stack pointer at the jump. -/
structure Placed (f f' : Frame) (slots : List Int) (n : Nat) (s c : Thread) : Prop where
  room : 12 + 4 * ((n : Int) + slots.length) ≤ 2147483648
  formals : f'.formals = f.formals
  before : f.spOffset = -12 - 4 * (slots.length : Int)
  offset : f'.spOffset = f.spOffset - 4 * n
  fp : c.get .fp = s.get .fp
  sp : s.get .sp = shifted (c.get .sp) (4 * n)
  slot : ∀ x ∈ slots, ∃ d : Int, shifted (s.get .fp) x = shifted (c.get .sp) d ∧
    4 * (n : Int) < d ∧ d < 2147483648

theorem Passes.placed (h : Passes u keep 0 f s args f' c) (live : f.Uses slots)
    (tracked : (s.get .sp - s.get .fp).toInt = f.spOffset) :
    Placed f f' slots args.length s c := by
  obtain ⟨pushed, length, live', formals⟩ := h.uses live
  have before := live.tracks
  have after := live'.tracks
  have offset := after.offset
  have range := after.fits
  simp only [List.length_append, length] at offset
  simp only [Word.fits, Bool.and_eq_true, decide_eq_true_eq] at range
  have start := before.offset
  have sp : s.get .sp = shifted (c.get .sp) (4 * args.length) := by
    rw [h.sp, shifted_shifted]
    have none : -4 * (args.length : Int) + 4 * args.length = 0 := by omega
    rw [none, shifted_zero]
  refine ⟨by omega, formals, start, by omega, h.fp, sp, fun x hx => ?_⟩
  have first := before.first
  rw [first] at hx
  have := mem_firstSlots hx
  refine ⟨x - f.spOffset + 4 * args.length, ?_, by omega, by omega⟩
  rw [h.sp, eq_shifted tracked, shifted_shifted, shifted_shifted]
  congr 1
  omega

theorem Entry.receives {e : Thread} (h : Entry c e) (passed : Passes u keep 0 f s args f' c)
    (place : Placed f f' slots args.length s c) : Receives args c e where
  self := h.self
  argument g formals i hi := by
    have room := place.room
    refine ⟨4 * ((args.length - i : Nat) : Int), ?_, ?_⟩
    · rw [← formals] at hi ⊢
      exact formalOffset_ok hi (by omega)
    · rw [h.fp, h.above _ (by omega) (by omega)]
      exact passed.passed (by omega) hi

theorem Placed.popped (h : Placed f f' slots args.length s c) (fits : Word.fits f.spOffset = true) :
    f'.calleePopped args.length = .ok f := by
  have room := h.room
  have bytes := words_ok (n := args.length) (by omega)
  have back : f'.spOffset + 4 * (args.length : Int) = f.spOffset := by
    rw [h.offset, Int.sub_add_cancel]
  have sum : Word.add f'.spOffset (4 * (args.length : Int)) = .ok f.spOffset := by
    rw [Word.add, back]
    exact checked_ok.mpr ⟨fits, rfl⟩
  have within : f.spOffset ≤ -savedArea := by
    rw [h.before, savedArea]
    omega
  have same : ({ f' with spOffset := f.spOffset } : Frame) = f := by
    rw [h.formals]
  unfold Frame.calleePopped
  refine except_bind_ok.mpr ⟨_, bytes, except_bind_ok.mpr ⟨_, sum, ?_⟩⟩
  rw [if_pos within, same]
  rfl

theorem Body.live {e b : Thread} (h : Body args.length e b) (entry : Entry c e)
    (place : Placed f f' slots args.length s c) {x : Int} (hx : x ∈ slots) :
    b.word (shifted (s.get .fp) x) = c.word (shifted (s.get .fp) x) := by
  obtain ⟨d, same, low, high⟩ := place.slot x hx
  have fits : Word.fits d = true := by
    simp only [Word.fits, Bool.and_eq_true, decide_eq_true_eq]
    omega
  rw [same, ← entry.above d (by omega) high]
  rw [← entry.fp] at same ⊢
  refine h.above _ ?_ fun j hj => shifted_ne (by omega) (by omega) (by omega)
  rw [Above, shifted_sub fits]
  omega

theorem Body.resumes {e b : Thread} {g : Frame} {code : List Instr} (h : Body args.length e b)
    (entry : Entry c e) (place : Placed f f' slots args.length s c)
    (tracked : (s.get .sp - s.get .fp).toInt = f.spOffset) (fits : Word.fits f.spOffset = true)
    (passed : Passes u keep 0 f s args f' c) (formals : g.formals = args.length)
    (closed : g.epilogue = .ok code) :
    ∃ r, u.follow code b = some r ∧ Resumes keep f f' slots args.length s c r := by
  have room := place.room
  have oldFp : b.word (c.get .sp) = some (c.get .fp) := by
    have same := h.saved 0 (by decide)
    simp only [Int.ofNat_zero, Int.mul_zero, shifted_zero, entry.fp] at same
    exact same.trans entry.oldFp
  have oldSelf : b.word (shifted (c.get .sp) (-4)) = some (c.get .s0) := by
    have same := h.saved 1 (by decide)
    rw [entry.fp] at same
    exact same.trans entry.oldSelf
  have back : b.word (shifted (c.get .sp) (-8)) = some (c.pc + 4) := by
    have same := h.saved 2 (by decide)
    rw [entry.fp] at same
    exact same.trans entry.back
  obtain ⟨r, run, pc, fp, self, sp, same⟩ :=
    follow_epilogue u closed (h.sp.trans entry.sp) oldFp oldSelf back
  rw [formals, low_eq (by omega), ← place.sp] at sp
  have frame : r.get .fp = s.get .fp := fp.trans place.fp
  have live {x : Int} (hx : x ∈ slots) :
      r.word (shifted (r.get .fp) x) = c.word (shifted (r.get .fp) x) := by
    rw [same, frame]
    exact h.live entry place hx
  refine ⟨r, run, pc, fp, self, sp, fun _ hx => live hx, fun x hx kept => ?_,
    place.popped fits, ?_⟩
  · refine (live hx).trans (passed.kept kept fun j hj => ?_)
    obtain ⟨d, there, low, high⟩ := place.slot x hx
    rw [frame, there, place.sp, shifted_shifted]
    exact shifted_ne (by omega) (by omega) (by omega)
  · rw [sp, frame, tracked]

end Call

/-- Whatever the arguments are, they can be pushed while the frame stays within the range of an
offset. -/
theorem passes_exists (live : f.Uses slots) (s : Thread) (k : Nat) {args : List (BitVec 32)}
    (room : 12 + 4 * (args.length + slots.length) ≤ 2147483648) :
    ∃ f' c, Passes u keep k f s args f' c := by
  induction args generalizing f slots s k with
  | nil => exact ⟨f, s, .jump ⟨rfl, rfl, fun _ _ => rfl, fun _ _ => rfl⟩⟩
  | cons w args ih =>
    have track := live.tracks
    have offset := track.offset
    simp only [List.length_cons] at room
    have fits : Word.fits (f.spOffset - 4) = true := by
      simp only [Word.fits, Bool.and_eq_true, decide_eq_true_eq]
      omega
    have pushed : f.push = .ok (f.spOffset, { f with spOffset := f.spOffset - 4 }) :=
      except_bind_ok.mpr ⟨_, checked_ok.mpr ⟨fits, rfl⟩, rfl⟩
    have ready : Meanwhile keep k s ⟨s.pc, s.cpu.set .a0 w⟩ := by
      refine ⟨?_, ?_, fun _ _ => rfl, fun _ _ => rfl⟩
      · exact Cpu.get_set_ne _ _ (by decide)
      · exact Cpu.get_set_ne _ _ (by decide)
    obtain ⟨f', c, rest⟩ := ih (live.push pushed) _ (k + 1) (by rw [List.length_cons]; omega)
    have passed := Passes.push ready pushed (follow_push u _ .a0) rest
    rw [Thread.get_mk, Cpu.get_set_self _ _ (by decide)] at passed
    exact ⟨f', c, passed⟩

/-- How calls go from a state of the caller's frame. -/
structure Conventional (u : Site) (keep : BitVec 32 → Prop) (f : Frame) (slots : List Int)
    (s : Thread) : Prop where
  pushes : ∀ args : List (BitVec 32), 12 + 4 * (args.length + slots.length) ≤ 2147483648 →
    ∃ f' c, Passes u keep 0 f s args f' c
  closes : ∀ n, n + 3 < 536870912 → ∃ code, (Frame.new n).epilogue = .ok code
  /-- A jump leads into the callee with the receiver and the arguments in their places, and whatever
  the body does within its bounds, back out of it to the caller as it was. -/
  calls : ∀ args f' c, Passes u keep 0 f s args f' c → ∀ i, Calls i →
    ∃ d, u.advance c i = some d ∧ ∃ e, u.follow Frame.prologue d = some e ∧ Receives args c e ∧
      ∀ b, Body args.length e b → ∀ (g : Frame) (code : List Instr), g.formals = args.length →
        g.epilogue = .ok code →
        ∃ r, u.follow code b = some r ∧ Resumes keep f f' slots args.length s c r

theorem frame_conventional (u : Site) (keep : BitVec 32 → Prop) (live : f.Uses slots)
    (tracked : (s.get .sp - s.get .fp).toInt = f.spOffset) : Conventional u keep f slots s where
  pushes _ room := passes_exists live s 0 room
  closes _ few := epilogue_exists few
  calls args f' c passed i call := by
    have place := passed.placed live tracked
    have fits := live.tracks.fits
    obtain ⟨target, jump⟩ : ∃ target, u.advance c i = some (c.jump target) := by
      cases call with
      | jal name => exact ⟨_, rfl⟩
      | jalr r => exact ⟨_, rfl⟩
    obtain ⟨e, prologue, entry⟩ := follow_entry u c target
    refine ⟨_, jump, e, prologue, entry.receives passed place,
      fun b body g code formals closed => ?_⟩
    exact body.resumes entry place tracked fits passed formals closed

section Run

/-- A function with one argument of its own and one local variable, which is 5. -/
def busy : Thread where
  pc := 0x400000
  cpu := {
    regs := fun r => if r = .sp then 0x7ffffff0 - 16 else if r = .fp then 0x7ffffff0 else 0
    mem := fun a => if a = 0x7ffffff0 - 12 then some 5 else none }

def surroundings : Site := ⟨[], fun _ => 0x400100, fun _ _ => none⟩

/-- The body gives its second argument a new value, and a register. -/
def reassign (e : Thread) : Thread :=
  ⟨e.pc, (e.cpu.set .t1 1).store (shifted (e.get .fp) 4) 1⟩

theorem reassign_within (e : Thread) : Body 2 e (reassign e) where
  sp := (Cpu.store_get _ _ _ _).trans (Cpu.get_set_ne _ _ (by decide))
  fp := (Cpu.store_get _ _ _ _).trans (Cpu.get_set_ne _ _ (by decide))
  saved j hj := Function.update_of_ne (shifted_ne (by omega) (by omega) (by omega)) _ _
  above a _ other := Function.update_of_ne (other 0 (by decide)) _ _

theorem busy_calls : (⟨1, -16⟩ : Frame).Uses [-12] ∧
    (busy.get .sp - busy.get .fp).toInt = (⟨1, -16⟩ : Frame).spOffset ∧
    ∃ f' c d e r code, Passes surroundings (fun _ => True) 0 ⟨1, -16⟩ busy [7, 9] f' c ∧
      surroundings.advance c (.jal "A.m") = some d ∧ surroundings.follow Frame.prologue d = some e ∧
      e.word (shifted (e.get .fp) 8) = some 7 ∧ e.word (shifted (e.get .fp) 4) = some 9 ∧
      (Frame.new 2).epilogue = .ok code ∧ surroundings.follow code (reassign e) = some r ∧
      r.pc = c.pc + 4 ∧ r.get .sp = busy.get .sp ∧ r.get .fp = busy.get .fp ∧
      r.word (0x7ffffff0 - 12) = some 5 := by
  have live : (⟨1, -16⟩ : Frame).Uses [-12] := Frame.Uses.push (.new 1) rfl
  have tracked : (busy.get .sp - busy.get .fp).toInt = (⟨1, -16⟩ : Frame).spOffset := by decide
  have all := frame_conventional surroundings (fun _ => True) live tracked
  obtain ⟨f', c, passed⟩ := all.pushes [7, 9] (by decide)
  obtain ⟨code, closed⟩ := all.closes 2 (by decide)
  obtain ⟨d, jump, e, prologue, receives, returns⟩ := all.calls _ _ _ passed _ (.jal "A.m")
  obtain ⟨r, epilogue, resumes⟩ := returns _ (reassign_within e) (Frame.new 2) code rfl closed
  refine ⟨live, tracked, f', c, d, e, r, code, passed, jump, prologue, ?_, ?_, closed, epilogue,
    resumes.pc, resumes.sp, resumes.fp.trans passed.fp, ?_⟩
  · obtain ⟨off, known, word⟩ := receives.argument (Frame.new 2) rfl 0 (by decide)
    have first : (Frame.new 2).formalOffset 0 = .ok 8 := formalOffset_ok (by decide) (by decide)
    obtain rfl : 8 = off := Except.ok.inj (first.symm.trans known)
    exact word
  · obtain ⟨off, known, word⟩ := receives.argument (Frame.new 2) rfl 1 (by decide)
    have second : (Frame.new 2).formalOffset 1 = .ok 4 := formalOffset_ok (by decide) (by decide)
    obtain rfl : 4 = off := Except.ok.inj (second.symm.trans known)
    exact word
  · have word := resumes.kept (-12) (by decide) trivial
    rw [resumes.fp, passed.fp] at word
    exact word

end Run

end ClassBackend.Mips
