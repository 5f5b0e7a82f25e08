import ClassBackend.Proofs.Mips.CallingConvention

/-! The tracked stack. A frame keeps one number, how far down `$sp` is, and yet tells which words
are on the stack: those are the ones that were pushed last, and what is given back has to be the
newest of them. -/
namespace ClassBackend.Mips

open Lowering

inductive StackAction where
  | push (r : Reg)
  | pop (into : Reg) (slot : Int)
  | discard (slot : Int)
  | calleePopped (n : Nat)

/-- A frame and the processor that its code runs on, with the words that are on the stack and all
that were ever pushed, the newest first. -/
structure Tracked where
  frame : Frame
  thread : Thread
  live : List (Int × BitVec 32)
  pushed : List (Int × BitVec 32)

namespace Tracked

def start (formals : Nat) (s : Thread) : Tracked := ⟨Frame.new formals, s, [], []⟩

/-- The frame takes the action and the processor runs the code for it. What a callee popped is off
the stack as it comes back. -/
def step (u : Site) (c : Tracked) : StackAction → Except Fault (Option Tracked)
  | .push r => do
    let (slot, f) ← c.frame.push
    let word := (slot, c.thread.get r)
    return (u.follow (Frame.pushCode r) c.thread).map fun s =>
      ⟨f, s, word :: c.live, word :: c.pushed⟩
  | .pop into slot => do
    let f ← c.frame.release slot
    return (u.follow (Frame.popCode into) c.thread).map fun s => ⟨f, s, c.live.tail, c.pushed⟩
  | .discard slot => do
    let f ← c.frame.release slot
    return (u.follow Frame.discardCode c.thread).map fun s => ⟨f, s, c.live.tail, c.pushed⟩
  | .calleePopped n => do
    let f ← c.frame.calleePopped n
    let sp := shifted (c.thread.get .sp) (4 * n)
    return some ⟨f, ⟨c.thread.pc, c.thread.cpu.set .sp sp⟩, c.live.drop n, c.pushed⟩

/-- Slots are those of earlier pushes, and a callee pops words that are on the stack. -/
def Allows (c : Tracked) : StackAction → Prop
  | .push _ => True
  | .pop into slot => slot ∈ c.pushed.map (·.1) ∧ into ≠ .sp ∧ into ≠ .fp ∧ into ≠ .zero
  | .discard slot => slot ∈ c.pushed.map (·.1)
  | .calleePopped n => n ≤ c.live.length

/-- The actions one after the other, each of which is allowed where it is taken. -/
inductive Reaches (u : Site) (c : Tracked) : List StackAction → Tracked → Prop where
  | start : Reaches u c [] c
  | step {as : List StackAction} {a : StackAction} {d e : Tracked} :
      Reaches u c as d → d.Allows a → d.step u a = .ok (some e) → Reaches u c (as ++ [a]) e

def slots (c : Tracked) : List Int := c.live.map (·.1)

/-- What the frame knows is so: `base` is `$fp`, from which slots are counted. -/
structure Faithful (base : BitVec 32) (c : Tracked) : Prop where
  offset : c.frame.spOffset = -12 - 4 * (c.live.length : Int)
  distinct : c.slots.Nodup
  fp : c.thread.get .fp = base
  sp : c.thread.get .sp = shifted base c.frame.spOffset
  words : ∀ x ∈ c.live, c.thread.word (shifted base x.1) = some x.2
  recent : ∀ x ∈ c.live, c.pushed.lookup x.1 = some x.2

/-- When the frame refuses: a slot that is not the newest on the stack, words of a callee that were
not pushed, and more words than an offset can count. -/
def Refuses (c : Tracked) : StackAction → Prop
  | .push _ => 536870908 < c.live.length
  | .pop _ slot | .discard slot => c.slots.head? ≠ some slot
  | .calleePopped n => c.live.length < n

/-- What the action gives: a slot that is not in use, or the word that was last pushed at a slot. -/
def Answers (c : Tracked) (d : Tracked) : StackAction → Prop
  | .push r => ∃ slot, d.live = (slot, c.thread.get r) :: c.live ∧ slot ∉ c.slots
  | .pop into slot => c.pushed.lookup slot = some (d.thread.get into)
  | .discard _ | .calleePopped _ => True

end Tracked

section Frames

variable {f f' : Frame} {slot : Int} {n : Nat}

theorem nodup_firstSlots (n : Nat) : (firstSlots n).Nodup := by
  induction n with
  | zero => exact List.nodup_nil
  | succ n ih =>
    refine List.nodup_cons.mpr ⟨fun again => ?_, ih⟩
    have := mem_firstSlots again
    omega

theorem Frame.push_ok : f.push = .ok (slot, f') ↔ slot = f.spOffset ∧
    Word.fits (f.spOffset - 4) = true ∧ f' = { f with spOffset := f.spOffset - 4 } := by
  refine ⟨Frame.push_eq, ?_⟩
  rintro ⟨rfl, fits, rfl⟩
  exact except_bind_ok.mpr ⟨_, checked_ok.mpr ⟨fits, rfl⟩, rfl⟩

theorem Frame.release_iff : f.release slot = .ok f' ↔ slot = f.spOffset + 4 ∧
    Word.fits (f.spOffset + 4) = true ∧ f' = { f with spOffset := f.spOffset + 4 } := by
  refine ⟨release_ok, ?_⟩
  rintro ⟨rfl, fits, rfl⟩
  exact except_bind_ok.mpr ⟨_, checked_ok.mpr ⟨fits, rfl⟩, if_pos rfl⟩

/-- A count in the range of a signed word is not narrowed. -/
theorem Frame.calleePopped_iff (range : n < 2147483648) : f.calleePopped n = .ok f' ↔
    Word.fits (4 * (n : Int)) = true ∧ Word.fits (f.spOffset + 4 * n) = true ∧
      f.spOffset + 4 * n ≤ -12 ∧ f' = { f with spOffset := f.spOffset + 4 * n } := by
  simp only [Frame.calleePopped, Word.add, Word.mul, wordSize, except_bind_ok, checked_ok,
    low_eq range]
  constructor
  · rintro ⟨_, ⟨bytes, rfl⟩, _, ⟨fits, rfl⟩, h⟩
    by_cases below : f.spOffset + 4 * (n : Int) ≤ -savedArea
    · rw [if_pos below] at h
      exact ⟨bytes, fits, below, (except_pure_ok.mp h).symm⟩
    · rw [if_neg below] at h
      cases h
  · rintro ⟨bytes, fits, below, rfl⟩
    exact ⟨_, ⟨bytes, rfl⟩, _, ⟨fits, rfl⟩, if_pos below⟩

section Code

variable (u : Site) (s : Thread)

theorem push_runs (r : Reg) : ∃ s', u.follow (Frame.pushCode r) s = some s' ∧
    s'.get .fp = s.get .fp ∧ s'.get .sp = shifted (s.get .sp) (-4) ∧
    s'.word (s.get .sp) = some (s.get r) ∧ ∀ b ≠ s.get .sp, s'.word b = s.word b :=
  ⟨_, follow_push u s r, Cpu.get_set_ne _ _ (by decide), Cpu.get_set_self _ _ (by decide),
    Function.update_self _ _ _, fun _ other => Function.update_of_ne other _ _⟩

theorem discard_runs : ∃ s', u.follow Frame.discardCode s = some s' ∧
    s'.get .fp = s.get .fp ∧ s'.get .sp = shifted (s.get .sp) 4 ∧ s'.word = s.word :=
  ⟨_, rfl, Cpu.get_set_ne _ _ (by decide), Cpu.get_set_self _ _ (by decide), rfl⟩

variable {s} in
theorem pop_runs {into : Reg} {v : BitVec 32} (there : s.word (shifted (s.get .sp) 4) = some v)
    (notSp : into ≠ .sp) (notFp : into ≠ .fp) (notZero : into ≠ .zero) :
    ∃ s', u.follow (Frame.popCode into) s = some s' ∧ s'.get .fp = s.get .fp ∧
      s'.get .sp = shifted (s.get .sp) 4 ∧ s'.word = s.word ∧ s'.get into = v := by
  simp only [Thread.word, Thread.get] at there
  refine ⟨⟨s.pc + 4 + 4, (s.cpu.set into v).set .sp (shifted (s.get .sp) 4)⟩, ?_, ?_,
    Cpu.get_set_self _ _ (by decide), rfl, ?_⟩
  · simp only [Frame.popCode, Site.follow, Site.advance, Site.effect, Option.bind_some,
      Option.map_some, add_ofInt, Thread.get, wordSize, there, Cpu.get_set_ne _ _ notSp.symm]
  · exact (Cpu.get_set_ne _ _ (by decide)).trans (Cpu.get_set_ne _ _ notFp.symm)
  · exact (Cpu.get_set_ne _ _ notSp).trans (Cpu.get_set_self _ _ notZero)

end Code

end Frames

namespace Tracked

variable {u : Site} {base : BitVec 32} {c d : Tracked} {a : StackAction} {x : Int × BitVec 32}

/-- With it the frame has come to its state by pushing what is on the stack, and below the saved
area only. -/
structure Held (base : BitVec 32) (c : Tracked) : Prop extends Faithful base c where
  uses : c.frame.Uses c.slots
  below : ∀ x ∈ c.pushed, x.1 ≤ -12

theorem Held.intro (uses : c.frame.Uses c.slots) (below : ∀ x ∈ c.pushed, x.1 ≤ -12)
    (fp : c.thread.get .fp = base) (sp : c.thread.get .sp = shifted base c.frame.spOffset)
    (words : ∀ x ∈ c.live, c.thread.word (shifted base x.1) = some x.2)
    (recent : ∀ x ∈ c.live, c.pushed.lookup x.1 = some x.2) : Held base c where
  offset := by simpa [slots] using uses.tracks.offset
  distinct := by
    rw [uses.tracks.first]
    exact nodup_firstSlots _
  fp := fp
  sp := sp
  words := words
  recent := recent
  uses := uses
  below := below

theorem Held.inside (h : Held base c) (hx : x ∈ c.live) :
    c.frame.spOffset < x.1 ∧ x.1 ≤ -12 := by
  have slot : x.1 ∈ c.slots := List.mem_map_of_mem hx
  rw [h.uses.tracks.first] at slot
  have bounds := mem_firstSlots slot
  have offset := h.uses.tracks.offset
  omega

theorem Held.range (h : Held base c) : -2147483648 ≤ c.frame.spOffset := by
  have fits := h.uses.tracks.fits
  simp only [Word.fits, Bool.and_eq_true, decide_eq_true_eq] at fits
  exact fits.1

theorem Held.top (h : Held base c) {rest : List (Int × BitVec 32)} (newest : c.live = x :: rest) :
    x.1 = c.frame.spOffset + 4 := by
  have first := h.uses.tracks.first
  have offset := h.offset
  simp only [slots, newest, List.map_cons, List.length_cons, firstSlots, List.cons.injEq,
    List.length_map] at first offset
  have := first.1
  omega

theorem Held.grown (h : Held base c) {f : Frame} {slot : Int}
    (pushed : c.frame.push = .ok (slot, f)) {s : Thread} {v : BitVec 32} (fp : s.get .fp = base)
    (sp : s.get .sp = shifted (c.thread.get .sp) (-4)) (new : s.word (c.thread.get .sp) = some v)
    (others : ∀ b ≠ c.thread.get .sp, s.word b = c.thread.word b) :
    Held base ⟨f, s, (slot, v) :: c.live, (slot, v) :: c.pushed⟩ ∧ slot ∉ c.slots := by
  have uses := Frame.Uses.push h.uses pushed
  obtain ⟨rfl, -, rfl⟩ := Frame.push_ok.mp pushed
  have range := h.range
  have offset := h.offset
  have unused (x) (hx : x ∈ c.live) : x.1 ≠ c.frame.spOffset := Int.ne_of_gt (h.inside hx).1
  refine ⟨.intro uses ?_ fp ?_ ?_ ?_, fun again => ?_⟩
  · refine List.forall_mem_cons.mpr ⟨?_, h.below⟩
    show c.frame.spOffset ≤ -12
    omega
  · rw [sp, h.sp, shifted_shifted]
    rfl
  · refine List.forall_mem_cons.mpr ⟨h.sp ▸ new, fun x hx => (others _ ?_).trans (h.words x hx)⟩
    have inside := h.inside hx
    rw [h.sp]
    exact shifted_ne (unused x hx) (by omega) (by omega)
  · refine List.forall_mem_cons.mpr ⟨List.lookup_cons_self, fun x hx => ?_⟩
    rw [List.lookup_cons, beq_false_of_ne (unused x hx)]
    exact h.recent x hx
  · obtain ⟨x, hx, same⟩ := List.mem_map.mp again
    exact unused x hx same

theorem Held.released (h : Held base c) {f : Frame} {rest : List (Int × BitVec 32)}
    (newest : c.live = x :: rest) (released : c.frame.release x.1 = .ok f) {s : Thread}
    (fp : s.get .fp = base) (sp : s.get .sp = shifted (c.thread.get .sp) 4)
    (mem : s.word = c.thread.word) :
    Held base ⟨f, s, rest, c.pushed⟩ := by
  have uses : c.frame.Uses (x.1 :: rest.map (·.1)) := by
    have uses := h.uses
    rwa [slots, newest] at uses
  obtain ⟨_, fits, rfl⟩ := Frame.release_iff.mp released
  have kept (y) (hy : y ∈ rest) : y ∈ c.live := newest ▸ List.mem_cons_of_mem x hy
  refine .intro (.release uses released) h.below fp ?_ (fun y hy => ?_) fun y hy => ?_
  · rw [sp, h.sp, shifted_shifted]
  · rw [mem]
    exact h.words y (kept y hy)
  · exact h.recent y (kept y hy)

theorem Held.popped (h : Held base c) {f : Frame} {n : Nat} (few : n ≤ c.live.length)
    (popped : c.frame.calleePopped n = .ok f) {s : Thread} (fp : s.get .fp = base)
    (sp : s.get .sp = shifted (c.thread.get .sp) (4 * n)) (mem : s.word = c.thread.word) :
    Held base ⟨f, s, c.live.drop n, c.pushed⟩ := by
  have range := h.range
  have offset := h.offset
  have uses : f.Uses ((c.live.drop n).map (·.1)) := by
    rw [List.map_drop]
    exact .popped h.uses (by simpa [slots] using few) popped
  obtain ⟨-, -, -, rfl⟩ := (Frame.calleePopped_iff (by omega)).mp popped
  refine .intro uses h.below fp ?_ (fun y hy => ?_) fun y hy => ?_
  · rw [sp, h.sp, shifted_shifted]
  · rw [mem]
    exact h.words y (List.mem_of_mem_drop hy)
  · exact h.recent y (List.mem_of_mem_drop hy)

theorem Held.fits (h : Held base c) {n : Int} (above : c.frame.spOffset ≤ n) (below : n ≤ -12) :
    Word.fits n = true := by
  have range := h.range
  simp only [Word.fits, Bool.and_eq_true, decide_eq_true_eq]
  omega

theorem Held.newest (h : Held base c) {slot : Int} (top : ¬ c.slots.head? ≠ some slot) :
    ∃ x rest f, x.1 = slot ∧ c.live = x :: rest ∧ c.frame.release slot = .ok f := by
  cases live : c.live with
  | nil => simp [slots, live] at top
  | cons x rest =>
    obtain rfl : x.1 = slot := by simpa [slots, live] using top
    have inside := h.inside (live ▸ List.mem_cons_self)
    have fits := h.fits (Int.le_of_lt inside.1) inside.2
    have above := h.top live
    exact ⟨x, rest, _, rfl, rfl, Frame.release_iff.mpr ⟨above, above ▸ fits, rfl⟩⟩

/-- No other slot is. On an empty stack a slot in the saved area would be, but it was never
pushed. -/
theorem Held.buried (h : Held base c) {slot : Int} (earlier : slot ∈ c.pushed.map (·.1))
    (top : c.slots.head? ≠ some slot) (f : Frame) : c.frame.release slot ≠ .ok f := by
  intro released
  obtain ⟨above, -⟩ := Frame.release_iff.mp released
  cases live : c.live with
  | nil =>
    obtain ⟨x, hx, rfl⟩ := List.mem_map.mp earlier
    have offset := h.offset
    have := h.below x hx
    simp only [live, List.length_nil] at offset
    omega
  | cons x rest =>
    refine top ?_
    rw [above, ← h.top live, slots, live]
    rfl

/-- What is not refused is done, by the frame and by the code. -/
theorem Held.serves (h : Held base c) (allowed : c.Allows a) (taken : ¬ c.Refuses a) :
    ∃ d, c.step u a = .ok (some d) ∧ Held base d ∧ c.Answers d a := by
  have offset := h.offset
  have range := h.range
  cases a with
  | push r =>
    have small : c.live.length ≤ 536870908 := Nat.le_of_not_lt taken
    have fits : Word.fits (c.frame.spOffset - 4) = true := by
      simp only [Word.fits, Bool.and_eq_true, decide_eq_true_eq]
      omega
    have pushed := Frame.push_ok.mpr ⟨rfl, fits, rfl⟩
    obtain ⟨s, run, fp, sp, new, others⟩ := push_runs u c.thread r
    obtain ⟨held, unused⟩ := h.grown pushed (fp.trans h.fp) sp new others
    exact ⟨_, by rw [step, pushed, run]; rfl, held, _, rfl, unused⟩
  | pop into slot =>
    obtain ⟨x, rest, f, rfl, live, released⟩ := h.newest taken
    obtain ⟨-, notSp, notFp, notZero⟩ := allowed
    have inside : x ∈ c.live := live ▸ List.mem_cons_self
    have there : c.thread.word (shifted (c.thread.get .sp) 4) = some x.2 := by
      rw [h.sp, shifted_shifted, ← h.top live]
      exact h.words x inside
    obtain ⟨s, run, fp, sp, mem, loaded⟩ := pop_runs u there notSp notFp notZero
    have held := h.released live released (fp.trans h.fp) sp mem
    refine ⟨_, by rw [step, released, run, live]; rfl, held, ?_⟩
    exact (h.recent x inside).trans (congrArg some loaded.symm)
  | discard slot =>
    obtain ⟨x, rest, f, rfl, live, released⟩ := h.newest taken
    obtain ⟨s, run, fp, sp, mem⟩ := discard_runs u c.thread
    have held := h.released live released (fp.trans h.fp) sp mem
    exact ⟨_, by rw [step, released, run, live]; rfl, held, trivial⟩
  | calleePopped n =>
    have few : n ≤ c.live.length := allowed
    have fits : Word.fits (4 * (n : Int)) = true := by
      simp only [Word.fits, Bool.and_eq_true, decide_eq_true_eq]
      omega
    have after := h.fits (n := c.frame.spOffset + 4 * n) (by omega) (by omega)
    have popped := (Frame.calleePopped_iff (by omega)).mpr ⟨fits, after, by omega, rfl⟩
    have held := h.popped few popped (s := ⟨c.thread.pc, c.thread.cpu.set .sp _⟩)
      ((Cpu.get_set_ne _ _ (by decide)).trans h.fp) (Cpu.get_set_self _ _ (by decide)) rfl
    exact ⟨_, by rw [step, popped]; rfl, held, trivial⟩

theorem error_of_not_ok {α : Type} {x : Except Fault α} (h : ∀ y, x ≠ .ok y) :
    ∃ f, x = .error f := by
  cases x with
  | error f => exact ⟨f, rfl⟩
  | ok y => exact absurd rfl (h y)

theorem Held.refuses (h : Held base c) (allowed : c.Allows a) (refused : c.Refuses a) :
    ∃ f, c.step u a = .error f := by
  have offset := h.offset
  cases a with
  | push r =>
    have many : 536870908 < c.live.length := refused
    obtain ⟨f, failed⟩ : ∃ f, c.frame.push = .error f := by
      refine error_of_not_ok fun (slot, f) pushed => ?_
      obtain ⟨-, fits, -⟩ := Frame.push_ok.mp pushed
      simp only [Word.fits, Bool.and_eq_true, decide_eq_true_eq] at fits
      omega
    exact ⟨f, by rw [step, failed]; rfl⟩
  | pop into slot =>
    obtain ⟨f, failed⟩ := error_of_not_ok (h.buried allowed.1 refused)
    exact ⟨f, by rw [step, failed]; rfl⟩
  | discard slot =>
    obtain ⟨f, failed⟩ := error_of_not_ok (h.buried allowed refused)
    exact ⟨f, by rw [step, failed]; rfl⟩
  | calleePopped n => exact absurd (allowed : n ≤ c.live.length) (Nat.not_le.mpr refused)

theorem Held.overdrawn (h : Held base c) {n : Nat} (many : c.live.length < n)
    (range : n < 2147483648) : ∃ f, c.step u (.calleePopped n) = .error f := by
  have offset := h.offset
  obtain ⟨f, failed⟩ : ∃ f, c.frame.calleePopped n = .error f := by
    refine error_of_not_ok fun f popped => ?_
    obtain ⟨-, -, below, -⟩ := (Frame.calleePopped_iff range).mp popped
    omega
  exact ⟨f, by rw [step, failed]; rfl⟩

theorem Held.start (formals : Nat) {s : Thread} (settled : s.get .sp = shifted (s.get .fp) (-12)) :
    Held (s.get .fp) (start formals s) :=
  .intro (.new formals) (fun _ none => absurd none List.not_mem_nil) rfl settled
    (fun _ none => absurd none List.not_mem_nil) fun _ none => absurd none List.not_mem_nil

theorem Held.reached {as : List StackAction} (h : Held base c) (reached : Reaches u c as d) :
    Held base d := by
  induction reached with
  | start => exact h
  | @step as a d e _ allowed taken ih =>
    by_cases refused : d.Refuses a
    · obtain ⟨f, failed⟩ := ih.refuses (u := u) allowed refused
      rw [taken] at failed
      cases failed
    · obtain ⟨e', taken', held, -⟩ := ih.serves (u := u) allowed refused
      rw [taken] at taken'
      cases taken'
      exact held

/-- However a frame's stack was used: the frame knows how far down `$sp` is, no slot has two words
on the stack, and each has the word there that was pushed. From there it refuses what is not in
order, and nothing else, and for the rest the code does what it is for. Words that were never pushed
cannot be popped by a callee. -/
theorem stack_faithful (u : Site) (formals : Nat) (s : Thread)
    (settled : s.get .sp = shifted (s.get .fp) (-12)) (as : List StackAction) (c : Tracked)
    (h : Reaches u (start formals s) as c) :
    c.Faithful (s.get .fp) ∧
    (∀ a, c.Allows a → ((∃ f, c.step u a = .error f) ↔ c.Refuses a) ∧
      (¬ c.Refuses a →
        ∃ d, c.step u a = .ok (some d) ∧ d.Faithful (s.get .fp) ∧ c.Answers d a)) ∧
    ∀ n, c.live.length < n → n < 2147483648 → ∃ f, c.step u (.calleePopped n) = .error f := by
  have held := (Held.start formals settled).reached h
  refine ⟨held.toFaithful, fun a allowed => ⟨⟨fun ⟨f, failed⟩ => ?_, held.refuses allowed⟩, ?_⟩,
    fun n many range => held.overdrawn many range⟩
  · by_contra taken
    obtain ⟨d, served, -⟩ := held.serves (u := u) allowed taken
    rw [failed] at served
    cases served
  · intro taken
    obtain ⟨d, served, held', answers⟩ := held.serves (u := u) allowed taken
    exact ⟨d, served, held'.toFaithful, answers⟩

/-- A processor with its frame set up, and two words to be saved. -/
def entry : Thread where
  pc := 0x400000
  cpu := {
    regs := fun r => match r with
      | .fp => 0x7ffffff0
      | .sp => 0x7ffffff0 - 12
      | .a0 => 7
      | .a1 => 9
      | _ => 0
    mem := fun _ => none }

theorem saving_faithful : ∃ c, Reaches surroundings (start 1 entry) [.push .a0, .push .a1] c ∧
    entry.get .sp = shifted (entry.get .fp) (-12) ∧ c.Faithful (entry.get .fp) ∧
    (∃ f, c.step surroundings (.discard (-12)) = .error f) ∧
    (∃ d, c.step surroundings (.pop .t2 (-16)) = .ok (some d) ∧ d.thread.get .t2 = 9) ∧
    (∃ d, c.step surroundings (.calleePopped 2) = .ok (some d) ∧ d.Faithful (entry.get .fp)) ∧
    ∃ f, c.step surroundings (.calleePopped 3) = .error f := by
  have settled : entry.get .sp = shifted (entry.get .fp) (-12) := by decide
  obtain ⟨c, reached, pushed, live⟩ : ∃ c, Reaches surroundings (start 1 entry)
      [.push .a0, .push .a1] c ∧ c.pushed = [(-16, 9), (-12, 7)] ∧ c.live = [(-16, 9), (-12, 7)] :=
    ⟨_, .step (a := .push .a1) (.step (a := .push .a0) .start trivial rfl) trivial rfl, rfl, rfl⟩
  obtain ⟨faithful, next, overdrawn⟩ := stack_faithful _ _ _ settled _ _ reached
  have discard : c.Allows (.discard (-12)) := by simp [Allows, pushed]
  have pop : c.Allows (.pop .t2 (-16)) := by simp [Allows, pushed]
  have popped : c.Allows (.calleePopped 2) := by simp [Allows, live]
  obtain ⟨d, served, -, answers⟩ := (next _ pop).2 (by simp [Refuses, slots, live])
  obtain ⟨e, served', faithful', -⟩ := (next _ popped).2 (by simp [Refuses, live])
  refine ⟨c, reached, settled, faithful, (next _ discard).1.mpr (by simp [Refuses, slots, live]),
    ⟨d, served, ?_⟩, ⟨e, served', faithful'⟩, overdrawn 3 (by simp [live]) (by decide)⟩
  simpa [Answers, pushed, eq_comm] using answers

end Tracked

end ClassBackend.Mips
