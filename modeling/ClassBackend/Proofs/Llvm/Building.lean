import Mathlib.Data.List.Induction
import ClassBackend.Llvm.Builder
import ClassBackend.Proofs.Lowering.Simulation

/-! Building a function from any list of requests. What is rendered can be read off the requests:
they are cut where a block is started, and what was asked for between two cuts is the code of one
block. -/
namespace ClassBackend.Llvm.Builder

variable {S L ι : Type}

inductive Request (S L ι : Type) where
  | alloca (name : S)
  | emit (i : ι)
  | terminate (i : ι)
  | startBlock (l : L)

namespace Request

def slot? : Request S L ι → Option S
  | alloca name => some name
  | _ => none

def started? : Request S L ι → Option L
  | startBlock l => some l
  | _ => none

def writes : Request S L ι → Bool
  | emit _ | terminate _ => true
  | _ => false

end Request

/-- The block that is filled last has its terminator. -/
def Ended (rs : List (Request S L ι)) : Prop :=
  ∃ before i after, rs = before ++ .terminate i :: after ∧ ∀ l, .startBlock l ∉ after

/-- No instruction is asked for in a block that has its terminator. -/
def Sound (rs : List (Request S L ι)) : Prop :=
  ∀ before r after, rs = before ++ r :: after → r.writes = true → ¬ Ended before

structure Span (L ι : Type) where
  label : L
  given : List ι := []
  closing : Option ι := none

def Span.requests (s : Span L ι) : List (Request S L ι) :=
  .startBlock s.label :: s.given.map .emit ++ (s.closing.map .terminate).toList

section Ending

variable {rs : List (Request S L ι)} {r : Request S L ι}

theorem ended_nil : ¬ Ended ([] : List (Request S L ι)) := by
  rintro ⟨before, i, after, split, -⟩
  cases before <;> cases split

theorem ended_snoc : Ended (rs ++ [r]) ↔
    (∃ i, r = .terminate i) ∨ (∀ l, r ≠ .startBlock l) ∧ Ended rs := by
  constructor
  · rintro ⟨before, i, after, split, unstarted⟩
    rcases List.eq_nil_or_concat' after with rfl | ⟨after, last, rfl⟩
    · obtain ⟨-, same⟩ := List.append_inj' split rfl
      exact .inl ⟨i, List.singleton_inj.mp same⟩
    · rw [← List.cons_append, ← List.append_assoc] at split
      obtain ⟨rfl, same⟩ := List.append_inj' split rfl
      obtain rfl := List.singleton_inj.mp same
      refine .inr ⟨fun l started => unstarted l ?_, before, i, after, rfl, fun l hl => ?_⟩
      · exact started ▸ List.mem_append_right _ (List.mem_singleton_self _)
      · exact unstarted l (List.mem_append_left _ hl)
  · rintro (⟨i, rfl⟩ | ⟨unstarted, before, i, after, rfl, none⟩)
    · exact ⟨rs, i, [], rfl, fun _ => List.not_mem_nil⟩
    · refine ⟨before, i, after ++ [r], by simp, fun l hl => ?_⟩
      rcases List.mem_append.mp hl with old | new
      · exact none l old
      · exact unstarted l (List.mem_singleton.mp new).symm

theorem sound_nil : Sound ([] : List (Request S L ι)) := by
  rintro before r after split
  cases before <;> cases split

theorem sound_snoc : Sound (rs ++ [r]) ↔ Sound rs ∧ (r.writes = true → ¬ Ended rs) := by
  constructor
  · intro sound
    refine ⟨fun before r' after split => ?_, sound rs r [] rfl⟩
    exact sound before r' (after ++ [r]) (by simp [split])
  · rintro ⟨sound, last⟩ before r' after split writes
    rcases List.eq_nil_or_concat' after with rfl | ⟨after, end_, rfl⟩
    · obtain ⟨rfl, same⟩ := List.append_inj' split rfl
      obtain rfl := List.singleton_inj.mp same
      exact last writes
    · rw [← List.cons_append, ← List.append_assoc] at split
      obtain ⟨rfl, -⟩ := List.append_inj' split rfl
      exact sound before r' after rfl writes

theorem sound_or_first (rs : List (Request S L ι)) : Sound rs ∨ ∃ before r after,
    rs = before ++ r :: after ∧ Sound before ∧ r.writes = true ∧ Ended before := by
  induction rs using List.reverseRecOn with
  | nil => exact .inl sound_nil
  | append_singleton rs r ih =>
    rcases ih with sound | ⟨before, r', after, rfl, bad⟩
    · by_cases fits : r.writes = true → ¬ Ended rs
      · exact .inl (sound_snoc.mpr ⟨sound, fits⟩)
      · obtain ⟨writes, ended⟩ := Classical.not_imp.mp fits
        exact .inr ⟨rs, r, [], rfl, sound, writes, Classical.not_not.mp ended⟩
    · exact .inr ⟨before, r', after ++ [r], by simp, bad⟩

end Ending

variable [CodeText S L ι]

def serve (b : Builder S L ι) : Request S L ι → Except Fault (Builder S L ι)
  | .alloca name => .ok (b.alloca name)
  | .emit i => b.emit i
  | .terminate i => b.terminate i
  | .startBlock l => b.startBlock l

def build (rs : List (Request S L ι)) : Except Fault (Builder S L ι) := rs.foldlM serve new

def openLabel (rs : List (Request S L ι)) : L :=
  (rs.filterMap Request.started?).getLast?.getD (CodeText.entry S ι)

variable (S) in
/-- The code of a block that stands before the block `next`, if it is not the last one. -/
def Span.code (s : Span L ι) (next : Option L) : List ι :=
  s.given ++ (s.closing <|> next.map (CodeText.branch S)).toList

variable (S) in
/-- Blocks one after the other, and the label of what follows them. -/
def laid (next : Option L) : List (Span L ι) → List (L × List ι)
  | [] => []
  | s :: ss => (s.label, s.code S ((ss.head?.map (·.label)).or next)) :: laid next ss

def blockText (slots : List S) (b : L × List ι) : List String :=
  [CodeText.labelText S ι b.1 ++ ":"] ++
    slots.map (fun name => "  " ++ CodeText.slotText L ι name ++ " = alloca ptr") ++
    b.2.map fun i => "  " ++ CodeText.instrText S L i

section Steps

variable {b : Builder S L ι} {i : ι} {l : L} {next : Option L} {ss ss' : List (Span L ι)}

/-- The instruction in the open block, which it may close. -/
def put (b : Builder S L ι) (i : ι) (last : Bool) : Builder S L ι :=
  { b with current := ⟨b.current.label, b.current.instrs.push i, last⟩ }

theorem emit_open (h : b.current.terminated = false) : b.emit i = .ok (b.put i false) := by
  simp [emit, put, h]

theorem emit_ended (h : b.current.terminated = true) :
    b.emit i = .error (.afterTerminator (CodeText.labelText S ι b.current.label)) := by
  simp [emit, h]

theorem terminate_open (h : b.current.terminated = false) :
    b.terminate i = .ok (b.put i true) := by
  simp [terminate, emit_open h, put]

theorem terminate_ended (h : b.current.terminated = true) :
    b.terminate i = .error (.afterTerminator (CodeText.labelText S ι b.current.label)) := by
  simp [terminate, emit_ended h]

def startNext (b : Builder S L ι) (l : L) : Builder S L ι :=
  { b with closed := b.closed.push b.current, current := { label := l } }

theorem startBlock_open (h : b.current.terminated = false) :
    b.startBlock l = .ok ((b.put (CodeText.branch S l) true).startNext l) := by
  simp [startBlock, h, terminate_open h, bind, Except.bind, pure, Except.pure, startNext]

theorem startBlock_ended (h : b.current.terminated = true) :
    b.startBlock l = .ok (b.startNext l) := by
  simp [startBlock, h, bind, Except.bind, pure, Except.pure, startNext]

theorem laid_append :
    laid S next (ss ++ ss') = laid S ((ss'.head?.map (·.label)).or next) ss ++ laid S next ss' := by
  induction ss with
  | nil => rfl
  | cons s ss ih =>
    rw [List.cons_append, laid, ih, laid, List.cons_append]
    cases ss with
    | nil => cases ss' <;> rfl
    | cons => rfl

end Steps

section Made

variable {rs : List (Request S L ι)} {r : Request S L ι} {b : Builder S L ι}
variable {done : List (Span L ι)} {s : Span L ι}

/-- The builder after the requests: the closed blocks `done` of what was asked for, and the open
one `s`. -/
structure Made (rs : List (Request S L ι)) (b : Builder S L ι) (done : List (Span L ι))
    (s : Span L ι) : Prop where
  read : .startBlock (CodeText.entry S ι) :: rs.filter (·.slot?.isNone) =
    (done ++ [s]).flatMap Span.requests
  slots : b.allocas.toList = rs.filterMap Request.slot?
  closed : b.closed.toList.map (fun k => (k.label, k.instrs.toList)) = laid S (some s.label) done
  label : b.current.label = s.label
  instrs : b.current.instrs.toList = s.code S none
  terminated : b.current.terminated = s.closing.isSome
  ended : s.closing.isSome = true ↔ Ended rs
  openLabel : openLabel rs = s.label

theorem made_new : Made [] (new : Builder S L ι) [] ⟨CodeText.entry S ι, [], none⟩ where
  read := rfl
  slots := rfl
  closed := rfl
  label := rfl
  instrs := rfl
  terminated := rfl
  ended := by simpa using ended_nil
  openLabel := rfl

theorem Made.reads (made : Made rs b done s) (asked : r.slot? = none) {ss : List (Span L ι)}
    (more : ss.flatMap Span.requests = s.requests ++ [r]) :
    .startBlock (CodeText.entry S ι) :: (rs ++ [r]).filter (·.slot?.isNone) =
      (done ++ ss).flatMap Span.requests := by
  rw [List.filter_append, ← List.cons_append, made.read]
  simp [asked, more]

theorem Made.alloca (made : Made rs b done s) (name : S) :
    Made (rs ++ [.alloca name]) (b.alloca name) done s where
  read := by simpa [Request.slot?] using made.read
  slots := by simp [Builder.alloca, made.slots, Request.slot?]
  closed := made.closed
  label := made.label
  instrs := made.instrs
  terminated := made.terminated
  ended := by rw [ended_snoc]; simp [made.ended]
  openLabel := by simpa [Builder.openLabel, Request.started?] using made.openLabel

theorem Made.unclosed (made : Made rs b done s) (unended : ¬ Ended rs) : s.closing = none := by
  rw [← made.ended, Bool.not_eq_true, Option.isSome_eq_false_iff] at unended
  exact Option.isNone_iff_eq_none.mp unended

theorem Made.emit (made : Made rs b done s) (unended : ¬ Ended rs) (i : ι) :
    Made (rs ++ [.emit i]) (b.put i false) done { s with given := s.given ++ [i] } where
  read := made.reads rfl (by simp [Span.requests, made.unclosed unended])
  slots := by simp [put, made.slots, Request.slot?]
  closed := made.closed
  label := made.label
  instrs := by simp [put, made.instrs, Span.code, made.unclosed unended]
  terminated := by simp [put, made.unclosed unended]
  ended := by rw [ended_snoc]; simp [made.ended]
  openLabel := by simpa [Builder.openLabel, Request.started?] using made.openLabel

theorem Made.terminate (made : Made rs b done s) (unended : ¬ Ended rs) (i : ι) :
    Made (rs ++ [.terminate i]) (b.put i true) done { s with closing := some i } where
  read := made.reads rfl (by simp [Span.requests, made.unclosed unended])
  slots := by simp [put, made.slots, Request.slot?]
  closed := made.closed
  label := made.label
  instrs := by simp [put, made.instrs, Span.code, made.unclosed unended]
  terminated := rfl
  ended := by rw [ended_snoc]; simp
  openLabel := by simpa [Builder.openLabel, Request.started?] using made.openLabel

theorem Made.startBlock (made : Made rs b done s) (l : L) :
    ∃ b', b.startBlock l = .ok b' ∧
      Made (rs ++ [.startBlock l]) b' (done ++ [s]) ⟨l, [], none⟩ := by
  obtain ⟨b', started, allocas, closed, label, instrs⟩ :
      ∃ b' : Builder S L ι, b.startBlock l = .ok (b'.startNext l) ∧ b'.allocas = b.allocas ∧
        b'.closed = b.closed ∧ b'.current.label = s.label ∧
        b'.current.instrs.toList = s.code S (some l) := by
    cases closing : s.closing with
    | none =>
      have unended : b.current.terminated = false := by rw [made.terminated, closing]; rfl
      refine ⟨b.put (CodeText.branch S l) true, startBlock_open unended, rfl, rfl, made.label, ?_⟩
      simp [put, made.instrs, Span.code, closing]
    | some i =>
      have ended : b.current.terminated = true := by rw [made.terminated, closing]; rfl
      refine ⟨b, startBlock_ended ended, rfl, rfl, made.label, ?_⟩
      simp [made.instrs, Span.code, closing]
  refine ⟨b'.startNext l, started, ?_⟩
  exact {
    read := by
      rw [List.append_assoc]
      exact made.reads rfl (by simp [Span.requests])
    slots := by simp [startNext, allocas, made.slots, Request.slot?]
    closed := by
      rw [laid_append]
      simp [startNext, closed, label, instrs, made.closed, laid]
    label := rfl
    instrs := rfl
    terminated := rfl
    ended := by rw [ended_snoc]; simp
    openLabel := by simp [Builder.openLabel, Request.started?] }

end Made

section Build

variable {rs : List (Request S L ι)} {r : Request S L ι} {b : Builder S L ι} {f : Fault}
variable {done : List (Span L ι)} {s : Span L ι}

theorem build_snoc : build (rs ++ [r]) = build rs >>= (serve · r) := by
  simp [build, List.foldlM_append]

theorem Made.step (made : Made rs b done s) (fits : r.writes = true → ¬ Ended rs) :
    ∃ b' done' s', serve b r = .ok b' ∧ Made (rs ++ [r]) b' done' s' := by
  have unterminated (h : ¬ Ended rs) : b.current.terminated = false := by
    rw [made.terminated, made.unclosed h]
    rfl
  cases r with
  | alloca name => exact ⟨_, _, _, rfl, made.alloca name⟩
  | emit i => exact ⟨_, _, _, emit_open (unterminated (fits rfl)), made.emit (fits rfl) i⟩
  | terminate i =>
    exact ⟨_, _, _, terminate_open (unterminated (fits rfl)), made.terminate (fits rfl) i⟩
  | startBlock l =>
    obtain ⟨b', started, made'⟩ := made.startBlock l
    exact ⟨_, _, _, started, made'⟩

theorem Made.fails (made : Made rs b done s) (writes : r.writes = true) (ended : Ended rs) :
    serve b r = .error (.afterTerminator (CodeText.labelText S ι (Builder.openLabel rs))) := by
  have terminated : b.current.terminated = true := by rw [made.terminated, made.ended]; exact ended
  rw [made.openLabel, ← made.label]
  cases r with
  | alloca | startBlock => cases writes
  | emit i => exact emit_ended terminated
  | terminate i => exact terminate_ended terminated

theorem Sound.made (sound : Sound rs) : ∃ b done s, build rs = .ok b ∧ Made rs b done s := by
  induction rs using List.reverseRecOn with
  | nil => exact ⟨new, [], _, rfl, made_new⟩
  | append_singleton rs r ih =>
    obtain ⟨before, fits⟩ := sound_snoc.mp sound
    obtain ⟨b, done, s, built, made⟩ := ih before
    obtain ⟨b', done', s', served, made'⟩ := made.step fits
    exact ⟨b', done', s', by rw [build_snoc, built]; exact served, made'⟩

theorem build_error (sound : Sound rs) (writes : r.writes = true) (ended : Ended rs)
    (after : List (Request S L ι)) : build (rs ++ r :: after) =
      .error (.afterTerminator (CodeText.labelText S ι (openLabel rs))) := by
  obtain ⟨b, done, s, built, made⟩ := sound.made
  have first := made.fails writes ended
  rw [List.append_cons, build, List.foldlM_append, ← build, build_snoc, built]
  simp only [bind, Except.bind, first]

theorem sound_of_build (built : build rs = .ok b) : Sound rs := by
  rcases sound_or_first rs with sound | ⟨before, r, after, rfl, sound, writes, ended⟩
  · exact sound
  · rw [build_error sound writes ended] at built
    cases built

def contents (b : Builder S L ι) : List (L × List ι) :=
  b.blocks.map fun k => (k.label, k.instrs.toList)

theorem bodyLines_eq {first : L × List ι} {others : List (L × List ι)}
    (h : b.contents = first :: others) : b.bodyLines =
      blockText b.allocas.toList first ++ others.flatMap (blockText ([] : List S)) := by
  rw [contents, List.map_eq_cons_iff] at h
  obtain ⟨k, ks, split, rfl, rfl⟩ := h
  rw [bodyLines, split, List.flatMap_map]
  rfl

theorem Made.contents (made : Made rs b done s) : b.contents = laid S none (done ++ [s]) := by
  rw [laid_append, Builder.contents, blocks, List.map_append, made.closed]
  simp [made.label, made.instrs, laid]

end Build

/-- A builder gives up at the first instruction for a block that has its terminator, and on nothing
else. What it renders otherwise are the blocks as they were asked for, each but the last with its
terminator or a branch to the next, and all slots at the head of the first. -/
theorem build_reads (rs : List (Request S L ι)) :
    (∀ f, build rs = .error f ↔ ∃ before r after, rs = before ++ r :: after ∧ Sound before ∧
      r.writes = true ∧ Ended before ∧
      f = .afterTerminator (CodeText.labelText S ι (openLabel before))) ∧
    ∀ b, build rs = .ok b → ∃ ss first others,
      .startBlock (CodeText.entry S ι) :: rs.filter (·.slot?.isNone) =
        ss.flatMap Span.requests ∧
      laid S none ss = first :: others ∧
      ∀ signature, b.render signature = String.join ((("define " ++ signature ++ " \x7b") ::
        (blockText (rs.filterMap Request.slot?) first ++
          others.flatMap (blockText ([] : List S))) ++ ["\x7d"]).map (· ++ "\n")) := by
  refine ⟨fun f => ⟨fun failed => ?_, ?_⟩, fun b built => ?_⟩
  · rcases sound_or_first rs with sound | ⟨before, r, after, rfl, sound, writes, ended⟩
    · obtain ⟨b, _, _, built, -⟩ := sound.made
      rw [failed] at built
      cases built
    · rw [build_error sound writes ended] at failed
      exact ⟨before, r, after, rfl, sound, writes, ended, (Except.error.inj failed).symm⟩
  · rintro ⟨before, r, after, rfl, sound, writes, ended, rfl⟩
    exact build_error sound writes ended after
  · obtain ⟨b', done, s, built', made⟩ := (sound_of_build built).made
    obtain rfl : b = b' := Except.ok.inj (built.symm.trans built')
    obtain ⟨first, others, split⟩ : ∃ first others, b.contents = first :: others := by
      cases blocks : b.contents with
      | nil => simp [contents, Builder.blocks] at blocks
      | cons first others => exact ⟨first, others, rfl⟩
    refine ⟨done ++ [s], first, others, made.read, made.contents ▸ split, fun signature => ?_⟩
    rw [render, bodyLines_eq split, made.slots]

/-- A slot is asked for after an instruction, and the entry block is left open. -/
def looping : List (Request String String String) :=
  [.emit "store ptr null, ptr %t2", .alloca "%t2", .startBlock "loop3", .terminate "ret ptr %self",
    .alloca "%t4"]

theorem looping_reads :
    (∃ b ss first others, build looping = .ok b ∧
      .startBlock "entry" :: looping.filter (·.slot?.isNone) = ss.flatMap Span.requests ∧
      laid String none ss = first :: others ∧
      b.render "ptr @f(ptr %self)" = "define ptr @f(ptr %self) \x7b\nentry:\n" ++
        "  %t2 = alloca ptr\n  %t4 = alloca ptr\n  store ptr null, ptr %t2\n" ++
        "  br label %loop3\nloop3:\n  ret ptr %self\n\x7d\n") ∧
    build (looping ++ [.terminate "unreachable"]) = .error (.afterTerminator "loop3") := by
  obtain ⟨b, built⟩ : ∃ b, build looping = .ok b := ⟨_, rfl⟩
  constructor
  · obtain ⟨ss, first, others, read, laid, -⟩ := (build_reads looping).2 b built
    refine ⟨b, ss, first, others, built, read, laid, ?_⟩
    cases built
    decide
  · have ended : Ended looping := ⟨looping.take 3, "ret ptr %self", [.alloca "%t4"], rfl, by simp⟩
    exact ((build_reads _).1 _).mpr ⟨looping, _, [], rfl, sound_of_build built, rfl, ended, rfl⟩

end ClassBackend.Llvm.Builder
