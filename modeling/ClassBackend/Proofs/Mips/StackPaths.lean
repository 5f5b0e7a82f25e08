import Mathlib.Data.List.Nodup
import ClassBackend.Proofs.Mips.Annotated

/-! How far `$sp` is from `$fp` along the paths through a function, and which words of the frame are
read and written on the way. -/
namespace ClassBackend.Mips

namespace Instr

def targets : Instr → List Label
  | .branch _ _ _ l => [l]
  | .goto l => [l]
  | _ => []

/-- Whether control can go on to the next instruction. -/
def proceeds : Instr → Bool
  | .goto _ | .jr _ => false
  | .jal s => [AbortKind.caseNoMatch, .caseOnVoid, .dispatchOnVoid].all
      fun kind => (Routine.ofAbort kind).symbol ≠ s
  | _ => true

def written : Instr → Option Reg
  | .la d _ | .li d _ | .lw d _ _ | .move d _ | .addiu d _ _ | .addu d _ _ | .sll d _ _
  | .arith _ d _ _ | .neg d _ => some d
  | _ => none

/-- What is added to `$sp`, if that is known. A call pops the arguments. -/
def shift (pops : Nat) : Instr → Option Int
  | .addiu .sp .sp n => some n
  | .jal _ | .jalr _ => some (wordSize * pops)
  | i => if i.written = some .sp then none else some 0

/-- The place of the word that is read or written, as an offset from `$fp`. -/
def frameWord : Instr → Option Int
  | .lw _ offset .fp | .sw _ offset .fp => some offset
  | _ => none

end Instr

def offsetAt (body : List Noted) (after : Int) (n : Nat) : Int :=
  (body[n]?.map (·.offset)).getD after

/-- An edge of the control flow. The position after the last one is that of the epilogue. -/
inductive Goes (body : List Noted) (n : Nat) : Nat → Prop where
  | next {i} : body[n]? = some i → i.instr.proceeds = true → Goes body n (n + 1)
  | jump {i l m j} : body[n]? = some i → l ∈ i.instr.targets → body[m]? = some j →
      j.instr = .label l → Goes body n m

/-- A word of the frame that is in use: a live slot, or a formal. -/
def InUse (formals : Nat) (sp offset : Int) : Prop :=
  (sp < offset ∧ offset ≤ -savedArea) ∨ ∃ k : Nat, 1 ≤ k ∧ k ≤ formals ∧ offset = wordSize * k

namespace Activation

/-- The offset of `$sp` from `$fp` at a position of the body, or at the epilogue after it. -/
def offsetAt (a : Activation) (n : Nat) : Int := Mips.offsetAt a.body (-savedArea) n

structure Disciplined (a : Activation) : Prop where
  starts : a.offsetAt 0 = -savedArea
  /-- Along every edge the offset changes by what the instruction adds to `$sp`. -/
  flows : ∀ n i, a.body[n]? = some i → ∃ d, i.instr.shift i.pops = some d ∧
    ∀ m, Goes a.body n m → a.offsetAt m = i.offset + d
  lands : ∀ i ∈ a.body, ∀ l ∈ i.instr.targets, ∃ j ∈ a.body, j.instr = .label l
  fixed : ∀ i ∈ a.body, i.instr.written ≠ some .fp
  floor : ∀ i ∈ a.body, i.offset ≤ -savedArea
  words : ∀ i ∈ a.body, ∀ offset, i.instr.frameWord = some offset →
    InUse a.formals i.offset offset

/-- A path from the start of the body, with what `$sp` then is off `$fp` by. -/
inductive Path (a : Activation) : Nat → Int → Prop where
  | start : Path a 0 (-savedArea)
  | step {n m o d i} : Path a n o → a.body[n]? = some i → i.instr.shift i.pops = some d →
      Goes a.body n m → Path a m (o + d)

/-- All paths to a position agree with the offset that is noted there. -/
theorem Path.agrees {a : Activation} (h : a.Disciplined) {n : Nat} {o : Int} (path : a.Path n o) :
    o = a.offsetAt n := by
  induction path with
  | start => exact h.starts.symm
  | step path here shift goes ih =>
    obtain ⟨d, shift', along⟩ := h.flows _ _ here
    rw [shift] at shift'
    cases shift'
    rw [along _ goes, ih, offsetAt, Mips.offsetAt, here]
    rfl

end Activation

def Noted.mark (i : Noted) : Option (BlockName × Int) :=
  match i.instr with
  | .label (.block b) => some (b, i.offset)
  | _ => none

def marks (body : List Noted) : List (BlockName × Int) := body.filterMap Noted.mark

/-- What holds while a body is emitted: names have numbers below `n`, the blocks `O` have no place
yet, the blocks `H` have one, and `$sp` is now off by `c`. -/
structure Paths (n : Nat) (O H : List (BlockName × Int)) (formals : Nat) (c : Int)
    (body : List Noted) : Prop where
  starts : offsetAt body c 0 = -savedArea
  steps : ∀ m i, body[m]? = some i → ∃ d, i.instr.shift i.pops = some d ∧
    (i.instr.proceeds = true → offsetAt body c (m + 1) = i.offset + d)
  jumps : ∀ i ∈ body, ∀ l ∈ i.instr.targets, ∃ b, l = .block b ∧ (b, i.offset) ∈ O ++ marks body
  distinct : ((O ++ marks body).map Prod.fst).Nodup
  below : ∀ b ∈ (O ++ marks body).map Prod.fst, b.id < n
  headers : ∀ h ∈ H, h ∈ marks body
  fixed : ∀ i ∈ body, i.instr.written ≠ some .fp
  floor : ∀ i ∈ body, i.offset ≤ -savedArea
  words : ∀ i ∈ body, ∀ offset, i.instr.frameWord = some offset → InUse formals i.offset offset

section

variable {body : List Noted} {x : Noted} {c c' : Int} {n m k : Nat}
variable {O O' R H : List (BlockName × Int)} {formals : Nat} {b : BlockName}

theorem offsetAt_append (here : x.offset = c) (le : m ≤ body.length) :
    offsetAt (body ++ [x]) c' m = offsetAt body c m := by
  unfold offsetAt
  rcases Nat.lt_or_eq_of_le le with lt | rfl
  · rw [List.getElem?_append_left lt]
    simp [List.getElem?_eq_getElem lt]
  · simp [here]

theorem offsetAt_end : offsetAt (body ++ [x]) c' (body.length + 1) = c' := by
  simp [offsetAt]

theorem marks_append : marks (body ++ [x]) = marks body ++ x.mark.toList := by
  unfold marks
  rw [List.filterMap_append]
  cases h : x.mark <;> simp [h]

namespace Paths

theorem start (n formals : Nat) : Paths n [] [] formals (-savedArea) [] := by
  constructor <;> simp [offsetAt, marks]

structure Fits (O H : List (BlockName × Int)) (formals : Nat) (c c' : Int) (x : Noted) : Prop where
  here : x.offset = c
  shift : ∃ d, x.instr.shift x.pops = some d ∧ (x.instr.proceeds = true → c' = c + d)
  targets : ∀ l ∈ x.instr.targets, ∃ b, l = .block b ∧ ((b, c) ∈ O ∨ (b, c) ∈ H)
  fixed : x.instr.written ≠ some .fp
  floor : c ≤ -savedArea
  words : ∀ offset, x.instr.frameWord = some offset → InUse formals c offset

theorem steps_append (h : Paths n O H formals c body) (fits : Fits O H formals c c' x) :
    ∀ m i, (body ++ [x])[m]? = some i → ∃ d, i.instr.shift i.pops = some d ∧
      (i.instr.proceeds = true → offsetAt (body ++ [x]) c' (m + 1) = i.offset + d) := by
  intro m i hi
  rcases Nat.lt_trichotomy m body.length with lt | rfl | gt
  · rw [List.getElem?_append_left lt] at hi
    obtain ⟨d, shift, next⟩ := h.steps m i hi
    exact ⟨d, shift, fun proceeds => by rw [offsetAt_append fits.here lt, next proceeds]⟩
  · simp only [List.getElem?_concat_length, Option.some.injEq] at hi
    subst hi
    obtain ⟨d, shift, next⟩ := fits.shift
    exact ⟨d, shift, fun proceeds => by rw [offsetAt_end, next proceeds, fits.here]⟩
  · rw [List.getElem?_eq_none (by simp; omega)] at hi
    cases hi

theorem snoc (h : Paths n O H formals c body) (fits : Fits O H formals c c' x)
    (plain : x.mark = none) : Paths n O H formals c' (body ++ [x]) where
  starts := by rw [offsetAt_append fits.here (Nat.zero_le _), h.starts]
  steps := h.steps_append fits
  jumps i hi l hl := by
    rw [marks_append, plain, Option.toList_none, List.append_nil]
    rcases List.mem_append.mp hi with old | new
    · exact h.jumps i old l hl
    · cases List.mem_singleton.mp new
      obtain ⟨b, rfl, there⟩ := fits.targets l hl
      refine ⟨b, rfl, ?_⟩
      rw [fits.here]
      exact List.mem_append.mpr (there.imp_right (h.headers _))
  distinct := by
    rw [marks_append, plain, Option.toList_none, List.append_nil]
    exact h.distinct
  below := by
    rw [marks_append, plain, Option.toList_none, List.append_nil]
    exact h.below
  headers := by
    rw [marks_append, plain, Option.toList_none, List.append_nil]
    exact h.headers
  fixed := List.forall_mem_append.mpr ⟨h.fixed, List.forall_mem_singleton.mpr fits.fixed⟩
  floor := List.forall_mem_append.mpr
    ⟨h.floor, List.forall_mem_singleton.mpr (fits.here ▸ fits.floor)⟩
  words := List.forall_mem_append.mpr
    ⟨h.words, List.forall_mem_singleton.mpr (fits.here ▸ fits.words)⟩

theorem place (h : Paths n (R ++ (b, c) :: O) H formals c body) (low : c ≤ -savedArea) :
    Paths n (R ++ O) ((b, c) :: H) formals c (body ++ [⟨.label (.block b), c, 0⟩]) := by
  have fits : Fits (R ++ (b, c) :: O) H formals c c ⟨.label (.block b), c, 0⟩ :=
    ⟨rfl, ⟨0, rfl, fun _ => by simp⟩, by simp [Instr.targets], by simp [Instr.written], low,
      by simp [Instr.frameWord]⟩
  have marked : marks (body ++ [⟨.label (.block b), c, 0⟩]) = marks body ++ [(b, c)] :=
    marks_append
  have perm : (R ++ O ++ (marks body ++ [(b, c)])).Perm (R ++ (b, c) :: O ++ marks body) := by
    grind [List.perm_append_comm, List.perm_middle]
  exact {
    starts := by rw [offsetAt_append rfl (Nat.zero_le _), h.starts]
    steps := h.steps_append fits
    jumps := by
      intro i hi l hl
      rcases List.mem_append.mp hi with old | new
      · obtain ⟨b', rfl, there⟩ := h.jumps i old l hl
        exact ⟨b', rfl, by rw [marked]; exact perm.mem_iff.mpr there⟩
      · cases List.mem_singleton.mp new
        simp [Instr.targets] at hl
    distinct := by
      rw [marked]
      exact (perm.map _).nodup_iff.mpr h.distinct
    below := by
      intro b' hb'
      rw [marked] at hb'
      exact h.below b' ((perm.map _).mem_iff.mp hb')
    headers := by
      rw [marked]
      intro p hp
      rcases List.mem_cons.mp hp with rfl | old
      · simp
      · exact List.mem_append_left _ (h.headers p old)
    fixed := List.forall_mem_append.mpr ⟨h.fixed, List.forall_mem_singleton.mpr fits.fixed⟩
    floor := List.forall_mem_append.mpr ⟨h.floor, List.forall_mem_singleton.mpr low⟩
    words := List.forall_mem_append.mpr ⟨h.words, List.forall_mem_singleton.mpr fits.words⟩ }

theorem move (h : Paths n O H formals c body) (low : c ≤ -savedArea) (d : Int) :
    Paths n O H formals (c + d) (body ++ [⟨.addiu .sp .sp d, c, k⟩]) :=
  h.snoc ⟨rfl, ⟨d, rfl, fun _ => rfl⟩, by simp [Instr.targets], by simp [Instr.written], low,
    by simp [Instr.frameWord]⟩ rfl

theorem call (h : Paths n O H formals c body) (low : c ≤ -savedArea) {i : Instr}
    (calls : (∃ name, i = .jal name) ∨ ∃ r, i = .jalr r) :
    Paths n O H formals (c + wordSize * k) (body ++ [⟨i, c, k⟩]) := by
  rcases calls with ⟨name, rfl⟩ | ⟨r, rfl⟩
  · exact h.snoc ⟨rfl, ⟨_, rfl, fun _ => rfl⟩, by simp [Instr.targets], by simp [Instr.written],
      low, by simp [Instr.frameWord]⟩ rfl
  · exact h.snoc ⟨rfl, ⟨_, rfl, fun _ => rfl⟩, by simp [Instr.targets], by simp [Instr.written],
      low, by simp [Instr.frameWord]⟩ rfl

theorem name (h : Paths n O H formals c body) (hint : String) (o : Int) :
    Paths (n + 1) ((⟨hint, n⟩, o) :: O) H formals c body := by
  have fresh : (⟨hint, n⟩ : BlockName) ∉ (O ++ marks body).map Prod.fst :=
    fun mem => Nat.lt_irrefl _ (h.below _ mem)
  exact { h with
    jumps := fun i hi l hl =>
      (h.jumps i hi l hl).imp fun b hb => ⟨hb.1, List.mem_cons_of_mem _ hb.2⟩
    distinct := List.nodup_cons.mpr ⟨fresh, h.distinct⟩
    below := by
      intro b hb
      rcases List.mem_cons.mp hb with rfl | old
      · exact Nat.lt_succ_self n
      · exact Nat.lt_succ_of_lt (h.below b old) }

theorem forget {p : BlockName × Int} (h : Paths n O (p :: H) formals c body) :
    Paths n O H formals c body :=
  { h with headers := fun q hq => h.headers q (List.mem_cons_of_mem _ hq) }

theorem mark_unique (h : Paths n O H formals c body) {b : BlockName} {o o' : Int}
    (ho : (b, o) ∈ marks body) (ho' : (b, o') ∈ marks body) : o = o' := by
  have once : ((marks body).map Prod.fst).Nodup := by
    have := h.distinct
    rw [List.map_append] at this
    exact (List.nodup_append.mp this).2.1
  exact congrArg Prod.snd (List.inj_on_of_nodup_map once ho ho' rfl)

/-- A whole body, at the end of which nothing is on the stack and no block waits for a place. -/
theorem disciplined {label : String} (h : Paths n [] H formals (-savedArea) body) :
    Activation.Disciplined ⟨label, formals, body⟩ where
  starts := h.starts
  flows m i hi := by
    obtain ⟨d, shift, next⟩ := h.steps m i hi
    refine ⟨d, shift, fun m' goes => ?_⟩
    cases goes with
    | next here proceeds =>
      cases hi.symm.trans here
      exact next proceeds
    | @jump i' l _ j here target there place =>
      cases hi.symm.trans here
      obtain ⟨b, rfl, marked⟩ := h.jumps i (List.mem_of_getElem? hi) l target
      have mark : (b, j.offset) ∈ marks body :=
        List.mem_filterMap.mpr ⟨j, List.mem_of_getElem? there, by rw [Noted.mark, place]⟩
      have still : d = 0 := by
        cases hi : i.instr <;> simp_all [Instr.targets, Instr.shift, Instr.written]
      simp only [Activation.offsetAt, offsetAt, there, Option.map_some, Option.getD_some]
      rw [h.mark_unique mark marked, still, Int.add_zero]
  lands i hi l hl := by
    obtain ⟨b, rfl, marked⟩ := h.jumps i hi l hl
    obtain ⟨j, hj, mark⟩ := List.mem_filterMap.mp marked
    refine ⟨j, hj, ?_⟩
    unfold Noted.mark at mark
    split at mark
    · rename_i b' there
      have same : b' = b := congrArg Prod.fst (Option.some.inj mark)
      rw [there, same]
    · cases mark
  fixed := h.fixed
  floor := h.floor
  words := h.words

end Paths

end

end ClassBackend.Mips
