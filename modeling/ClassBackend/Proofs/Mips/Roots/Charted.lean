import ClassBackend.Proofs.Mips.Roots.Certificate

/-! Bodies that are laid down one instruction after the other, each next to what is held in front of
it. A block holds from the start what its name was drawn for, so that it may be gone to before it
has its place. -/
namespace ClassBackend.Mips

/-- The blocks that have names, all with numbers below the next one, and what is held where they
are entered. -/
structure Entries where
  next : Nat
  held : BlockName → Held

namespace Entries

structure Le (w w' : Entries) : Prop where
  next : w.next ≤ w'.next
  held : ∀ b : BlockName, b.id < w.next → w'.held b = w.held b

theorem Le.refl (w : Entries) : w.Le w := ⟨Nat.le_refl _, fun _ _ => rfl⟩

theorem Le.trans {w w' w'' : Entries} (h : w.Le w') (h' : w'.Le w'') : w.Le w'' :=
  ⟨Nat.le_trans h.next h'.next, fun b hb =>
    (h'.held b (Nat.lt_of_lt_of_le hb h.next)).trans (h.held b hb)⟩

def draw (w : Entries) (b : BlockName) (g : Held) : Entries :=
  ⟨w.next + 1, Function.update w.held b g⟩

theorem le_draw {w : Entries} {b : BlockName} {g : Held} (fresh : b.id = w.next) :
    w.Le (w.draw b g) where
  next := Nat.le_succ _
  held b' hb' := Function.update_of_ne (by rintro rfl; omega) _ _

end Entries

/-- Instructions next to what is held in front of them, and what is held behind the last, if control
gets there. -/
inductive Charted (k : ClassLayout) (formals : Nat) (w : Entries) :
    List (Noted × Held) → Option Held → Prop where
  | start : Charted k formals w [] (some (.start formals))
  | forget {ms g g'} : Charted k formals w ms (some g) → g' ≤ g → Charted k formals w ms (some g')
  | step {ms g i} : Charted k formals w ms (some g) → Safe i.offset i g → i.mark = none →
      (∀ l ∈ i.instr.targets, ∃ b, l = .block b ∧ b.id < w.next ∧
        w.held b ≤ track k i.offset i g) →
      Charted k formals w (ms ++ [(i, g)])
        (if i.instr.proceeds then some (track k i.offset i g) else none)
  | label {ms b} (offset : Int) : Charted k formals w ms none → b.id < w.next →
      Charted k formals w (ms ++ [(⟨.label (.block b), offset, 0⟩, w.held b)]) (some (w.held b))

namespace Charted

variable {k : ClassLayout} {formals n m : Nat} {w w' : Entries} {ms : List (Noted × Held)}
variable {now now' : Option Held} {g g' : Held} {i j : Noted} {x : Noted × Held} {l : Label}

theorem mono (h : Charted k formals w ms now) (grown : w.Le w') : Charted k formals w' ms now := by
  induction h with
  | start => exact .start
  | forget _ le ih => exact ih.forget le
  | step _ safe plain targets ih =>
    refine ih.step safe plain fun l hl => ?_
    obtain ⟨b, same, below, le⟩ := targets l hl
    exact ⟨b, same, Nat.lt_of_lt_of_le below grown.next, (grown.held b below).symm ▸ le⟩
  | @label _ b _ _ below ih =>
    rw [← grown.held b below]
    exact ih.label _ (Nat.lt_of_lt_of_le below grown.next)

theorem label_safe {b : BlockName} {sp : Int} {pops : Nat} {offset : Int} :
    Safe sp ⟨.label (.block b), offset, pops⟩ g where
  known := by simp [Instr.reads]
  stacked := by simp
  fields := by simp
  self := by simp [Instr.written]
  passed := by simp [Instr.collects]
  symbols := by simp

def listed (ms : List (Noted × Held)) (now : Option Held) (n : Nat) : Option Held :=
  (ms[n]?.map Prod.snd).or now

theorem listed_append (le : n ≤ ms.length) :
    listed (ms ++ [x]) now n = listed ms (some x.2) n := by
  unfold listed
  rcases Nat.lt_or_eq_of_le le with lt | rfl
  · rw [List.getElem?_append_left lt, List.getElem?_eq_getElem lt]
    rfl
  · simp

theorem listed_end : listed (ms ++ [x]) now (ms.length + 1) = now := by
  simp [listed]

theorem listed_here (here : ms[n]? = some (i, g)) : listed ms now n = some g := by
  simp [listed, here]

theorem getElem?_snoc (h : (ms ++ [x])[n]? = some (i, g)) :
    ms[n]? = some (i, g) ∨ n = ms.length ∧ x = (i, g) := by
  rcases Nat.lt_trichotomy n ms.length with lt | rfl | gt
  · rw [List.getElem?_append_left lt] at h
    exact .inl h
  · rw [List.getElem?_concat_length] at h
    exact .inr ⟨rfl, Option.some.inj h⟩
  · rw [List.getElem?_eq_none (by simp; omega)] at h
    cases h

theorem listed_some (h : listed ms none n = some g) (now : Option Held) :
    listed ms now n = some g := by
  unfold listed at h ⊢
  rw [Option.or_none] at h
  rw [h]
  rfl

theorem listed_zero (h : Charted k formals w ms now) :
    ∃ g, listed ms now 0 = some g ∧ g ≤ .start formals := by
  induction h with
  | start => exact ⟨_, rfl, le_rfl⟩
  | @forget ms g g' _ le ih =>
    obtain ⟨g₀, first, bound⟩ := ih
    cases ms with
    | nil =>
      cases first
      exact ⟨g', rfl, le.trans bound⟩
    | cons x ms => exact ⟨g₀, first, bound⟩
  | step _ _ _ _ ih =>
    rw [listed_append (Nat.zero_le _)]
    exact ih
  | label _ _ _ ih =>
    rw [listed_append (Nat.zero_le _)]
    obtain ⟨g₀, first, bound⟩ := ih
    exact ⟨g₀, listed_some first _, bound⟩

theorem safe (h : Charted k formals w ms now) : ∀ x ∈ ms, Safe x.1.offset x.1 x.2 := by
  induction h with
  | start => simp
  | forget _ _ ih => exact ih
  | step _ safe _ _ ih => exact List.forall_mem_append.mpr ⟨ih, List.forall_mem_singleton.mpr safe⟩
  | label _ _ _ ih =>
    exact List.forall_mem_append.mpr ⟨ih, List.forall_mem_singleton.mpr label_safe⟩

theorem next (h : Charted k formals w ms now) (here : ms[n]? = some (i, g))
    (proceeds : i.instr.proceeds = true) :
    ∃ g', listed ms now (n + 1) = some g' ∧ g' ≤ track k i.offset i g := by
  induction h with
  | start => cases here
  | @forget ms g₁ g₂ _ le ih =>
    obtain ⟨g', there, bound⟩ := ih here
    unfold listed at there ⊢
    cases more : ms[n + 1]? with
    | none =>
      rw [more] at there
      cases there
      exact ⟨g₂, rfl, le.trans bound⟩
    | some x =>
      rw [more] at there
      exact ⟨g', there, bound⟩
  | step _ _ _ _ ih =>
    rcases getElem?_snoc here with old | ⟨rfl, same⟩
    · rw [listed_append (List.getElem?_eq_some_iff.mp old).1]
      exact ih old
    · cases same
      exact ⟨_, by rw [listed_end, if_pos proceeds], le_rfl⟩
  | label _ _ _ ih =>
    rcases getElem?_snoc here with old | ⟨rfl, same⟩
    · rw [listed_append (List.getElem?_eq_some_iff.mp old).1]
      obtain ⟨g', there, bound⟩ := ih old
      exact ⟨g', listed_some there _, bound⟩
    · cases same
      exact ⟨_, listed_end, le_rfl⟩

theorem targets (h : Charted k formals w ms now) : ∀ x ∈ ms, ∀ l ∈ x.1.instr.targets,
    ∃ b, l = .block b ∧ w.held b ≤ track k x.1.offset x.1 x.2 := by
  induction h with
  | start => simp
  | forget _ _ ih => exact ih
  | step _ _ _ targets ih =>
    refine List.forall_mem_append.mpr ⟨ih, List.forall_mem_singleton.mpr fun l hl => ?_⟩
    exact (targets l hl).imp fun b hb => ⟨hb.1, hb.2.2⟩
  | label _ _ _ ih =>
    exact List.forall_mem_append.mpr ⟨ih, by simp [Instr.targets]⟩

theorem labels (h : Charted k formals w ms now) :
    ∀ x ∈ ms, ∀ b, x.1.instr = .label (.block b) → x.2 = w.held b := by
  induction h with
  | start => simp
  | forget _ _ ih => exact ih
  | @step _ _ i _ _ plain _ ih =>
    refine List.forall_mem_append.mpr ⟨ih, List.forall_mem_singleton.mpr fun b marks => ?_⟩
    have marks : i.instr = .label (.block b) := marks
    rw [Noted.mark, marks] at plain
    cases plain
  | label _ _ _ ih =>
    refine List.forall_mem_append.mpr ⟨ih, List.forall_mem_singleton.mpr fun b marks => ?_⟩
    cases marks
    rfl

theorem there (here : (ms.map Prod.fst)[n]? = some i) : ∃ g, ms[n]? = some (i, g) := by
  rw [List.getElem?_map] at here
  obtain ⟨x, there, rfl⟩ := Option.map_eq_some_iff.mp here
  exact ⟨x.2, there⟩

/-- What has been laid down is a function with a certificate. -/
theorem certificate (h : Charted k formals w ms (some g)) (acc : g.reg .a0 = .object)
    (label : String) : Certificate ⟨label, formals, ms.map Prod.fst⟩ k
      fun n => (listed ms (some g) n).getD g where
  starts := by
    obtain ⟨g₀, first, bound⟩ := h.listed_zero
    rw [first]
    exact bound
  safe n i here := by
    obtain ⟨g', here⟩ := there here
    rw [listed_here here]
    exact h.safe _ (List.mem_of_getElem? here)
  along n i m here goes := by
    obtain ⟨g', here'⟩ := there here
    rw [listed_here here']
    cases goes with
    | next again proceeds =>
      cases here.symm.trans again
      obtain ⟨g₁, next, bound⟩ := h.next here' proceeds
      rw [next]
      exact bound
    | jump again target place marks =>
      cases here.symm.trans again
      obtain ⟨g₁, place⟩ := there place
      obtain ⟨b, rfl, bound⟩ := h.targets _ (List.mem_of_getElem? here') _ target
      rw [listed_here place]
      exact (le_of_eq (h.labels _ (List.mem_of_getElem? place) b marks)).trans bound
  result := by
    simp [listed, acc]

end Charted

end ClassBackend.Mips
