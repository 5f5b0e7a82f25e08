import Mathlib.Data.List.Nodup
import ClassBackend.Llvm.Code
import ClassBackend.Proofs.Text.Numeral

/-! Control flow of a function: which blocks leave where. Of a block only its label, the labels that
it leaves for and those that its `phi` lists matter for the graph; the graph of a function that is
being built also has blocks that wait for a place. -/
namespace ClassBackend.Llvm

def Instr.targets : Instr → List Label
  | .br l => [l]
  | .condBr _ yes no => [yes, no]
  | _ => []

/-- Whether the instruction is a terminator. -/
def Instr.ends : Instr → Bool
  | .br _ | .condBr .. | .ret _ | .unreachable => true
  | _ => false

def Instr.incoming? : Instr → Option (List (Operand × Label))
  | .assign _ (.phi incoming) => some incoming
  | _ => none

/-- One terminator, at the end. -/
def Finished (is : List Instr) : Prop :=
  ∃ front last, is = front ++ [last] ∧ last.ends = true ∧ ∀ i ∈ front, i.ends = false

def Block.exits (b : Block Label Instr) : List Label := b.instrs.toList.flatMap Instr.targets

def predecessors (bs : List (Block Label Instr)) (l : Label) : List Label :=
  (bs.filter fun b => l ∈ b.exits).map (·.label)

structure WellFormed (bs : List (Block Label Instr)) : Prop where
  finished : ∀ b ∈ bs, Finished b.instrs.toList
  labels : (bs.map (·.label.text)).Nodup
  targets : ∀ b ∈ bs, ∀ l ∈ b.exits, l ≠ .entry ∧ l ∈ bs.map (·.label)
  /-- A `phi` stands first in its block and has one pair for each block that leaves for it. -/
  phis : ∀ b ∈ bs, ∀ n t incoming, b.instrs[n]? = some (.assign t (.phi incoming)) →
    n = 0 ∧ b.label ≠ .entry ∧ incoming.map (·.2) = predecessors bs b.label

/-- A block in the graph. `joins` are the labels that its `phi` lists, if there is one. -/
structure Outline where
  label : Label
  exits : List Label
  joins : Option (List Label)

def Block.outline (b : Block Label Instr) : Outline :=
  ⟨b.label, b.exits, (b.instrs.toList.head?.bind Instr.incoming?).map (·.map (·.2))⟩

def sources (os : List Outline) (l : Label) : List Label :=
  (os.filter fun o => l ∈ o.exits).map (·.label)

theorem sources_outlines (bs : List (Block Label Instr)) (l : Label) :
    sources (bs.map Block.outline) l = predecessors bs l := by
  simp only [sources, predecessors, List.filter_map, List.map_map]
  rfl

theorem sources_append (os : List Outline) (o : Outline) (l : Label) :
    sources (os ++ [o]) l = sources os l ++ if l ∈ o.exits then [o.label] else [] := by
  unfold sources
  rw [List.filter_append, List.map_append, List.filter_singleton]
  congr 1
  by_cases leaves : l ∈ o.exits <;> simp [leaves]

/-- A block with a number below this one and a hint that the number can be told from. -/
structure Named (n : Nat) (b : BlockName) : Prop where
  below : b.id < n
  plain : plainEnd b.hint = true

/-- A block that waits for a place, and the labels of the arms that have left for it if it is to be
a join. -/
structure Waiting where
  name : BlockName
  arms : Option (List Label)

/-- The graph of a function that is being built, with numbers below `n` in use, these blocks waiting
and these placed blocks open to be jumped to. -/
structure Graph (n : Nat) (O : List Waiting) (H : List BlockName) (os : List Outline) : Prop where
  labels : (os.map Outline.label).Nodup
  named : ∀ b, .block b ∈ os.map Outline.label → Named n b
  distinct : (O.map Waiting.name).Nodup
  waiting : ∀ b ∈ O.map Waiting.name, Named n b ∧ .block b ∉ os.map Outline.label
  targets : ∀ o ∈ os, ∀ l ∈ o.exits, ∃ b, l = .block b ∧
    (b ∈ O.map Waiting.name ∨ l ∈ os.map Outline.label)
  headers : ∀ b ∈ H, ∃ o ∈ os, o.label = .block b ∧ o.joins = none
  arms : ∀ w ∈ O, ∀ as, w.arms = some as → as = sources os (.block w.name)
  joins : ∀ o ∈ os, ∀ ls, o.joins = some ls → o.label ≠ .entry ∧ ls = sources os o.label

namespace Graph

variable {n m : Nat} {O O' R : List Waiting} {H : List BlockName} {os : List Outline}
variable {b : BlockName} {l : Label} {j : Option (List Label)} {ts : List Label}

theorem start (n : Nat) : Graph n [] [] [⟨.entry, [], none⟩] := by
  constructor <;> simp

theorem mono (h : Graph n O H os) (le : n ≤ m) : Graph m O H os where
  labels := h.labels
  named b hb := ⟨Nat.lt_of_lt_of_le (h.named b hb).below le, (h.named b hb).plain⟩
  distinct := h.distinct
  waiting b hb :=
    ⟨⟨Nat.lt_of_lt_of_le (h.waiting b hb).1.below le, (h.waiting b hb).1.plain⟩, (h.waiting b hb).2⟩
  targets := h.targets
  headers := h.headers
  arms := h.arms
  joins := h.joins

theorem forget (h : Graph n O (b :: H) os) : Graph n O H os where
  labels := h.labels
  named := h.named
  distinct := h.distinct
  waiting := h.waiting
  targets := h.targets
  headers c hc := h.headers c (List.mem_cons_of_mem _ hc)
  arms := h.arms
  joins := h.joins

theorem sources_fresh (h : Graph n O H os) (fresh : ¬ Named n b) : sources os (.block b) = [] := by
  unfold sources
  rw [List.map_eq_nil_iff, List.filter_eq_nil_iff]
  intro o ho leaves
  obtain ⟨c, same, there⟩ := h.targets o ho _ (by simpa using leaves)
  cases same
  rcases there with hb | hb
  · exact fresh (h.waiting b hb).1
  · exact fresh (h.named b hb)

theorem name (h : Graph n O H os) {hint : String} (plain : plainEnd hint = true)
    {as : Option (List Label)} (none_left : as = none ∨ as = some []) :
    Graph (n + 1) (⟨⟨hint, n⟩, as⟩ :: O) H os := by
  have fresh : ¬ Named n ⟨hint, n⟩ := fun named => Nat.lt_irrefl _ named.below
  have h' := h.mono (Nat.le_succ n)
  constructor
  · exact h'.labels
  · exact h'.named
  · rw [List.map_cons, List.nodup_cons]
    exact ⟨fun mem => fresh (h.waiting _ mem).1, h'.distinct⟩
  · intro b hb
    rcases List.mem_cons.mp hb with rfl | hb
    · exact ⟨⟨Nat.lt_succ_self n, plain⟩, fun placed => fresh (h.named _ placed)⟩
    · exact h'.waiting b hb
  · intro o ho l hl
    obtain ⟨b, same, there⟩ := h'.targets o ho l hl
    exact ⟨b, same, there.imp_left (List.mem_cons_of_mem _)⟩
  · exact h'.headers
  · rintro w (_ | ⟨_, hw⟩) as' has
    · rw [h.sources_fresh fresh]
      rcases none_left with rfl | rfl <;> simp_all
    · exact h'.arms w hw as' has
  · exact h'.joins

/-- A waiting block is placed. If it begins with a `phi`, that lists the arms. -/
theorem place {w : Waiting} (h : Graph n (R ++ w :: O) H os)
    (listed : ∀ ls, j = some ls → ls = sources os (.block w.name)) :
    Graph n (R ++ O) H (os ++ [⟨.block w.name, [], j⟩]) := by
  have distinct := h.distinct
  rw [List.map_append, List.map_cons, List.nodup_middle, List.nodup_cons, ← List.map_append]
    at distinct
  obtain ⟨alone, distinct⟩ := distinct
  have sub : ∀ v ∈ R ++ O, v ∈ R ++ w :: O := fun v hv => by
    rcases List.mem_append.mp hv with hv | hv <;> simp [hv]
  have unplaced := (h.waiting w.name (List.mem_map_of_mem (by simp))).2
  have same : ∀ l, sources (os ++ [⟨.block w.name, [], j⟩]) l = sources os l := by
    simp [sources_append]
  constructor
  · rw [List.map_append, List.nodup_append]
    refine ⟨h.labels, List.nodup_singleton _, ?_⟩
    intro a old c new same
    have own : a = .block w.name := by rw [same]; simpa using new
    exact unplaced (own ▸ old)
  · intro b hb
    rw [List.map_append, List.mem_append] at hb
    rcases hb with hb | hb
    · exact h.named b hb
    · cases List.mem_singleton.mp hb
      exact (h.waiting w.name (List.mem_map_of_mem (by simp))).1
  · exact distinct
  · intro b hb
    obtain ⟨v, hv, rfl⟩ := List.mem_map.mp hb
    obtain ⟨named, absent⟩ := h.waiting v.name (List.mem_map_of_mem (sub v hv))
    refine ⟨named, ?_⟩
    rw [List.map_append, List.mem_append]
    rintro (old | new)
    · exact absent old
    · have own : v.name = w.name := by simpa using new
      exact alone (own ▸ hb)
  · intro o ho l hl
    rcases List.mem_append.mp ho with ho | ho
    · obtain ⟨b, rfl, there⟩ := h.targets o ho l hl
      refine ⟨b, rfl, ?_⟩
      rcases there with hb | hb
      · simp only [List.map_append, List.map_cons, List.mem_append, List.mem_cons] at hb ⊢
        grind
      · simp only [List.map_append, List.mem_append]
        exact .inr (.inl hb)
    · cases List.mem_singleton.mp ho
      cases hl
  · intro b hb
    obtain ⟨o, ho, found⟩ := h.headers b hb
    exact ⟨o, List.mem_append_left _ ho, found⟩
  · intro v hv as has
    rw [same]
    exact h.arms v (sub v hv) as has
  · intro o ho ls hls
    rw [same]
    rcases List.mem_append.mp ho with ho | ho
    · exact h.joins o ho ls hls
    · cases List.mem_singleton.mp ho
      exact ⟨by simp, listed ls hls⟩

theorem header (h : Graph n O H os) {o : Outline} (ho : o ∈ os) (label : o.label = .block b)
    (none : o.joins = none) : Graph n O (b :: H) os where
  labels := h.labels
  named := h.named
  distinct := h.distinct
  waiting := h.waiting
  targets := h.targets
  headers c hc := by
    rcases List.mem_cons.mp hc with rfl | hc
    · exact ⟨o, ho, label, none⟩
    · exact h.headers c hc
  arms := h.arms
  joins := h.joins

theorem exit (h : Graph n O H (os ++ [⟨l, [], j⟩]))
    (names : O'.map Waiting.name = O.map Waiting.name)
    (goes : ∀ t ∈ ts, ∃ b, t = .block b ∧
      (b ∈ O.map Waiting.name ∨ t ∈ List.map Outline.label (os ++ [⟨l, [], j⟩])))
    (open_ : ∀ o ∈ os ++ [⟨l, [], j⟩], o.joins ≠ none → o.label ∉ ts)
    (arms : ∀ w ∈ O', ∀ as, w.arms = some as →
      as = sources (os ++ [⟨l, ts, j⟩]) (.block w.name)) :
    Graph n O' H (os ++ [⟨l, ts, j⟩]) := by
  have labels : List.map Outline.label (os ++ [⟨l, ts, j⟩]) =
      List.map Outline.label (os ++ [⟨l, [], j⟩]) := by simp
  have cases_ : ∀ o ∈ os ++ [⟨l, ts, j⟩], ∃ o' ∈ os ++ [⟨l, [], j⟩], o'.label = o.label ∧
      o'.joins = o.joins ∧ ∀ t ∈ o.exits, t ∈ o'.exits ∨ t ∈ ts := by
    intro o ho
    rcases List.mem_append.mp ho with ho | ho
    · exact ⟨o, List.mem_append_left _ ho, rfl, rfl, fun t ht => .inl ht⟩
    · cases List.mem_singleton.mp ho
      exact ⟨_, List.mem_append_right _ (List.mem_singleton_self _), rfl, rfl, fun t ht => .inr ht⟩
  constructor
  · rw [labels]
    exact h.labels
  · rw [labels]
    exact h.named
  · rw [names]
    exact h.distinct
  · rw [names, labels]
    exact h.waiting
  · intro o ho t ht
    rw [names, labels]
    obtain ⟨o', ho', _, _, leaves⟩ := cases_ o ho
    rcases leaves t ht with old | new
    · exact h.targets o' ho' t old
    · exact goes t new
  · intro b hb
    obtain ⟨o, ho, label, none⟩ := h.headers b hb
    rcases List.mem_append.mp ho with ho | ho
    · exact ⟨o, List.mem_append_left _ ho, label, none⟩
    · cases List.mem_singleton.mp ho
      exact ⟨_, List.mem_append_right _ (List.mem_singleton_self _), label, none⟩
  · exact arms
  · intro o ho ls hls
    obtain ⟨o', ho', label, joins, _⟩ := cases_ o ho
    obtain ⟨inner, listed⟩ := h.joins o' ho' ls (joins.trans hls)
    rw [← label]
    refine ⟨inner, ?_⟩
    have avoided := open_ o' ho' (by rw [joins, hls]; simp)
    rw [listed, sources_append, sources_append]
    simp [avoided]

theorem leave (h : Graph n O H (os ++ [⟨l, [], j⟩]))
    (goes : ∀ t ∈ ts, ∃ b, t = .block b ∧ (⟨b, none⟩ ∈ O ∨ b ∈ H)) :
    Graph n O H (os ++ [⟨l, ts, j⟩]) := by
  refine h.exit rfl ?_ ?_ ?_
  · intro t ht
    obtain ⟨b, rfl, waits | header⟩ := goes t ht
    · exact ⟨b, rfl, .inl (List.mem_map_of_mem waits)⟩
    · obtain ⟨o, ho, label, _⟩ := h.headers b header
      exact ⟨b, rfl, .inr (label ▸ List.mem_map_of_mem ho)⟩
  · intro o ho phi mem
    obtain ⟨b, label, waits | header⟩ := goes _ mem
    · exact (h.waiting b (List.mem_map_of_mem waits)).2 (label ▸ List.mem_map_of_mem ho)
    · obtain ⟨o', ho', label', none⟩ := h.headers b header
      have same : o = o' := List.inj_on_of_nodup_map h.labels ho ho' (label.trans label'.symm)
      exact phi (same ▸ none)
  · intro w hw as has
    rw [h.arms w hw as has, sources_append, sources_append]
    have avoided : .block w.name ∉ ts := by
      intro mem
      obtain ⟨b, label, waits | header⟩ := goes _ mem
      · cases label
        have same : w = ⟨w.name, none⟩ := List.inj_on_of_nodup_map h.distinct hw waits rfl
        rw [same] at has
        cases has
      · cases label
        obtain ⟨o, ho, label, _⟩ := h.headers _ header
        exact (h.waiting w.name (List.mem_map_of_mem hw)).2 (label ▸ List.mem_map_of_mem ho)
    simp [avoided]

theorem arm {as : List Label} (h : Graph n (R ++ ⟨b, some as⟩ :: O) H (os ++ [⟨l, [], j⟩])) :
    Graph n (R ++ ⟨b, some (as ++ [l])⟩ :: O) H (os ++ [⟨l, [.block b], j⟩]) := by
  have here : (⟨b, some as⟩ : Waiting) ∈ R ++ ⟨b, some as⟩ :: O := by simp
  refine h.exit (by simp) ?_ ?_ ?_
  · intro t ht
    cases List.mem_singleton.mp ht
    exact ⟨b, rfl, .inl (List.mem_map_of_mem here)⟩
  · intro o ho _ mem
    rw [List.mem_singleton] at mem
    exact (h.waiting b (List.mem_map_of_mem here)).2 (mem ▸ List.mem_map_of_mem ho)
  · intro w hw bs hbs
    have distinct := h.distinct
    rw [List.map_append, List.map_cons, List.nodup_middle, List.nodup_cons, ← List.map_append]
      at distinct
    have before : ∀ w' ∈ R ++ ⟨b, some as⟩ :: O, ∀ cs, w'.arms = some cs →
        cs = sources os (.block w'.name) := by
      intro w' hw' cs hcs
      rw [h.arms w' hw' cs hcs, sources_append]
      simp
    rw [sources_append]
    have split : w = ⟨b, some (as ++ [l])⟩ ∨ w ∈ R ++ O := by
      simp only [List.mem_append, List.mem_cons] at hw ⊢
      tauto
    rcases split with rfl | rest
    · cases hbs
      rw [before _ here as rfl]
      simp
    · have other : w.name ≠ b := by
        intro own
        have mem : w.name ∈ (R ++ O).map Waiting.name := List.mem_map_of_mem rest
        exact distinct.1 (own ▸ mem)
      have old : w ∈ R ++ ⟨b, some as⟩ :: O := by
        simp only [List.mem_append, List.mem_cons] at rest ⊢
        tauto
      rw [before w old bs hbs]
      simp [other]

theorem text_inj (h : Graph n O H os) {l l' : Label} (hl : l ∈ os.map Outline.label)
    (hl' : l' ∈ os.map Outline.label) (same : l.text = l'.text) : l = l' := by
  have apart : ∀ b : BlockName, "entry" ≠ b.text := by
    intro b text
    have digit := numbered_not_plainEnd b.hint b.id
    rw [show b.hint ++ toString b.id = "entry" from text.symm] at digit
    exact absurd digit (by decide)
  cases l with
  | entry => cases l' with
    | entry => rfl
    | block b => exact absurd same (apart b)
  | block b => cases l' with
    | entry => exact absurd same.symm (apart b)
    | block c =>
      obtain ⟨hint, id⟩ := numbered_inj (h.named b hl).plain (h.named c hl').plain same
      cases b
      cases c
      simp_all

/-- With no block waiting, the graph is that of a well formed function. -/
theorem wellFormed {bs : List (Block Label Instr)} (h : Graph n [] H (bs.map Block.outline))
    (finished : ∀ b ∈ bs, Finished b.instrs.toList)
    (late : ∀ b ∈ bs, ∀ i ∈ b.instrs.toList.tail, i.incoming? = none) : WellFormed bs := by
  have labels : (bs.map Block.outline).map Outline.label = bs.map Block.label := by
    rw [List.map_map]
    rfl
  constructor
  · exact finished
  · have distinct := h.labels.map_on fun l hl l' hl' same => h.text_inj hl hl' same
    rwa [labels, List.map_map] at distinct
  · intro b hb l hl
    obtain ⟨c, rfl, waits | placed⟩ := h.targets b.outline (List.mem_map_of_mem hb) l hl
    · cases waits
    · exact ⟨by simp, labels ▸ placed⟩
  · intro b hb k t incoming found
    have first : k = 0 := by
      cases k with
      | zero => rfl
      | succ k =>
        have mem : .assign t (.phi incoming) ∈ b.instrs.toList.tail := by
          rw [List.mem_iff_getElem?]
          exact ⟨k, by simpa using found⟩
        have none := late b hb _ mem
        cases none
    subst first
    have joins : b.outline.joins = some (incoming.map (·.2)) := by
      simp [Block.outline, List.head?_eq_getElem?, found, Instr.incoming?]
    obtain ⟨inner, listed⟩ := h.joins b.outline (List.mem_map_of_mem hb) _ joins
    exact ⟨rfl, inner, listed.trans (sources_outlines bs b.label)⟩

end Graph

end ClassBackend.Llvm
