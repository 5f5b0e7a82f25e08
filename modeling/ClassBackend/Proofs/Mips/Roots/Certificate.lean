import Mathlib.Order.Basic
import ClassBackend.Proofs.Mips.Roots.Tracking

/-! Certificates for functions in which the collector may run. What is held on a path can be more
than what a certificate lists for its end, and never less, so the list answers for every path. -/
namespace ClassBackend.Mips

/-- Less may be used, and the same may be used as what it is. -/
instance : Preorder Kind where
  le κ κ' := κ = .lost ∨ κ = κ'
  le_refl _ := .inr rfl
  le_trans _ _ _ h h' := h.elim .inl fun same => same ▸ h'

instance : Preorder Held := Preorder.lift fun h => (h.reg, h.word)

section Order

variable {κ κ' : Kind} {g g' : Held} {r : Reg} {offset : Int}

theorem Kind.lost_le : Kind.lost ≤ κ := .inl rfl

theorem Kind.eq_of_le (h : κ ≤ κ') (known : κ ≠ .lost) : κ' = κ := (h.resolve_left known).symm

theorem Kind.plus_le (h : κ ≤ κ') : κ.plus ≤ κ'.plus := by
  rcases h with rfl | rfl
  · exact Kind.lost_le
  · exact le_rfl

theorem Kind.pointee_le (offset : Int) (h : κ ≤ κ') :
    κ.pointee offset ≤ κ'.pointee offset := by
  rcases h with rfl | rfl
  · exact Kind.lost_le
  · exact le_rfl

namespace Held

theorem le_of (reg : ∀ r, g.reg r ≤ g'.reg r) (word : ∀ x, g.word x ≤ g'.word x) : g ≤ g' :=
  ⟨reg, word⟩

theorem reg_le (h : g ≤ g') (r : Reg) : g.reg r ≤ g'.reg r := h.1 r

theorem word_le (h : g ≤ g') (x : Int) : g.word x ≤ g'.word x := h.2 x

theorem put_reg {q : Reg} (other : q ≠ r) : (g.put r κ).reg q = g.reg q :=
  Function.update_of_ne other _ _

theorem put_le (h : g ≤ g') (hκ : κ ≤ κ') : g.put r κ ≤ g'.put r κ' :=
  ⟨update_le_update_iff.mpr ⟨hκ, fun q _ => h.1 q⟩, h.2⟩

theorem store_le (h : g ≤ g') (hκ : κ ≤ κ') : g.store offset κ ≤ g'.store offset κ' :=
  ⟨h.1, update_le_update_iff.mpr ⟨hκ, fun x _ => h.2 x⟩⟩

theorem above_le (h : g ≤ g') : g.above offset ≤ g'.above offset := by
  refine ⟨h.1, fun x => ?_⟩
  by_cases inside : offset < x
  · simpa [above, inside] using h.2 x
  · simp [above, inside]

theorem keeping_le {rs : List Reg} (h : g ≤ g') : g.keeping rs ≤ g'.keeping rs := by
  refine ⟨fun r => ?_, h.2⟩
  by_cases kept : r ∈ rs
  · simpa [keeping, kept] using h.1 r
  · simp [keeping, kept]

theorem kept_le {rs : List Reg} (r : Reg) : (g.keeping rs).reg r ≤ g.reg r := by
  unfold keeping
  dsimp only
  split
  · exact le_rfl
  · exact Kind.lost_le

theorem called_le (h : g ≤ g') : g.called ≤ g'.called := put_le (keeping_le h) le_rfl

theorem calledAt_le {s : String} (h : g ≤ g') : g.calledAt s ≤ g'.calledAt s := by
  unfold calledAt
  by_cases barrier : s = Routine.gcAssign.symbol
  · rw [if_pos barrier, if_pos barrier]
    exact keeping_le h
  · rw [if_neg barrier, if_neg barrier]
    by_cases carried : s = Routine.objectCopy.symbol ∧ g.reg .t5 = .raw
    · have carried' : g'.reg .t5 = .raw :=
        (Kind.eq_of_le (h.1 .t5) (by simp [carried.2])).trans carried.2
      rw [if_pos carried, if_pos ⟨carried.1, carried'⟩]
      exact put_le (called_le h) le_rfl
    · rw [if_neg carried]
      split
      · refine le_of (fun r => ?_) (called_le h).2
        by_cases t5 : r = .t5
        · subst t5
          exact .inl (by simp [called, keeping, put, fixed])
        · rw [put_reg t5]
          exact reg_le (called_le h) r
      · exact called_le h

theorem loaded_le {k : ClassLayout} {sp : Int} (h : g ≤ g') :
    g.loaded k sp offset r ≤ g'.loaded k sp offset r := by
  have plain := Kind.pointee_le offset (reg_le h r)
  cases r with
  | sp => exact h.2 _
  | fp => exact h.2 _
  | s0 => exact le_rfl
  | _ => exact plain

end Held

end Order

section Steps

variable {k : ClassLayout} {sp : Int} {i : Noted} {g g' : Held}

theorem track_le (h : g ≤ g') : track k sp i g ≤ track k sp i g' := by
  obtain ⟨instr, _, pops⟩ := i
  cases instr with
  | la | li | sll | arith | neg => exact Held.put_le h le_rfl
  | lw d offset base => exact Held.put_le h (Held.loaded_le h)
  | sw r offset base =>
    cases base with
    | sp | fp => exact Held.store_le h (Held.reg_le h r)
    | _ => exact h
  | move d r => exact Held.put_le h (Held.reg_le h r)
  | addiu d r n =>
    cases d with
    | sp => exact Held.above_le h
    | _ => exact Held.put_le h le_rfl
  | addu d a b => exact Held.put_le h (Kind.plus_le (Held.reg_le h a))
  | jal s => exact Held.above_le (Held.calledAt_le h)
  | jalr r => exact Held.above_le (Held.called_le h)
  | label | branch | goto | jr => exact h

theorem Safe.mono (safe : Safe sp i g) (h : g ≤ g') : Safe sp i g' := by
  have reg {r : Reg} (known : g.reg r ≠ .lost) : g'.reg r = g.reg r :=
    Kind.eq_of_le (Held.reg_le h r) known
  have object {r : Reg} (there : g.reg r = .object) : g'.reg r = .object := by
    rw [reg (by simp [there]), there]
  constructor
  · intro r hr
    rw [reg (safe.known r hr)]
    exact safe.known r hr
  · intro r offset base stores onStack
    rcases safe.stacked r offset base stores onStack with there | there
    · exact .inl (object there)
    · exact .inr (by rw [reg (by simp [there]), there])
  · exact fun r offset stores => object (safe.fields r offset stores)
  · exact safe.self
  · intro collects
    obtain ⟨acc, words⟩ := safe.passed collects
    refine ⟨object acc, fun j pos le => ?_⟩
    rw [Kind.eq_of_le (Held.word_le h _) (by simp [words j pos le]), words j pos le]
  · exact safe.symbols

theorem track_kept {r : Reg} (other : r ≠ .a0) (kept : i.instr.written ≠ some r) :
    (track k sp i g).reg r ≤ g.reg r := by
  obtain ⟨instr, _, pops⟩ := i
  have put {d : Reg} {κ : Kind} (away : d ≠ r) : (g.put d κ).reg r ≤ g.reg r := by
    rw [Held.put_reg away.symm]
  have away {d : Reg} (h : some d ≠ some r) : d ≠ r := fun same => h (congrArg some same)
  have called : g.called.reg r ≤ g.reg r := by
    rw [Held.called, Held.put_reg other]
    exact Held.kept_le r
  cases instr with
  | la | li | sll | arith | neg | lw | move | addu => exact put (away kept)
  | sw r offset base => cases base <;> exact le_rfl
  | addiu d q n =>
    cases d with
    | sp => exact le_rfl
    | _ => exact put (away kept)
  | jal s =>
    show (g.calledAt s).reg r ≤ g.reg r
    unfold Held.calledAt
    split
    · exact Held.kept_le r
    · split
      · by_cases t5 : r = .t5
        · subst t5
          simp_all [Held.put]
        · rw [Held.put_reg t5]
          exact called
      · exact called
  | jalr q => exact called
  | label | branch | goto | jr => exact le_rfl

/-- What is left over a call in which the collector may run. -/
theorem track_collected {r : Reg} (collects : i.instr.collects = true)
    (known : (track k sp i g).reg r ≠ .lost) : r = .a0 ∨ r ∈ Held.fixed ∨
      (r = .t5 ∧ i.instr = .jal Routine.objectCopy.symbol ∧ g.reg .t5 = .raw) := by
  obtain ⟨instr, _, pops⟩ := i
  have called (known : g.called.reg r ≠ .lost) : r = .a0 ∨ r ∈ Held.fixed := by
    by_contra other
    rw [not_or] at other
    exact known (by simp [Held.called, Held.put, Held.keeping, other])
  cases instr with
  | jal s =>
    have known : (g.calledAt s).reg r ≠ .lost := known
    have loud : s ≠ Routine.gcAssign.symbol := by
      rintro rfl
      simp [Instr.collects, quietRoutines] at collects
    unfold Held.calledAt at known
    rw [if_neg loud] at known
    split at known
    · rename_i carried
      by_cases t5 : r = .t5
      · exact .inr (.inr ⟨t5, congrArg Instr.jal carried.1, carried.2⟩)
      · rw [Held.put_reg t5] at known
        exact (called known).imp_right .inl
    · exact (called known).imp_right .inl
  | jalr q => exact (called known).imp_right .inl
  | _ => cases collects

end Steps

/-- What is held at least at each position of a function of this class, and at its end. -/
structure Certificate (a : Activation) (k : ClassLayout) (listed : Nat → Held) : Prop where
  starts : listed 0 ≤ .start a.formals
  safe : ∀ n i, a.body[n]? = some i → Safe i.offset i (listed n)
  along : ∀ n i m, a.body[n]? = some i → Goes a.body n m →
    listed m ≤ track k i.offset i (listed n)
  result : (listed a.body.length).reg .a0 = .object

namespace Certificate

variable {a : Activation} {k : ClassLayout} {listed : Nat → Held} {n m : Nat} {sp : Int} {h : Held}

theorem tracks_path (tracks : a.Tracks k n sp h) : a.Path n sp := by
  induction tracks with
  | start => exact .start
  | step _ here shift goes ih => exact ih.step here shift goes

theorem tracks_offset (disciplined : a.Disciplined) (tracks : a.Tracks k n sp h) {i : Noted}
    (here : a.body[n]? = some i) : sp = i.offset := by
  rw [(tracks_path tracks).agrees disciplined, Activation.offsetAt, offsetAt, here]
  rfl

theorem listed_le (cert : Certificate a k listed) (disciplined : a.Disciplined)
    (tracks : a.Tracks k n sp h) : listed n ≤ h := by
  induction tracks with
  | start => exact cert.starts
  | @step n m sp d i h tracks here shift goes ih =>
    -- at one position all paths have come to one offset, the one that is noted there
    rw [tracks_offset disciplined tracks here]
    exact (cert.along _ _ _ here goes).trans (track_le ih)

theorem carried {i : Noted} {r : Reg} (cert : Certificate a k listed) (here : a.body[n]? = some i)
    (other : r ≠ .a0) (carries : a.Carries r n m) :
    (listed m).reg r ≤ (track k i.offset i (listed n)).reg r := by
  induction carries with
  | start goes => exact Held.reg_le (cert.along _ _ _ here goes) r
  | step _ there kept goes ih =>
    exact (Held.reg_le (cert.along _ _ _ there goes) r).trans ((track_kept other kept).trans ih)

/-- The collector may run at any call of a function with a certificate. -/
theorem rooted (cert : Certificate a k listed) (disciplined : a.Disciplined) : a.Rooted k := by
  have safe (n sp h i) (tracks : a.Tracks k n sp h) (here : a.body[n]? = some i) : Safe sp i h := by
    rw [tracks_offset disciplined tracks here]
    exact (cert.safe n i here).mono (cert.listed_le disciplined tracks)
  refine ⟨safe, ?_, ?_⟩
  · intro n sp h i tracks here collects r m j carries there reads
    by_cases result : r = .a0
    · exact .inl result
    · have known := (cert.safe m j there).known r reads
      have held := Kind.eq_of_le (cert.carried here result carries) known
      rcases track_collected collects (held ▸ known) with acc | fixed | ⟨t5, copies, raw⟩
      · exact .inl acc
      · exact .inr (.inl fixed)
      · have same := Kind.eq_of_le (Held.reg_le (cert.listed_le disciplined tracks) .t5)
          (by simp [raw])
        exact .inr (.inr ⟨t5, copies, same.trans raw⟩)
  · intro sp h tracks
    have same := Kind.eq_of_le (Held.reg_le (cert.listed_le disciplined tracks) .a0)
      (by simp [cert.result])
    exact same.trans cert.result

end Certificate

end ClassBackend.Mips
