import ClassBackend.Proofs.Account.Unit
import ClassBackend.Proofs.Mips.Roots.Runs

/-! Points of an emission, told by how many words are on the stack and what registers hold there,
and the code that leads from one to another. -/
namespace ClassBackend.Mips

open Lowering

structure Emitting where
  table : ClassTable
  cls : ClassLayout
  formals : Nat
  label : String

/-- A point of the code, with the number of words on the stack and of the scratch registers that
have been handed out. Nothing is held where control does not get to. -/
structure Station where
  depth : Nat
  turn : Nat
  held : Option Held

def Finished (t : ClassTable) (a : Activation) : Prop :=
  ∃ k ∈ t.classes, a.label ∈ k.functions ∧ ∃ listed, Certificate a k listed

namespace Emitting

variable (F : Emitting)

def frame (n : Nat) (regs : Reg → Kind) : Held := ⟨regs, slots F.formals n⟩

def point (n u : Nat) (regs : Reg → Kind) : Station := ⟨n, u, some (F.frame n regs)⟩

structure Stands (w : Entries) (P : Station) (s : Record) : Prop where
  frame : s.plain.frame = some ⟨F.formals, level P.depth⟩
  fits : Word.fits (level P.depth) = true
  turn : s.plain.nextScratch = P.turn
  fresh : s.plain.fresh.next = w.next
  base : ∀ g, P.held = some g → rest ≤ g.reg
  laid : ∃ ms, ms.map Prod.fst = s.body ∧ Charted F.cls F.formals w ms P.held
  label : s.label = F.label
  done : ∀ a ∈ s.done, Finished F.table a

/-- A block that is entered with so many words on the stack and this in the registers. -/
structure Entered (w : Entries) (b : BlockName) (n : Nat) (regs : Reg → Kind) : Prop where
  named : b.id < w.next
  held : w.held b = F.frame n regs
  base : rest ≤ regs

variable {α β : Type}

def Op (w : Entries) (P : Station) (x : Emit Record α) (R : α → Station → Prop) : Prop :=
  ∀ s a s', F.Stands w P s → x s = .ok (a, s') → ∃ P', R a P' ∧ F.Stands w P' s'

def Does (w : Entries) (P : Station) (m : Lowering annotated α)
    (Q : Entries → α → Station → Prop) : Prop :=
  ∀ s a s', F.Stands w P s.target → m s = .ok (a, s') →
    ∃ w' P', w.Le w' ∧ F.Stands w' P' s'.target ∧ Q w' a P'

variable {F} {w w' : Entries} {P P' : Station} {x : Emit Record α} {m : Lowering annotated α}
variable {f : α → Lowering annotated β} {R : α → Station → Prop} {Q : Entries → α → Station → Prop}
variable {Q' : Entries → β → Station → Prop} {n u : Nat} {regs regs' : Reg → Kind} {b : BlockName}
variable {g : Held}

theorem Entered.mono (h : F.Entered w b n regs) (grown : w.Le w') : F.Entered w' b n regs where
  named := Nat.lt_of_lt_of_le h.named grown.next
  held := (grown.held b h.named).trans h.held
  base := h.base

theorem Stands.forget {s : Record} (h : F.Stands w (F.point n u regs) s) (le : regs' ≤ regs)
    (base : rest ≤ regs') : F.Stands w (F.point n u regs') s where
  frame := h.frame
  fits := h.fits
  turn := h.turn
  fresh := h.fresh
  base _ same := Option.some.inj same ▸ base
  laid := by
    obtain ⟨ms, same, laid⟩ := h.laid
    exact ⟨ms, same, laid.forget (Held.le_of le fun _ => le_rfl)⟩
  label := h.label
  done := h.done

/-- What an operation has added to the code, and the point that it got to. -/
structure Appends (F : Emitting) (w : Entries) (p n : Nat) (g : Held) (t t' : State)
    (is : List Instr) (P' : Station) : Prop where
  code : t'.code.toList = t.code.toList ++ is
  frame : t'.frame = some ⟨F.formals, level P'.depth⟩
  fits : Word.fits (level P'.depth) = true
  fresh : t'.fresh = t.fresh
  turn : t'.nextScratch = P'.turn
  base : ∀ g', P'.held = some g' → rest ≤ g'.reg
  runs : Runs F.cls w (level n) p is g P'.held

theorem op_noted {p : Nat} {y : Asm α}
    (h : ∀ t a t', t.frame = some ⟨F.formals, level n⟩ → Word.fits (level n) = true →
      t.nextScratch = u → rest ≤ g.reg → y t = .ok (a, t') →
      ∃ is P', R a P' ∧ Appends F w p n g t t' is P') :
    F.Op w ⟨n, u, some g⟩ (Record.noted p y) R := by
  intro s a s' stands run
  unfold Record.noted at run
  split at run
  · rename_i a t made
    cases run
    obtain ⟨is, P', hR, appends⟩ :=
      h _ _ _ stands.frame stands.fits stands.turn (stands.base _ rfl) made
    have added : t.code.toList.drop s.plain.code.size = is := by
      rw [appends.code, ← Array.length_toList, List.drop_left]
    have offset : s.offset = level n := by simp only [Record.offset, stands.frame]
    refine ⟨P', hR, ?_⟩
    rw [added, offset]
    exact {
      frame := appends.frame
      fits := appends.fits
      turn := appends.turn
      fresh := by rw [appends.fresh, stands.fresh]
      base := appends.base
      laid := by
        obtain ⟨ms, same, laid⟩ := stands.laid
        obtain ⟨ms', notes, laid'⟩ := laid.runs appends.runs
        exact ⟨ms ++ ms', by rw [List.map_append, same, notes], laid'⟩
      label := stands.label
      done := stands.done }
  · cases run

def Gives (v : α) (P : Station) : α → Station → Prop := fun a P' => a = v ∧ P' = P

theorem op_label {y : Asm α} {v : α} (entered : F.Entered w b n regs)
    (h : ∀ t a t', y t = .ok (a, t') → a = v ∧ t' = t.add [.label (.block b)]) :
    F.Op w ⟨n, u, none⟩ (Record.noted 0 y) (Gives v (F.point n u regs)) := by
  intro s a s' stands run
  unfold Record.noted at run
  split at run
  · rename_i a t made
    cases run
    obtain ⟨rfl, rfl⟩ := h _ _ _ made
    have added : (s.plain.add [.label (.block b)]).code.toList.drop s.plain.code.size =
        [.label (.block b)] := by
      rw [State.add_code, ← Array.length_toList, List.drop_left]
    refine ⟨_, ⟨rfl, rfl⟩, ?_⟩
    rw [added]
    exact {
      frame := stands.frame
      fits := stands.fits
      turn := stands.turn
      fresh := stands.fresh
      base := fun _ same => Option.some.inj same ▸ entered.base
      laid := by
        obtain ⟨ms, same, laid⟩ := stands.laid
        have laid' := laid.label s.offset entered.named
        rw [entered.held] at laid'
        exact ⟨_, by rw [List.map_append, same]; rfl, laid'⟩
      label := stands.label
      done := stands.done }
  · cases run

theorem Op.bind {y : α → Emit Record β} {R' : β → Station → Prop} (h : F.Op w P x R)
    (k : ∀ a P', R a P' → F.Op w P' (y a) R') : F.Op w P (x >>= y) R' := by
  intro s b s' stands run
  obtain ⟨a, s₁, first, second⟩ := bind_ok.mp run
  obtain ⟨P₁, hR, stands₁⟩ := h s a s₁ stands first
  exact k a P₁ hR s₁ b s' stands₁ second

theorem Op.step {y : α → Emit Record β} {R' : β → Station → Prop} {v : α}
    (h : F.Op w P x (Gives v P')) (k : F.Op w P' (y v) R') : F.Op w P (x >>= y) R' := by
  refine h.bind ?_
  rintro _ _ ⟨rfl, rfl⟩
  exact k

theorem Op.ret {v : α} : F.Op w P (pure v) (Gives v P) := by
  intro s b s' stands run
  obtain ⟨rfl, rfl⟩ := pure_ok.mp run
  exact ⟨P, ⟨rfl, rfl⟩, stands⟩

namespace Does

theorem ret {a : α} (h : Q w a P) : F.Does w P (pure a) Q := by
  intro s b s' stands run
  obtain ⟨rfl, rfl⟩ := pure_ok.mp run
  exact ⟨w, P, .refl w, stands, h⟩

theorem bind (h : F.Does w P m Q) (k : ∀ w' a P', w.Le w' → Q w' a P' → F.Does w' P' (f a) Q') :
    F.Does w P (m >>= f) Q' := by
  intro s b s' stands run
  obtain ⟨a, s₁, first, second⟩ := bind_ok.mp run
  obtain ⟨w₁, P₁, grown, stands₁, hQ⟩ := h s a s₁ stands first
  obtain ⟨w₂, P₂, grown₂, stands₂, hQ'⟩ := k w₁ a P₁ grown hQ s₁ b s' stands₁ second
  exact ⟨w₂, P₂, grown.trans grown₂, stands₂, hQ'⟩

theorem mono {Q₂ : Entries → α → Station → Prop} (h : F.Does w P m Q)
    (k : ∀ w' a P', w.Le w' → Q w' a P' → Q₂ w' a P') : F.Does w P m Q₂ := by
  intro s a s' stands run
  obtain ⟨w', P', grown, stands', hQ⟩ := h s a s' stands run
  exact ⟨w', P', grown, stands', k w' a P' grown hQ⟩

theorem op (h : F.Op w P x R) : F.Does w P (target x) fun w' a P' => w' = w ∧ R a P' := by
  intro s a s' stands run
  obtain ⟨t, made, rfl⟩ := target_ok.mp run
  obtain ⟨P', hR, stands'⟩ := h _ _ _ stands made
  exact ⟨w, P', .refl w, stands', rfl, hR⟩

theorem step {v : α} (h : F.Op w P x (Gives v P')) (k : F.Does w P' (f v) Q') :
    F.Does w P (target x >>= f) Q' := by
  refine (op h).bind ?_
  rintro _ _ _ _ ⟨rfl, rfl, rfl⟩
  exact k

theorem last {v : α} (h : F.Op w P x (Gives v P')) (k : Q w v P') :
    F.Does w P (target x) Q := by
  refine (op h).mono ?_
  rintro _ _ _ _ ⟨rfl, rfl, rfl⟩
  exact k

theorem found {y : Except Fault α} (k : ∀ a, y = .ok a → F.Does w P (f a) Q') :
    F.Does w P (Lowering.ofExcept y >>= f) Q' := by
  intro s b s' stands run
  obtain ⟨a, s₁, first, second⟩ := bind_ok.mp run
  obtain ⟨found, rfl⟩ := ofExcept_ok.mp first
  exact k a found _ b s' stands second

theorem pooled {g : Pool → α × Pool} (k : ∀ a, F.Does w P (f a) Q') :
    F.Does w P (pooled g >>= f) Q' := by
  intro s b s' stands run
  obtain ⟨a, s₁, first, second⟩ := bind_ok.mp run
  have same : s₁.target = s.target := by
    cases first
    rfl
  exact k a s₁ b s' (same ▸ stands) second

theorem forget (base : rest ≤ regs') (le : regs' ≤ regs)
    (h : F.Does w (F.point n u regs') m Q) : F.Does w (F.point n u regs) m Q :=
  fun s a s' stands run => h s a s' (stands.forget le base) run

theorem block {hint : String} {f : BlockName → Lowering annotated β} (base : rest ≤ regs)
    (k : ∀ b w', w.Le w' → F.Entered w' b P.depth regs → F.Does w' P (f b) Q') :
    F.Does w P (target (annotated.newBlock hint) >>= f) Q' := by
  intro s c s' stands run
  obtain ⟨b, s₁, first, second⟩ := bind_ok.mp run
  obtain ⟨t, made, rfl⟩ := target_ok.mp first
  have made : Record.noted 0 (Asm.newBlock hint) s.target = .ok (b, t) := made
  have drawn : Asm.newBlock hint s.target.plain = .ok (⟨hint, s.target.plain.fresh.next⟩,
      { s.target.plain with fresh := ⟨s.target.plain.fresh.next + 1⟩ }) := rfl
  rw [Record.noted_run (l := []) drawn (by simp)] at made
  cases made
  have grown : w.Le (w.draw ⟨hint, s.target.plain.fresh.next⟩ (F.frame P.depth regs)) :=
    Entries.le_draw stands.fresh
  have entered : F.Entered (w.draw ⟨hint, s.target.plain.fresh.next⟩ (F.frame P.depth regs))
      ⟨hint, s.target.plain.fresh.next⟩ P.depth regs := by
    refine ⟨?_, Function.update_self .., base⟩
    show s.target.plain.fresh.next < w.next + 1
    rw [stands.fresh]
    exact Nat.lt_succ_self _
  have stands₁ : F.Stands (w.draw ⟨hint, s.target.plain.fresh.next⟩ (F.frame P.depth regs)) P
      { s.target with
        plain := { s.target.plain with fresh := ⟨s.target.plain.fresh.next + 1⟩ }
        body := s.target.body ++ [] } :=
    { frame := stands.frame
      fits := stands.fits
      turn := stands.turn
      fresh := congrArg (· + 1) stands.fresh
      base := stands.base
      laid := by
        obtain ⟨ms, same, laid⟩ := stands.laid
        exact ⟨ms, by simpa using same, laid.mono grown⟩
      label := stands.label
      done := stands.done }
  obtain ⟨w₂, P₂, grown₂, stands₂, hQ⟩ := k _ _ grown entered _ c s' stands₁ second
  exact ⟨w₂, P₂, grown.trans grown₂, stands₂, hQ⟩

end Does

end Emitting

end ClassBackend.Mips
