import ClassBackend.Proofs.Mips.Emission

/-! The MIPS machine as a model of the backend. Values stay in few registers; slots are words of
the frame, the formals above `$fp` and the rest pushed downwards without gaps. -/
namespace ClassBackend.Mips

open Meaning Machine Lowering

structure Point where
  seen : List (Sight Call)
  config : Config
  view : View 32

def offset : Slot backend → Int
  | .inl a => a
  | .inr s => s

def valueRegs : List Reg := [.a0, .t1, .s0, .zero]

/-- The next free word of a frame with these formals and these slots. -/
def top (F : List Int) (K : List (Slot backend)) : Int := -12 - 4 * (K.length - F.length)

inductive Stacked (F : List Int) : List (Slot backend) → Prop
  | formals : Stacked F (F.map .inl)
  | push {K s} : Stacked F K → offset s = top F K → Stacked F (s :: K)

structure Shape (F : List Int) (t : State) (K : List (Slot backend)) (O : List BlockName) :
    Prop where
  frame : ∃ f, t.frame = some f ∧ f.spOffset = top F K
  fits : Word.fits (top F K) = true
  stacked : Stacked F K
  labels : ∀ b, .label (.block b) ∈ t.code.toList → b.id < t.fresh.next
  opened : ∀ b ∈ O, b.id < t.fresh.next ∧ .label (.block b) ∉ t.code.toList
  nodup : O.Nodup

namespace Scenario

variable (X : Scenario) (F : List Int)

/-- The formals are different words of the arguments. -/
structure Formals : Prop where
  nodup : F.Nodup
  within : ∀ off ∈ F, 0 < off ∧ off ≤ 4 * (X.arguments : Int)

structure Ready (c : Point) : Prop where
  along : X.course.Along c.seen c.config c.view
  held : X.course.Held c.view c.config.cpu.mem
  image : ∀ a x, X.image a = some x → c.config.cpu.mem a = some x
  fp : c.config.cpu.get .fp = X.fp
  self : c.config.cpu.get .s0 = c.view.place X.setting.self

def At (p : Spot backend) (t : State) (c : Point) : Prop :=
  match p with
  | .here => c.config.pc = t.code.size
  | .block b => c.config.pc = X.site.position b
  | .arm join _ x => c.config.pc = X.site.position join ∧ c.view.Rep x (c.config.cpu.get .a0)

structure Located (p : Spot backend) (t : State) (K : List (Slot backend)) (σ : Store)
    (c : Point) : Prop extends X.Ready c where
  store : c.view.store = σ
  room : K.length ≤ F.length + X.room
  sp : c.config.cpu.get .sp = X.frameWord (top F K)
  at_ : X.At p t c

def SlotHas (c : Point) (s : Slot backend) (x : Val) : Prop :=
  ∃ y, c.config.cpu.mem (X.frameWord (offset s)) = some y ∧ c.view.Rep x y

def model : Model backend where
  Config := Point
  le t t' := t.code.toList <+: t'.code.toList
  placed t t' := t'.code.toList <+: X.site.code ∧
    ∀ n, t.code.size ≤ n → n < t'.code.size → X.allowed n
  shape := Shape F
  located := X.Located F
  firm _ _ := True
  slot := X.SlotHas
  value _ c v x := v ∈ valueRegs ∧ c.view.Rep x (c.config.cpu.get v)
  raw _ c r n := (c.config.cpu.operand r).toInt = n
  result v := v ≠ .t1
  loaded r := ∃ q, r = .reg q
  recent t r := ∃ n, t.nextScratch = n + 1 ∧ r = .reg (Reg.scratchAt n)
  shut _ _ := True
  apart _ _ := True
  word n := Word.fits n = true
  ends := X.course.ends
  capacity := F.length + X.room
  pool := X.pool

end Scenario

section Stack

variable {F : List Int} {K : List (Slot backend)} {s : Slot backend}

theorem top_cons : top F (s :: K) = top F K - 4 := by
  simp only [top, List.length_cons]
  omega

theorem Stacked.length (h : Stacked F K) : F.length ≤ K.length := by
  induction h with
  | formals => simp
  | push _ _ ih =>
    rw [List.length_cons]
    omega

theorem Stacked.top_le (h : Stacked F K) : top F K ≤ -12 := by
  have := h.length
  unfold top
  omega

theorem Stacked.uncons (h : Stacked F (s :: K)) :
    (Stacked F K ∧ offset s = top F K) ∨ ∃ a ∈ F, s = .inl a ∧ K.length + 1 = F.length := by
  generalize hK : s :: K = K' at h
  cases h with
  | formals =>
    cases F with
    | nil => cases hK
    | cons a F =>
      cases hK
      exact .inr ⟨a, List.mem_cons_self, rfl, by simp⟩
  | push rest place =>
    cases hK
    exact .inl ⟨rest, place⟩

end Stack

namespace Scenario

variable {X : Scenario} {F : List Int} {K : List (Slot backend)} {s : Slot backend}

theorem Formals.above (formals : X.Formals F) (h : Stacked F K) (hs : s ∈ K) :
    top F K < offset s ∧ offset s ≤ 4 * (X.arguments : Int) := by
  induction h with
  | formals =>
    obtain ⟨off, mem, rfl⟩ := List.mem_map.mp hs
    have within := formals.within off mem
    simp only [top, offset, List.length_map]
    omega
  | @push K s' rest place ih =>
    have low := rest.top_le
    rw [top_cons]
    rcases List.mem_cons.mp hs with rfl | old
    · omega
    · have := ih old
      omega

theorem Formals.inFrame (formals : X.Formals F) (h : Stacked F K)
    (room : K.length ≤ F.length + X.room) (hs : s ∈ K) : X.InFrame (offset s) := by
  have := formals.above h hs
  unfold InFrame
  unfold top at this
  omega

theorem top_inFrame (h : Stacked F K) (room : K.length < F.length + X.room) :
    X.InFrame (top F K) := by
  have := h.top_le
  unfold InFrame
  unfold top at *
  omega

theorem Formals.offsets (formals : X.Formals F) (h : Stacked F K) : (K.map offset).Nodup := by
  induction h with
  | formals =>
    rw [List.map_map]
    exact formals.nodup.map fun a b same => same
  | @push K s' rest place ih =>
    rw [List.map_cons, List.nodup_cons]
    refine ⟨fun mem => ?_, ih⟩
    obtain ⟨s, hs, same⟩ := List.mem_map.mp mem
    have := (formals.above rest hs).1
    omega

theorem Framed.word_inj (framed : X.Framed) {a b : Int} (ha : X.InFrame a) (hb : X.InFrame b)
    (h : X.frameWord a = X.frameWord b) : a = b := by
  have span := framed.span
  unfold InFrame at ha hb
  have same := BitVec.add_right_inj (X.fp) |>.mp h
  have := congrArg BitVec.toNat same
  simp only [BitVec.toNat_ofInt] at this
  omega

end Scenario

end ClassBackend.Mips
