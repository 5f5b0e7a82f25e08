import ClassBackend.Proofs.Machine.Listed
import ClassBackend.Proofs.Machine.Replay
import ClassBackend.Proofs.Mips.Conventions

/-! Surroundings that keep to the conventions: tables made of lists of words, an allocator that
copies objects to the first free of some places, and a write barrier. Runs that call nothing else
have all that they rely on. -/
namespace ClassBackend.Mips

open Meaning Machine

namespace Cpu

/-- A copy of so many words of the object in `$a0`, at another place. Registers that a callee may
use are cleared. -/
def copyObject (s : Cpu) (q : BitVec 32) (n : Nat) : Cpu where
  regs r := if r = .a0 then q else if r ∈ [.t5, .s0, .fp, .sp] then s.regs r else 0
  mem a :=
    if (a - q).toNat < 4 * n ∧ 4 ∣ (a - q).toNat then s.mem (s.get .a0 + (a - q)) else s.mem a

def barrier (s : Cpu) : Cpu where
  regs r := if r ∈ [.a0, .s0, .fp, .sp] then s.regs r else 0
  mem := s.mem

def free (s : Cpu) (n : Nat) (q : BitVec 32) : Bool :=
  q ≠ 0 ∧ 4 * n < 4294967296 ∧
    (List.range n).all fun j => (s.mem (q + BitVec.ofNat 32 (4 * j))).isNone

/-- The object in `$a0` is copied to the first of the places that has room for it. -/
def allocate (s : Cpu) (places : List (BitVec 32)) : Option Cpu :=
  (s.mem (s.get .a0 + 4)).bind fun size =>
    (places.find? (s.free size.toNat)).map fun q => s.copyObject q size.toNat

end Cpu

/-- Routines that do not come back from any call but of the allocator and of the barrier. -/
def routines (symbol : String → BitVec 32) (places : List (BitVec 32)) (target : BitVec 32)
    (s : Cpu) : Option Cpu :=
  if target = symbol Routine.objectCopy.symbol then s.allocate places
  else if target = symbol Routine.gcAssign.symbol then some s.barrier
  else none

/-- The words of prototypes, of dispatch tables and of the table of all classes. -/
def dataWords (symbol : String → BitVec 32) (classes : List ClassLayout) :
    List (BitVec 32 × BitVec 32) :=
  let row name words := Geometry.row ⟨4, symbol, fun _ => False⟩ (symbol name) words
  let prototype k := row (Linkage.prototype k.name) (BitVec.ofNat 32 k.tag ::
    BitVec.ofNat 32 (headerWords + k.fields.length) :: symbol (Linkage.dispatchTable k.name) ::
    k.fields.map fun _ => 0)
  let methods k := row (Linkage.dispatchTable k.name) (k.methods.map fun m => symbol m.label)
  (classes.flatMap fun k => prototype k ++ methods k) ++
    row Linkage.classObjects (classes.flatMap fun k =>
      [symbol (Linkage.prototype k.name), symbol (Linkage.initializer k.name)])

/-- What has to be checked of the words of a class. -/
structure Tabled (g : Geometry 32) (image : Memory 32) (k : ClassLayout) : Prop where
  prototype : ∀ j ∈ List.range (headerWords + k.fields.length),
    (image (g.word (g.symbol (Linkage.prototype k.name)) j)).isSome = true
  tag : (image (g.symbol (Linkage.prototype k.name))).map BitVec.toInt = some (k.tag : Int)
  size : (image (g.word (g.symbol (Linkage.prototype k.name)) 1)).map BitVec.toNat =
    some (headerWords + k.fields.length)
  table : image (g.word (g.symbol (Linkage.prototype k.name)) 2) =
    some (g.symbol (Linkage.dispatchTable k.name))
  methods : ∀ p ∈ k.methods.zipIdx,
    image (g.word (g.symbol (Linkage.dispatchTable k.name)) p.2) = some (g.symbol p.1.label)
  classObject : image (g.word (g.symbol Linkage.classObjects) (2 * k.tag)) =
    some (g.symbol (Linkage.prototype k.name))
  initializer : image (g.word (g.symbol Linkage.classObjects) (2 * k.tag + 1)) =
    some (g.symbol (Linkage.initializer k.name))

instance {g : Geometry 32} {image : Memory 32} {k : ClassLayout} : Decidable (Tabled g image k) :=
  decidable_of_iff (_ ∧ _ ∧ _ ∧ _ ∧ _ ∧ _ ∧ _)
    ⟨fun h => ⟨h.1, h.2.1, h.2.2.1, h.2.2.2.1, h.2.2.2.2.1, h.2.2.2.2.2.1, h.2.2.2.2.2.2⟩,
      fun h => ⟨h.1, h.2, h.3, h.4, h.5, h.6, h.7⟩⟩

namespace Scenario

variable (X : Scenario)

/-- The allocator and the write barrier are told from other routines. -/
structure Distinct : Prop where
  copy : ∀ r ∈ [Routine.gcAssign, .equalityTest, .caseAbort, .caseAbort2, .dispatchAbort],
    X.site.symbol r.symbol ≠ X.site.symbol Routine.objectCopy.symbol
  barrier : ∀ r ∈ [Routine.caseAbort, .caseAbort2, .dispatchAbort],
    X.site.symbol r.symbol ≠ X.site.symbol Routine.gcAssign.symbol

/-- The lowest byte of the frame, and how many bytes it has. -/
structure Spans (floor : BitVec 32) (span : Nat) : Prop where
  floor : floor = X.frameWord (-11 - 4 * X.room)
  bytes : span = 12 + 4 * X.room + 4 * X.arguments
  small : span < 4294967296

/-- The addresses of the comparison, of methods and of initializers. -/
def callees : List (BitVec 32) :=
  X.site.symbol Routine.equalityTest.symbol :: X.setting.classes.classes.flatMap fun k =>
    (Linkage.initializer k.name :: k.methods.map Method.label).map X.site.symbol

variable {X} {s s' : Cpu} {q : BitVec 32} {n : Nat} {places : List (BitVec 32)}

theorem copied_of_free (free : s.free n q = true) : X.Copied s (s.copyObject q n) n := by
  simp only [Cpu.free, decide_eq_true_eq, List.all_eq_true, List.mem_range,
    Option.isNone_iff_eq_none] at free
  obtain ⟨nonzero, few, free⟩ := free
  have place : (s.copyObject q n).get .a0 = q := rfl
  have offset {j : Nat} (hj : j < n) : (X.geometry.word q j - q).toNat = 4 * j :=
    Geometry.word_sub (show 4 * j < 4294967296 by omega)
  constructor
  · rw [place]
    exact nonzero
  · rw [place]
    exact free
  · rw [place]
    intro i hi j hj same
    have sizes := offset hi
    rw [same, offset hj] at sizes
    omega
  · intro j hj
    have taken : s.get .a0 + (X.geometry.word q j - q) = X.geometry.word (s.get .a0) j := by
      show s.get .a0 + (q + BitVec.ofNat 32 (4 * j) - q) = s.get .a0 + BitVec.ofNat 32 (4 * j)
      rw [BitVec.add_comm q, BitVec.add_sub_cancel]
    rw [place]
    show (if _ then _ else _) = _
    rw [if_pos ⟨offset hj ▸ by omega, offset hj ▸ Nat.dvd_mul_right ..⟩, taken]
  · intro a mapped
    show (if _ then _ else _) = _
    refine if_neg fun ⟨inside, j, whole⟩ => ?_
    have word : a = X.geometry.word q j := Geometry.eq_word whole
    have gone : s.mem a = none := by
      rw [word]
      exact free j (by omega)
    rw [gone] at mapped
    cases mapped

theorem Tables.of_tabled (h : ∀ k ∈ X.setting.classes.classes, Tabled X.geometry X.image k) :
    X.Tables where
  prototype k hk j hj := (h k hk).prototype j (List.mem_range.mpr hj)
  tag k hk := Option.map_eq_some_iff.mp (h k hk).tag
  size k hk := Option.map_eq_some_iff.mp (h k hk).size
  table k hk := (h k hk).table
  method k hk i m hm := (h k hk).methods (m, i) (List.mem_zipIdx_iff_getElem?.mpr hm)
  classObject k hk := (h k hk).classObject
  initializer k hk := (h k hk).initializer

section Spans

variable {floor : BitVec 32} {span : Nat}

theorem Spans.within (spans : X.Spans floor span) {off : Int} (h : X.InFrame off) :
    (X.frameWord off - floor).toNat < span := by
  have offset : X.frameWord off - floor = BitVec.ofInt 32 (off + 11 + 4 * X.room) := by
    rw [spans.floor]
    unfold frameWord
    rw [BitVec.sub_eq_iff_eq_add, BitVec.add_comm, BitVec.add_comm X.fp, ← BitVec.add_assoc,
      ← BitVec.ofInt_add]
    congr 2
    omega
  have bytes := spans.bytes
  unfold InFrame at h
  rw [offset, BitVec.toNat_ofInt]
  omega

theorem Spans.reserved (spans : X.Spans floor span) {a : BitVec 32}
    (h : X.geometry.reserved a) : (a - floor).toNat < span ∨ (X.image a).isSome = true := by
  rcases h with ⟨off, inside, rfl⟩ | image
  · exact .inl (spans.within inside)
  · exact .inr image

theorem Spans.framed (spans : X.Spans floor span)
    (apart : ∀ a, (X.image a).isSome = true → span ≤ (a - floor).toNat) : X.Framed where
  span := spans.bytes ▸ spans.small
  apart off inside := by
    by_contra taken
    have far := apart _ (Option.isSome_iff_ne_none.mpr taken)
    exact absurd (spans.within inside) (Nat.not_lt.mpr far)

end Spans

theorem mem_callees {label : String} {arguments : Nat}
    (takes : X.setting.takes label arguments = true) : X.site.symbol label ∈ X.callees := by
  obtain ⟨k, hk, named⟩ := Setting.takes_label takes
  exact List.mem_cons_of_mem _ (List.mem_flatMap.mpr ⟨k, hk, List.mem_map_of_mem named⟩)

/-- Runs with such routines that compare no objects and call no methods, and that copy prototypes
only and find a place for each copy, have all that they rely on. -/
theorem conventions_of_routines (outside : X.site.outside = routines X.site.symbol places)
    (distinct : X.Distinct) (held : X.course.Held X.view X.start.cpu.mem) {n : Nat}
    (ended : X.site.engine.after n X.start = none)
    (calls : ∀ k ∈ X.site.engine.calls n X.start,
      if k.target = X.site.symbol Routine.objectCopy.symbol then
        (k.cpu.allocate places).isSome = true ∧ k.cpu.get .a0 ≠ 0 ∧
          (X.image (k.cpu.get .a0)).isSome = true
      else k.target ∉ X.callees) : X.Conventions := by
  have copies {V : View 32} {k : Call} (calling : X.course.Calling V k)
      (target : k.target = X.site.symbol Routine.objectCopy.symbol) :
      (k.cpu.allocate places).isSome = true ∧ k.cpu.get .a0 ≠ 0 ∧
        (X.image (k.cpu.get .a0)).isSome = true := by
    have made := calls k (calling.mem_calls ended)
    rwa [if_pos target] at made
  have foreign {V : View 32} {k : Call} (calling : X.course.Calling V k)
      (callee : k.target ∈ X.callees) : k.target = X.site.symbol Routine.objectCopy.symbol := by
    by_contra other
    have made := calls k (calling.mem_calls ended)
    rw [if_neg other] at made
    exact made callee
  constructor
  · intro V k tag calling means
    have found := (copies calling means.1).1
    rw [outside, routines, if_pos means.1]
    unfold Cpu.allocate at found ⊢
    cases size : k.cpu.mem (k.cpu.get .a0 + 4) with
    | none =>
      rw [size] at found
      cases found
    | some x =>
      rw [size, Option.bind_some] at found
      cases place : places.find? (k.cpu.free x.toNat) with
      | none =>
        rw [place] at found
        cases found
      | some q =>
        refine ⟨k.cpu.copyObject q x.toNat, by rw [Option.bind_some, place]; rfl, ?_, ?_⟩
        · intro r hr
          simp only [List.mem_cons, List.not_mem_nil, or_false] at hr
          rcases hr with rfl | rfl | rfl | rfl <;> rfl
        · intro y same
          have same : k.cpu.mem (k.cpu.get .a0 + 4) = some y := same
          cases size.symm.trans same
          exact copied_of_free (List.find?_some place)
  · intro V k a b calling means
    have target := foreign calling (means.1 ▸ List.mem_cons_self)
    exact absurd (means.1.symm.trans target) (distinct.copy .equalityTest (by decide))
  · intro V k o i calling means
    have copy : k.target ≠ X.site.symbol Routine.objectCopy.symbol :=
      means.1 ▸ distinct.copy .gcAssign (by decide)
    refine ⟨k.cpu.barrier, by rw [outside, routines, if_neg copy, if_pos means.1], ?_, rfl⟩
    intro r hr
    simp only [List.mem_cons, List.not_mem_nil, or_false] at hr
    rcases hr with rfl | rfl | rfl | rfl <;> rfl
  · intro V k label recv args calling means
    obtain ⟨_, nonvoid, prototype⟩ :=
      copies calling (foreign calling (means.2.1 ▸ mem_callees means.1))
    obtain ⟨os, c, back, along, _⟩ := calling
    cases recv with
    | void => exact absurd means.2.2.1 nonvoid
    | obj r =>
      obtain ⟨live, place⟩ := means.2.2.1
      exact absurd (.inr (place ▸ prototype)) (along.clear held r live)
  · intro V k kind file line _ means
    have copy := distinct.copy (Routine.ofAbort kind) (by cases kind <;> decide)
    have barrier := distinct.barrier (Routine.ofAbort kind) (by cases kind <;> decide)
    rw [outside, routines, if_neg (means.1 ▸ copy), if_neg (means.1 ▸ barrier)]

end Scenario

end ClassBackend.Mips
