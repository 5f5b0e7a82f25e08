import ClassBackend.Llvm.Module
import ClassBackend.Proofs.Machine.Listed
import ClassBackend.Proofs.Machine.Replay
import ClassBackend.Proofs.Llvm.Conventions

/-! Surroundings that keep to the conventions: tables made of lists of words, an allocator that
takes the first free of some places, and a write barrier. Runs that call nothing else have all that
they rely on. -/
namespace ClassBackend.Llvm

open Meaning Machine

/-- So many bytes from there on can be taken, and a header has room in them. -/
def free (mem : Memory 64) (size : Nat) (q : BitVec 64) : Bool :=
  q ≠ 0 ∧ slotSize * headerWords ≤ size ∧
    (List.range (size / slotSize + 1)).all fun j =>
      (mem (q + BitVec.ofNat 64 (slotSize * j))).isNone

def grant (mem : Memory 64) (q tag size table : BitVec 64) : Memory 64 := fun a =>
  if (a - q).toNat < size.toNat ∧ slotSize ∣ (a - q).toNat then
    some ([tag, size, table].getD ((a - q).toNat / slotSize) 0)
  else mem a

namespace Call

/-- Storage for an object at the first of the places that has room for it. -/
def allocate (k : Call) (places : List (BitVec 64)) : Option (BitVec 64 × Memory 64) :=
  match k.args with
  | [tag, size, table] => (places.find? (free k.memory size.toNat)).map fun q =>
    (q, grant k.memory q tag size table)
  | _ => none

theorem allocate_eq {k : Call} {tag size table : BitVec 64} (args : k.args = [tag, size, table])
    (places : List (BitVec 64)) : k.allocate places =
      (places.find? (free k.memory size.toNat)).map fun q =>
        (q, grant k.memory q tag size table) := by
  rw [allocate, args]

end Call

/-- Routines that do not come back from any call but of the allocator and of the barrier. -/
def routines (symbol : String → BitVec 64) (places : List (BitVec 64)) (k : Call) :
    Option (BitVec 64 × Memory 64) :=
  if k.target = symbol Routine.gcAlloc.symbol then k.allocate places
  else if k.target = symbol Routine.writeBarrier.symbol then some (0, k.memory)
  else none

/-- The words of dispatch tables and of the table of all classes. -/
def tableWords (symbol : String → BitVec 64) (classes : List ClassLayout) :
    List (BitVec 64 × BitVec 64) :=
  let row name words := Geometry.row ⟨slotSize, symbol, fun _ => False⟩ (symbol name) words
  (classes.flatMap fun k =>
    row (Linkage.dispatchTable k.name) (k.methods.map fun m => symbol m.label)) ++
  row Linkage.classObjects (classes.flatMap fun k => [BitVec.ofNat 64 k.tag,
    BitVec.ofNat 64 (objectSize k), symbol (Linkage.dispatchTable k.name),
    symbol (Linkage.initializer k.name)])

/-- What has to be checked of the words of a class. -/
structure Tabled (g : Geometry 64) (image : Memory 64) (k : ClassLayout) : Prop where
  tag : (image (g.word (g.symbol Linkage.classObjects) (4 * k.tag))).map BitVec.toInt =
    some (k.tag : Int)
  size : (image (g.word (g.symbol Linkage.classObjects) (4 * k.tag + 1))).map BitVec.toInt =
    some (objectSize k : Int)
  table : image (g.word (g.symbol Linkage.classObjects) (4 * k.tag + 2)) =
    some (g.symbol (Linkage.dispatchTable k.name))
  initializer : image (g.word (g.symbol Linkage.classObjects) (4 * k.tag + 3)) =
    some (g.symbol (Linkage.initializer k.name))
  methods : ∀ p ∈ k.methods.zipIdx,
    image (g.word (g.symbol (Linkage.dispatchTable k.name)) p.2) = some (g.symbol p.1.label)

instance {g : Geometry 64} {image : Memory 64} {k : ClassLayout} : Decidable (Tabled g image k) :=
  decidable_of_iff (_ ∧ _ ∧ _ ∧ _ ∧ _)
    ⟨fun h => ⟨h.1, h.2.1, h.2.2.1, h.2.2.2.1, h.2.2.2.2⟩, fun h => ⟨h.1, h.2, h.3, h.4, h.5⟩⟩

namespace Scenario

variable (X : Scenario)

/-- The allocator and the write barrier are told from other routines. -/
structure Distinct : Prop where
  allocator : ∀ r ∈ [Routine.writeBarrier, .equals, .caseAbort, .caseAbort2, .dispatchAbort],
    X.site.symbol r.symbol ≠ X.site.symbol Routine.gcAlloc.symbol
  barrier : ∀ r ∈ [Routine.caseAbort, .caseAbort2, .dispatchAbort],
    X.site.symbol r.symbol ≠ X.site.symbol Routine.writeBarrier.symbol

/-- The addresses of the comparison, of methods and of initializers. -/
def callees : List (BitVec 64) :=
  X.site.symbol Routine.equals.symbol :: X.setting.classes.classes.flatMap fun k =>
    (Linkage.initializer k.name :: k.methods.map Method.label).map X.site.symbol

variable {X} {mem : Memory 64} {q tag size table : BitVec 64} {places : List (BitVec 64)}

theorem Tables.of_tabled (rows : X.site.structs = Module.structsOf X.setting.classes)
    (h : ∀ k ∈ X.setting.classes.classes, Tabled X.geometry X.image k) : X.Tables where
  rows := by
    rw [rows]
    rfl
  tag k hk := Option.map_eq_some_iff.mp (h k hk).tag
  size k hk := Option.map_eq_some_iff.mp (h k hk).size
  table k hk := (h k hk).table
  initializer k hk := (h k hk).initializer
  method k hk i m hm := (h k hk).methods (m, i) (List.mem_zipIdx_iff_getElem?.mpr hm)

theorem allocated_of_free (free : free mem size.toNat q = true) :
    X.Allocated mem (grant mem q tag size table) q tag size table := by
  simp only [Llvm.free, decide_eq_true_eq, List.all_eq_true, List.mem_range,
    Option.isNone_iff_eq_none] at free
  obtain ⟨nonzero, header, free⟩ := free
  have free {j : Nat} (hj : slotSize * j < size.toNat) : mem (X.geometry.word q j) = none := by
    refine free j (Nat.lt_succ_of_le ((Nat.le_div_iff_mul_le (by decide)).mpr ?_))
    rw [Nat.mul_comm]
    exact Nat.le_of_lt hj
  have offset {j : Nat} (hj : slotSize * j < size.toNat) :
      (X.geometry.word q j - q).toNat = slotSize * j :=
    Geometry.word_sub (Nat.lt_trans hj size.isLt)
  have granted {j : Nat} (hj : slotSize * j < size.toNat) :
      grant mem q tag size table (X.geometry.word q j) = some ([tag, size, table].getD j 0) := by
    unfold grant
    rw [offset hj, if_pos ⟨hj, Nat.dvd_mul_right ..⟩, Nat.mul_div_cancel_left _ (by decide)]
  have first {j : Nat} (hj : j < headerWords) : slotSize * j < size.toNat :=
    Nat.lt_of_lt_of_le (Nat.mul_lt_mul_of_pos_left hj (by decide)) header
  constructor
  · exact nonzero
  · exact fun j hj => free hj
  · intro i j hi hj same
    have sizes := offset hi
    rw [same, offset hj] at sizes
    exact (Nat.eq_of_mul_eq_mul_left (by decide) sizes).symm
  · intro j hj
    rw [granted hj]
    rfl
  · have word := granted (first (show 0 < headerWords by decide))
    rwa [Geometry.word_zero] at word
  · exact granted (first (by decide))
  · exact granted (first (by decide))
  · intro a mapped
    refine if_neg fun ⟨inside, j, whole⟩ => ?_
    have word : a = X.geometry.word q j := Geometry.eq_word whole
    rw [word, free (whole ▸ inside)] at mapped
    cases mapped

theorem mem_callees {label : String} {arguments : Nat}
    (takes : X.setting.takes label arguments = true) : X.site.symbol label ∈ X.callees := by
  obtain ⟨k, hk, named⟩ := Setting.takes_label takes
  exact List.mem_cons_of_mem _ (List.mem_flatMap.mpr ⟨k, hk, List.mem_map_of_mem named⟩)

/-- Runs with such routines that compare no objects and call no methods, and that find a place for
each new object, have all that they rely on. -/
theorem conventions_of_routines (outside : X.site.outside = routines X.site.symbol places)
    (distinct : X.Distinct) {n : Nat} (ended : X.site.engine.after n X.start = none)
    (calls : ∀ k ∈ X.site.engine.calls n X.start, k.target ∉ X.callees ∧
      (k.target = X.site.symbol Routine.gcAlloc.symbol → (k.allocate places).isSome = true)) :
    X.Conventions := by
  have foreign {V : View 64} {k : Call} (calling : X.course.Calling V k) : k.target ∉ X.callees :=
    (calls k (calling.mem_calls ended)).1
  constructor
  · intro V k tag calling means
    obtain ⟨target, cls, _, _, x, size, args, _⟩ := means
    have found := (calls k (calling.mem_calls ended)).2 target
    rw [Call.allocate_eq args, Option.isSome_map] at found
    obtain ⟨q, place⟩ := Option.isSome_iff_exists.mp found
    refine ⟨q, grant k.memory q x size (X.site.symbol (Linkage.dispatchTable cls.name)), ?_,
      fun x' size' table' same => ?_⟩
    · rw [outside, routines, if_pos target, Call.allocate_eq args, place, Option.map_some]
    cases args.symm.trans same
    exact allocated_of_free (List.find?_some place)
  · intro V k a b calling means
    exact absurd (means.1 ▸ List.mem_cons_self) (foreign calling)
  · intro V k o i calling means
    have other : k.target ≠ X.site.symbol Routine.gcAlloc.symbol :=
      means.1 ▸ distinct.allocator .writeBarrier (by decide)
    exact ⟨0, by rw [outside, routines, if_neg other, if_pos means.1]⟩
  · intro V k label recv args calling means
    exact absurd (means.2.1 ▸ mem_callees means.1) (foreign calling)
  · intro V k kind file line _ means
    have allocator := distinct.allocator (Routine.ofAbort kind) (by cases kind <;> decide)
    have barrier := distinct.barrier (Routine.ofAbort kind) (by cases kind <;> decide)
    rw [outside, routines, if_neg (means.1 ▸ allocator), if_neg (means.1 ▸ barrier)]

end Scenario

end ClassBackend.Llvm
