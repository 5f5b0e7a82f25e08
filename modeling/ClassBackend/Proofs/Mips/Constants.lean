import ClassBackend.Proofs.Account.Interning
import ClassBackend.Proofs.Emission.Unit
import ClassBackend.Proofs.Mips.StackState

/-! The data section of a unit. It can be written exactly if every Int of the pool is a machine
word. -/
namespace ClassBackend

namespace Emission

open Lowering Meaning

variable {α β : Type} {T : Fault → Prop} {C : α → Prop} {f : α → Except Fault β}

theorem Settles.mapM {as : List α} (h : ∀ a ∈ as, Settles T (C a) (f a) fun _ => True) :
    Settles T (∀ a ∈ as, C a) (as.mapM f) fun _ => True := by
  induction as with
  | nil => exact ⟨by simp, trivial⟩
  | cons a as ih =>
    rw [List.mapM_cons]
    have rest := ih fun b hb => h b (List.mem_cons_of_mem _ hb)
    have whole := (h a (List.mem_cons_self ..)).bind fun b _ =>
      (rest.bind (D := True) fun bs _ =>
        (show Settles T True (pure (b :: bs) : Except Fault (List β)) fun _ => True from
          ⟨trivial, trivial⟩))
    exact whole.mono (by simp) fun _ _ => trivial

theorem Pooled.widen {texts texts' : List String} {G : List Literal} {p : Pool}
    (h : Pooled texts G p) (more : texts ⊆ texts') : Pooled texts' G p where
  all := h.all
  only v hv := (h.only v hv).imp_right fun ⟨s, from_, len⟩ => ⟨s, from_.imp_right (@more s), len⟩

end Emission

namespace Mips

open Emission Meaning

theorem byteLength_fits {s : String} (small : s.utf8ByteSize < 2147483648) :
    Word.fits (Pool.byteLength s).toInt = true := by
  have value : (Pool.byteLength s).toInt = s.utf8ByteSize := by
    unfold Pool.byteLength
    exact Int64.toInt_ofNat_of_lt (by omega)
  rw [value, Word.fits]
  simp only [Bool.and_eq_true, decide_eq_true_eq]
  omega

theorem pooled_complete {t : ClassTable} {texts : List String} {G : List Literal} {pool : Pool}
    (h : Pooled texts G pool) (blank : "" ∈ texts) (names : ∀ k ∈ t.classes, k.name ∈ texts) :
    Pooled texts G (Data.complete t pool) := by
  have named : Pooled texts G (t.classes.foldl (fun p k => (p.string k.name).2) pool) := by
    generalize t.classes = ks at names
    induction ks generalizing pool with
    | nil => exact h
    | cons k ks ih =>
      exact ih (h.text (names k (List.mem_cons_self ..))) fun j hj =>
        names j (List.mem_cons_of_mem _ hj)
  exact ((named.initValue blank _).initValue blank _).initValue blank _

section

variable {T : Fault → Prop} (excused : ∀ op, T (.overflow op))
include excused

attribute [local irreducible] Word.low Word.fits

theorem stringWords_settles (s : String) : Settles T True (Data.stringWords s) anything := by
  have add (a b : Int) : Settles T True (Word.add a b) anything :=
    (add_settles excused a b).mono Iff.rfl fun _ _ => trivial
  have sub (a b : Int) : Settles T True (Word.sub a b) anything :=
    (sub_settles excused a b).mono Iff.rfl fun _ _ => trivial
  unfold Data.stringWords
  refine (add _ 1).then fun n _ => (add n wordSize).then fun n _ => ?_
  exact (sub n 1).then fun n _ => add 4 _

theorem stringObject_settles (cls : ClassLayout) (c length : Const) (s : String) :
    Settles T True (Data.stringObject cls c s length) anything := by
  unfold Data.stringObject
  exact (stringWords_settles excused s).then fun _ _ => .ret trivial

omit excused in
theorem intObject_settles (cls : ClassLayout) (c : Const) (v : Int64) :
    Settles T (Word.fits v.toInt = true) (Data.intObject cls c v) anything := by
  unfold Data.intObject Word.ofLiteral
  split
  · rename_i fits
    exact ⟨fits, trivial⟩
  · rename_i large
    exact fun fits => absurd fits large

theorem prototype_settles (pool : Pool) (k : ClassLayout) :
    Settles T True (Data.prototype pool k) anything := by
  unfold Data.prototype
  exact (add_settles excused _ _).then fun _ _ => .ret trivial

theorem data_settles {q : Program} {t : ClassTable} (h : ClassTable.build q.withBuiltins = .ok t)
    (gcTest : Bool) {pool : Pool} (measured : (Data.complete t pool).Measured) :
    Settles T (∀ v ∈ (Data.complete t pool).ints, Word.fits v.toInt = true)
      (Data.emit gcTest t pool) anything := by
  have there : ∀ b ∈ Builtin.classes, ∃ k, t.find b.name = .ok k :=
    fun b hb => (found_iff h).mpr (builtin_declared q hb)
  have entries (cls : ClassLayout) (p : Pool) : Settles T (∀ v ∈ p.ints, Word.fits v.toInt = true)
      (p.intEntries.mapM fun e => Data.intObject cls e.1 e.2) anything := by
    refine (Settles.mapM fun e _ => intObject_settles cls e.1 e.2).mono ?_ fun _ h => h
    have values : p.ints = p.intEntries.map Prod.snd := by
      simp [Pool.Tables.intEntries, Function.comp_def]
    rw [values, List.forall_mem_map]
  unfold Data.emit
  refine .known (there Builtin.int (by simp [Builtin.classes])) fun int _ => ?_
  refine .known (there Builtin.bool (by simp [Builtin.classes])) fun bool _ => ?_
  refine .known (there Builtin.string (by simp [Builtin.classes])) fun string _ => ?_
  refine .known ⟨_, Pool.stringEntries_ok.mpr ⟨measured, rfl⟩⟩ fun entries listed => ?_
  obtain ⟨_, rfl⟩ := Pool.stringEntries_ok.mp listed
  have strings := (Settles.mapM fun e (_ : e ∈ (Data.complete t pool).stringEntries) =>
    stringObject_settles excused string e.1 e.2.2 e.2.1).mono (D := True) (by simp) fun _ h => h
  refine strings.then fun _ _ => (entries int _).free fun _ _ => ?_
  have prototypes := (Settles.mapM fun k (_ : k ∈ t.classes) =>
    prototype_settles excused (Data.complete t pool) k).mono (D := True) (by simp) fun _ h => h
  exact prototypes.then fun _ _ => .ret trivial

end

end Mips

end ClassBackend
