import ClassBackend.Proofs.Account.Symbols
import ClassBackend.Proofs.Mips.References
import ClassBackend.Proofs.Mips.Tables

/-! What the data section defines and what it refers to. -/
namespace ClassBackend.Mips

open Lowering

def Line.reference? : Line → Option String
  | .globl s | .word (.sym s) => some s
  | _ => none

namespace Data

variable {P : String → Prop} {t : ClassTable} {p : Pool} {ls rest : List Line}

def Known (P : String → Prop) (ls : List Line) : Prop :=
  ∀ l ∈ ls, ∀ s, l.reference? = some s → P s

section Known

theorem Known.append (h : Known P ls) (h' : Known P rest) : Known P (ls ++ rest) :=
  List.forall_mem_append.mpr ⟨h, h'⟩

theorem Known.cons {l : Line} (hl : ∀ s, l.reference? = some s → P s) (h : Known P ls) :
    Known P (l :: ls) := List.forall_mem_cons.mpr ⟨hl, h⟩

theorem known_nil : Known P [] := by simp [Known]

theorem Known.num {n : Int} (h : Known P ls) : Known P (.word (.num n) :: ls) :=
  h.cons (by simp [Line.reference?])

theorem Known.sym {s : String} (h : Known P ls) (hs : P s) : Known P (.word (.sym s) :: ls) :=
  h.cons fun _ same => by cases same; exact hs

theorem Known.label {s : String} (h : Known P ls) : Known P (.label s :: ls) :=
  h.cons (by simp [Line.reference?])

theorem Known.globl {s : String} (h : Known P ls) (hs : P s) : Known P (.globl s :: ls) :=
  h.cons fun _ same => by cases same; exact hs

theorem known_words {α : Type} {xs : List α} {f : α → Datum}
    (h : ∀ x ∈ xs, ∀ s, f x = .sym s → P s) : Known P (xs.map fun x => .word (f x)) := by
  intro l hl s hs
  obtain ⟨x, hx, rfl⟩ := List.mem_map.mp hl
  refine h x hx s ?_
  cases value : f x with
  | num => simp [value, Line.reference?] at hs
  | sym r =>
    rw [value] at hs
    cases hs
    rfl

theorem known_asciiFrom (run : List Char) (bytes : List UInt8) :
    Known P (asciiFrom run bytes) := by
  have flushed (run : List Char) : Known P (flush run) := by
    unfold flush
    split <;> simp [Known, Line.reference?]
  induction bytes generalizing run with
  | nil => exact flushed run
  | cons b bs ih =>
    unfold asciiFrom
    split
    · exact ih _
    · split
      · exact ih _
      · exact (flushed run).append ((ih []).cons (by simp [Line.reference?]))

theorem known_header {label : String} {k : ClassLayout} {words : Int}
    (hk : P (Linkage.dispatchTable k.name)) : Known P (header label k words) :=
  .num (.label (.num (.num (known_nil.sym hk))))

theorem stringObject_known {k : ClassLayout} {c length : Const} {s : String}
    (h : stringObject k c s length = .ok ls) (hk : P (Linkage.dispatchTable k.name))
    (hl : P length.label) : Known P ls := by
  simp only [stringObject, except_bind_ok, except_pure_ok] at h
  obtain ⟨words, _, rfl⟩ := h
  refine (((known_header hk).append (known_nil.sym hl)).append (known_asciiFrom _ _)).append ?_
  simp [Known, Line.reference?]

theorem intObject_known {k : ClassLayout} {c : Const} {v : Int64} (h : intObject k c v = .ok ls)
    (hk : P (Linkage.dispatchTable k.name)) : Known P ls := by
  simp only [intObject, except_bind_ok, except_pure_ok] at h
  obtain ⟨word, _, rfl⟩ := h
  exact (known_header hk).append known_nil.num

theorem known_objects {α : Type} {f : α → Except Fault (List Line)} {xs : List α}
    {objects : List (List Line)} (h : xs.mapM f = .ok objects)
    (each : ∀ x ∈ xs, ∀ ls, f x = .ok ls → Known P ls) : Known P objects.flatten := by
  have made := except_mapM_ok.mp h
  clear h
  induction made with
  | nil => exact known_nil
  | @cons x ls xs rest first _ ih =>
    rw [List.flatten_cons]
    exact (each x (by simp) ls first).append (ih fun y hy => each y (List.mem_cons_of_mem _ hy))

end Known

section Completion

theorem complete_eq (t : ClassTable) (p : Pool) :
    complete t p = (((p.named t.classes).int 0).2.string "").2 := by
  simp [complete, Pool.initValue_eq, Builtin.intName, Builtin.boolName, Builtin.stringName,
    Pool.named]

theorem complete_grows (t : ClassTable) (p : Pool) : PoolLe p (complete t p) := by
  rw [complete_eq]
  exact (p.named_grows t.classes).trans ((int_pooled _ _).1.trans (string_pooled _ _).1)

theorem complete_measured (t : ClassTable) (h : p.Measured) : (complete t p).Measured := by
  rw [complete_eq]
  exact ((h.named _).int _).string _

theorem complete_name {k : ClassLayout} (hk : k ∈ t.classes) (p : Pool) :
    k.name ∈ (complete t p).strings := by
  rw [complete_eq]
  exact ((int_pooled _ _).1.trans (string_pooled _ _).1).2.subset (Pool.mem_named hk p)

theorem complete_zero (t : ClassTable) (p : Pool) : 0 ∈ (complete t p).ints := by
  rw [complete_eq]
  exact (string_pooled _ _).1.1.subset (Pool.mem_ints (int_pooled 0 (p.named t.classes)).2)

theorem complete_empty (t : ClassTable) (p : Pool) : "" ∈ (complete t p).strings := by
  rw [complete_eq]
  exact Pool.mem_strings (string_pooled "" _).2

theorem fieldDefault_known {ty s : String} (measured : p.Measured)
    (h : fieldDefault (complete t p) ty = .sym s) :
    ∃ c l, Denotes (complete t p) c l ∧ s = c.label := by
  have measured' := complete_measured t measured
  unfold fieldDefault at h
  split at h
  · cases h
  · split at h
    · rename_i c initial
      cases h
      rw [Pool.initValue_eq] at initial
      split at initial
      · cases initial
        obtain ⟨l, denotes⟩ := Pool.denotes_int (complete_zero t p)
        exact ⟨_, l, denotes, rfl⟩
      · split at initial
        · cases initial
          exact ⟨.bool false, .bool false, rfl, rfl⟩
        · split at initial
          · cases initial
            obtain ⟨l, denotes⟩ := Pool.denotes_string measured' (complete_empty t p)
            exact ⟨_, l, denotes, rfl⟩
          · cases initial
    · cases h

end Completion

section Labels

theorem objects_labels {α : Type} (name : α → String) {f : α → Except Fault (List Line)}
    {xs : List α} {objects : List (List Line)} (h : xs.mapM f = .ok objects)
    (each : ∀ x ls, f x = .ok ls → labels ls = [name x]) :
    labels objects.flatten = xs.map name := by
  have made := except_mapM_ok.mp h
  clear h
  induction made with
  | nil => rfl
  | @cons x ls xs rest first _ ih =>
    rw [List.flatten_cons, labels_append, each x ls first, ih]
    rfl

theorem prototype_labels {k : ClassLayout} (h : prototype p k = .ok ls) :
    labels ls = [Linkage.prototype k.name] := by
  simp only [prototype, except_bind_ok, except_pure_ok] at h
  obtain ⟨words, _, rfl⟩ := h
  rw [labels_append, labels_words]
  rfl

theorem dispatchTables_labels (ks : List ClassLayout) :
    labels (ks.flatMap dispatchTable) = ks.map fun k => Linkage.dispatchTable k.name := by
  induction ks with
  | nil => rfl
  | cons k ks ih => rw [List.flatMap_cons, labels_append, dispatchTable_labels, ih]; rfl

theorem classObjects_labels (t : ClassTable) : labels (classObjects t) = [] := by
  unfold classObjects
  induction t.classes with
  | nil => rfl
  | cons k ks ih => exact ih

theorem emit_labels {gcTest : Bool} (h : emit gcTest t p = .ok ls) :
    labels ls = ["_int_tag", "_bool_tag", "_string_tag",
        "_MemMgr_INITIALIZER", "_MemMgr_COLLECTOR", "_MemMgr_TEST"] ++
      (complete t p).stringEntries.map (·.1.label) ++ (complete t p).intEntries.map (·.1.label) ++
      [(Const.bool false).label, (Const.bool true).label, Linkage.classNames,
        Linkage.classObjects] ++
      (t.classes.map fun k => Linkage.dispatchTable k.name) ++
      (t.classes.map fun k => Linkage.prototype k.name) ++ ["heap_start"] := by
  obtain ⟨int, bool, string, strings, ints, prototypes, _, _, _, stringed, inted, made, rfl⟩ :=
    emit_parts h
  have texts := objects_labels (fun e => e.1.label) stringed
    fun _ _ made => stringObject_labels made
  have numbers := objects_labels (fun e => e.1.label) inted
    fun _ _ made => intObject_labels made
  have objects := objects_labels (fun k => Linkage.prototype k.name) made
    fun _ _ made => prototype_labels made
  have tables : labels (.label Linkage.classNames :: classNames t (complete t p)) =
      [Linkage.classNames] := congrArg (_ :: ·) (labels_words _ _)
  have entries : labels (.label Linkage.classObjects :: classObjects t) =
      [Linkage.classObjects] := congrArg (_ :: ·) (classObjects_labels t)
  simp only [untilPrototypes, labels_append, texts, numbers, objects, dispatchTables_labels,
    preamble_labels, tables, entries, List.append_assoc]
  rfl

end Labels

section References

theorem nameable_fixed {s : String} (h : s ∈ fixedSymbols) : Nameable vocabulary t p s :=
  .other (List.mem_append_left _ h)

theorem nameable_routine (r : Routine) : Nameable vocabulary t p r.symbol :=
  .other (List.mem_append_right _ (List.mem_map_of_mem r.mem_all))

theorem nameable_table {k : ClassLayout} (hk : k ∈ t.classes) :
    Nameable vocabulary t p (Linkage.dispatchTable k.name) :=
  .artifact (a := .dispatchTable) hk (by decide)

theorem nameable_present (ht : t.Conventional) {name : String}
    (h : name = Builtin.mainName ∨ name ∈ Builtin.classes.map (·.name)) {a : Artifact}
    (ha : a ∈ vocabulary.artifacts) : Nameable vocabulary t p (name ++ a.suffix) := by
  rcases h with rfl | builtin
  · obtain ⟨k, hk, named, _⟩ := ht.main
    exact named ▸ .artifact hk ha
  · obtain ⟨b, hb, rfl⟩ := List.mem_map.mp builtin
    obtain ⟨k, hk, rfl⟩ := ht.present b hb
    exact .artifact hk ha

theorem exported_known (ht : t.Conventional) {s : String} (h : s ∈ exported) :
    Nameable vocabulary t p s := by
  have proto {name : String} (present : name = Builtin.mainName ∨
      name ∈ Builtin.classes.map (·.name)) : Nameable vocabulary t p (Linkage.prototype name) :=
    nameable_present (a := .prototype) ht present (by decide)
  simp only [exported, List.mem_cons, List.not_mem_nil, or_false] at h
  rcases h with rfl | rfl | rfl | rfl | rfl | rfl | rfl | rfl | rfl
  · exact nameable_fixed (by decide)
  · exact proto (by decide)
  · exact proto (by decide)
  · exact proto (by decide)
  · exact .const (l := .bool false) rfl
  · exact .const (l := .bool true) rfl
  · exact nameable_fixed (by decide)
  · exact nameable_fixed (by decide)
  · exact nameable_fixed (by decide)

theorem preamble_known (ht : t.Conventional) (gcTest : Bool) (int bool string : ClassLayout) :
    Known (Nameable vocabulary t p) (preamble gcTest int bool string) := by
  have exports : Known (Nameable vocabulary t p) (exported.map .globl) := by
    intro l hl s hs
    obtain ⟨r, hr, rfl⟩ := List.mem_map.mp hl
    cases hs
    exact exported_known ht hr
  have tag (s : String) (n : Int) : Known (Nameable vocabulary t p) (labelled s (.num n)) :=
    known_nil.num.label
  have manager : Known (Nameable vocabulary t p) (collector gcTest) :=
    .globl (.label (.sym (.globl (.label (.sym (.globl (.label (.num known_nil))
      (nameable_fixed (by decide))) (nameable_routine .gcCollect))) (nameable_fixed (by decide)))
      (nameable_routine .gcInit))) (nameable_fixed (by decide))
  have start : Known (Nameable vocabulary t p) [.data, .align] := by simp [Known, Line.reference?]
  exact (((((start.append exports).append (tag _ _)).append (tag _ _)).append (tag _ _)).append
    manager)

theorem classObjects_known : Known (Nameable vocabulary t p) (classObjects t) := by
  intro l hl s hs
  obtain ⟨k, hk, hl⟩ := List.mem_flatMap.mp hl
  rcases List.mem_pair.mp hl with rfl | rfl
  · cases hs
    exact nameable_prototype hk
  · cases hs
    exact nameable_initializer hk

theorem dispatchTables_known :
    Known (Nameable vocabulary t p) (t.classes.flatMap dispatchTable) := by
  intro l hl s hs
  obtain ⟨k, hk, hl⟩ := List.mem_flatMap.mp hl
  rcases List.mem_cons.mp hl with rfl | hl
  · cases hs
  · obtain ⟨m, hm, rfl⟩ := List.mem_map.mp hl
    cases hs
    exact .method hk hm

theorem emit_known {gcTest : Bool} (ht : t.Conventional) (measured : p.Measured)
    (h : emit gcTest t p = .ok ls) : Known (Nameable vocabulary t (complete t p)) ls := by
  have measured' := complete_measured t measured
  obtain ⟨int, bool, string, strings, ints, prototypes, hint, hbool, hstring, stringed, inted, made,
    rfl⟩ := emit_parts h
  have hint := ClassTable.mem_of_find hint
  have hbool := ClassTable.mem_of_find hbool
  have hstring := ClassTable.mem_of_find hstring
  refine .append (.append (preamble_known ht gcTest int bool string) (.append ?strings
    (.append ?ints (.append ?falsity (.append ?truth (.append ?names (.append ?objects
    dispatchTables_known))))))) (.append ?prototypes
    (.globl (.label known_nil.num) (nameable_fixed (by decide))))
  case strings =>
    refine known_objects stringed fun e he ls made => ?_
    refine stringObject_known made (nameable_table hstring) ?_
    obtain ⟨⟨s, i⟩, hs, rfl⟩ := List.mem_map.mp he
    exact .const (Pool.denotes_idxOf (measured' s (List.fst_mem_of_mem_zipIdx hs)))
  case ints =>
    exact known_objects inted fun e _ ls made => intObject_known made (nameable_table hint)
  case falsity => exact (known_header (nameable_table hbool)).append known_nil.num
  case truth => exact (known_header (nameable_table hbool)).append known_nil.num
  case names =>
    refine .label (known_words fun k hk s hs => ?_)
    cases hs
    obtain ⟨l, denotes⟩ := Pool.denotes_string measured' (complete_name hk p)
    exact .const denotes
  case objects => exact .label classObjects_known
  case prototypes =>
    refine known_objects made fun k hk ls made => ?_
    simp only [prototype, except_bind_ok, except_pure_ok] at made
    obtain ⟨words, _, rfl⟩ := made
    refine (known_header (nameable_table hk)).append (known_words fun f _ s hs => ?_)
    obtain ⟨c, l, denotes, rfl⟩ := fieldDefault_known measured hs
    exact .const denotes

end References

end Data

end ClassBackend.Mips

/-! The objects of pooled constants in the data section. They are all there before the prototypes
are. -/
namespace ClassBackend.Mips.Data

open Lowering Meaning

inductive Object (t : ClassTable) (p : Pool) : Const → List Line → Prop
  | int {k : ClassLayout} {i : Nat} {v : Int64} {ls : List Line} :
    t.find Builtin.intName = .ok k → p.ints[i]? = some v → intObject k (.int i) v = .ok ls →
    Object t p (.int i) ls
  | str {k : ClassLayout} {i : Nat} {s : String} {ls : List Line} :
    t.find Builtin.stringName = .ok k → p.strings[i]? = some s →
    stringObject k (.str i) s (.int (p.ints.idxOf (Pool.byteLength s))) = .ok ls →
    Object t p (.str i) ls
  | bool {k : ClassLayout} (b : Bool) :
    t.find Builtin.boolName = .ok k → Object t p (.bool b) (boolObject k b)

variable {t : ClassTable} {p : Pool} {ls : List Line}

end ClassBackend.Mips.Data
