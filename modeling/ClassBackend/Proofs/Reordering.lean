import ClassBackend.Compile
import ClassBackend.Proofs.Layout.Builtins

/-! The order of the declarations matters among siblings only. A class may stand anywhere among
classes with other parents, before its own parent too: the tree that the hierarchy builds is the
same one, and all else is read off that tree. -/
namespace ClassBackend

namespace Hierarchy

variable {decls decls' decls'' : List ClassDecl} {root : ClassDecl}

/-- The same classes, where those with the same parent stand in the same order. -/
structure Reordered (decls decls' : List ClassDecl) : Prop where
  classes : decls.Perm decls'
  siblings : ∀ parent, childrenOf decls parent = childrenOf decls' parent

theorem Reordered.symm (h : Reordered decls decls') : Reordered decls' decls :=
  ⟨h.classes.symm, fun parent => (h.siblings parent).symm⟩

theorem Reordered.trans (h : Reordered decls decls') (h' : Reordered decls' decls'') :
    Reordered decls decls'' :=
  ⟨h.classes.trans h'.classes, fun parent => (h.siblings parent).trans (h'.siblings parent)⟩

theorem Reordered.swap {c d : ClassDecl} (front rest : List ClassDecl)
    (other : c.parent ≠ d.parent) :
    Reordered (front ++ c :: d :: rest) (front ++ d :: c :: rest) where
  classes := (List.Perm.swap d c rest).append_left front
  siblings parent := by
    have notBoth : ¬ (c.parent = some parent ∧ d.parent = some parent) := by
      rintro ⟨hc, hd⟩
      exact other (hc.trans hd.symm)
    simp only [childrenOf, List.filter_append, List.filter_cons, beq_iff_eq]
    split <;> split <;> simp_all

theorem Reordered.length (h : Reordered decls decls') : decls.length = decls'.length :=
  h.classes.length_eq

theorem Reordered.mem (h : Reordered decls decls') {c : ClassDecl} : c ∈ decls ↔ c ∈ decls' :=
  h.classes.mem_iff

/-- Among distinct names it makes no difference which class is found first. -/
theorem Reordered.parentOf (h : Reordered decls decls') (names : (decls.map (·.name)).Nodup)
    (name : String) : parentOf decls name = parentOf decls' name := by
  have names' : (decls'.map (·.name)).Nodup := (h.classes.map _).nodup_iff.mp names
  by_cases declared : ∃ c ∈ decls, c.name = name
  · obtain ⟨c, hc, rfl⟩ := declared
    rw [parentOf_name names hc, parentOf_name names' (h.mem.mp hc)]
  · have absent (ds : List ClassDecl) (same : ∀ c, c ∈ decls ↔ c ∈ ds) :
        Hierarchy.parentOf ds name = none := by
      have none_found : ds.find? (fun c => c.name == name) = none := by
        rw [List.find?_eq_none]
        intro c hc named
        exact declared ⟨c, (same c).mpr hc, eq_of_beq named⟩
      rw [Hierarchy.parentOf, none_found]
      rfl
    rw [absent decls fun _ => Iff.rfl, absent decls' fun _ => h.mem]

theorem climbs_congr (same : ∀ name, parentOf decls name = parentOf decls' name) (n : Nat)
    (name : String) : climbs decls n name = climbs decls' n name := by
  induction n generalizing name with
  | zero => rfl
  | succ n ih =>
    simp only [climbs, same]
    cases parentOf decls' name with
    | none => rfl
    | some p => exact ih p

theorem Reordered.accepted (h : Reordered decls decls') (ok : Accepted decls root) :
    Accepted decls' root where
  names := (h.classes.map _).nodup_iff.mp ok.names
  declared c hc p hp := by
    obtain ⟨d, hd, named⟩ := ok.declared c (h.mem.mpr hc) p hp
    exact ⟨d, h.mem.mp hd, named⟩
  climb c hc := by
    rw [← h.length, ← climbs_congr (h.parentOf ok.names)]
    exact ok.climb c (h.mem.mpr hc)
  root := by
    have perm : (roots decls).Perm (roots decls') := h.classes.filter _
    rw [ok.root] at perm
    exact (List.singleton_perm.mp perm).symm

theorem descend_congr (same : ∀ parent, childrenOf decls parent = childrenOf decls' parent)
    (n : Nat) (c : ClassDecl) : descend decls n c = descend decls' n c := by
  induction n generalizing c with
  | zero => rfl
  | succ n ih =>
    have heirs : descend decls n = descend decls' n := funext ih
    rw [descend, descend, same, heirs]

theorem Reordered.tree (h : Reordered decls decls') {t : Tree ClassDecl}
    (built : Hierarchy.tree decls = .ok t) : Hierarchy.tree decls' = .ok t := by
  obtain ⟨root, ok, rfl⟩ := accepted_of_tree built
  rw [tree_of_accepted (h.accepted ok), ← h.length, descend_congr h.siblings]

end Hierarchy

open Hierarchy

variable {p q : Program}

theorem Hierarchy.Reordered.build (h : Reordered p.classes q.classes) {t : ClassTable}
    (built : ClassTable.build p = .ok t) : ClassTable.build q = .ok t := by
  unfold ClassTable.build at built ⊢
  cases made : Hierarchy.tree p.classes with
  | error f =>
    rw [made] at built
    cases built
  | ok r =>
    rw [made] at built
    rw [h.tree made, ← h.length]
    exact built

theorem Hierarchy.Reordered.withBuiltins (h : Reordered p.classes q.classes) :
    Reordered p.withBuiltins.classes q.withBuiltins.classes := by
  have missing : Builtin.classes.filter (fun b => (p.find? b.name).isNone) =
      Builtin.classes.filter (fun b => (q.find? b.name).isNone) := by
    refine List.filter_congr fun b _ => ?_
    have same : (p.find? b.name).isSome = (q.find? b.name).isSome := by
      rw [Bool.eq_iff_iff]
      simp only [Program.find?, List.find?_isSome, h.mem]
    rw [← Option.not_isSome, ← Option.not_isSome, same]
  unfold Program.withBuiltins
  rw [missing]
  refine ⟨h.classes.append_left _, fun parent => ?_⟩
  have below := h.siblings parent
  unfold childrenOf at below ⊢
  rw [List.filter_append, List.filter_append, below]

theorem compile_congr {t : ClassTable} (hp : ClassTable.build p.withBuiltins = .ok t)
    (hq : ClassTable.build q.withBuiltins = .ok t) (kind : BackendKind) (gcTest : Bool)
    (sourceName : String) :
    compile p kind gcTest sourceName = compile q kind gcTest sourceName := by
  unfold compile
  rw [hp, hq]

theorem Hierarchy.Reordered.compile (h : Reordered p.classes q.classes) {kind : BackendKind}
    {gcTest : Bool} {sourceName text : String}
    (compiled : ClassBackend.compile p kind gcTest sourceName = .ok text) :
    ClassBackend.compile q kind gcTest sourceName = .ok text := by
  cases built : ClassTable.build p.withBuiltins with
  | error f =>
    rw [ClassBackend.compile, built] at compiled
    cases compiled
  | ok t => rwa [← compile_congr built (h.withBuiltins.build built)]

/-- Programs whose declarations differ in the order of classes with different parents have the same
class table and the same text. -/
theorem reordered_same (p q : Program) (h : Reordered p.classes q.classes) :
    (∀ t, ClassTable.build p = .ok t ↔ ClassTable.build q = .ok t) ∧
    (∀ kind gcTest sourceName text, compile p kind gcTest sourceName = .ok text ↔
      compile q kind gcTest sourceName = .ok text) ∧
    ∀ t, ClassTable.build p.withBuiltins = .ok t → ∀ kind gcTest sourceName,
      compile p kind gcTest sourceName = compile q kind gcTest sourceName :=
  ⟨fun _ => ⟨h.build, h.symm.build⟩, fun _ _ _ _ => ⟨h.compile, h.symm.compile⟩,
    fun _ built kind gcTest sourceName =>
      compile_congr built (h.withBuiltins.build built) kind gcTest sourceName⟩

def twoLines : Program := ⟨[
  ⟨"Base", some "Object", [.attribute "size" "Int" none], "base.cl"⟩,
  ⟨"Heir", some "Base", [.method "size" [] "Int" (some (.ident ⟨"Int", 2⟩ "size"))], "heir.cl"⟩,
  ⟨"Main", some "Object", [.method "main" [] "Heir" (some (.new ⟨"Heir", 3⟩ "Heir"))], "main.cl"⟩]⟩

def heirFirst : Program := ⟨[
  ⟨"Heir", some "Base", [.method "size" [] "Int" (some (.ident ⟨"Int", 2⟩ "size"))], "heir.cl"⟩,
  ⟨"Base", some "Object", [.attribute "size" "Int" none], "base.cl"⟩,
  ⟨"Main", some "Object", [.method "main" [] "Heir" (some (.new ⟨"Heir", 3⟩ "Heir"))], "main.cl"⟩]⟩

theorem heirFirst_same : Reordered twoLines.classes heirFirst.classes ∧
    (∃ t, ClassTable.build twoLines.withBuiltins = .ok t ∧
      ClassTable.build heirFirst.withBuiltins = .ok t) ∧
    ∀ kind, ∃ text, compile twoLines kind false "main.cl" = .ok text ∧
      compile heirFirst kind false "main.cl" = .ok text := by
  have swapped : Reordered twoLines.classes heirFirst.classes := Reordered.swap [] _ (by decide)
  obtain ⟨-, texts, -⟩ := reordered_same twoLines heirFirst swapped
  obtain ⟨tables, -, -⟩ :=
    reordered_same twoLines.withBuiltins heirFirst.withBuiltins swapped.withBuiltins
  have compiles : ∀ kind, (compile twoLines kind false "main.cl").toOption.isSome = true := by
    intro kind
    cases kind <;> decide +kernel
  refine ⟨swapped, ?_, fun kind => ?_⟩
  · cases built : ClassTable.build twoLines.withBuiltins with
    | error f =>
      have failed := compiles .mips
      rw [compile, built] at failed
      cases failed
    | ok t => exact ⟨t, rfl, (tables t).mp built⟩
  · cases made : compile twoLines kind false "main.cl" with
    | error f =>
      have failed := compiles kind
      rw [made] at failed
      cases failed
    | ok text => exact ⟨text, rfl, (texts kind false "main.cl" text).mp made⟩

end ClassBackend
