import ClassBackend.Proofs.Layout.Fields
import ClassBackend.Proofs.Meaning.Selection

/-! The steps of an initializer, and what they come to when the call of the parent's initializer
gives way to the steps of that one. The defaults of a class stand before the call and its
initializer expressions after it, so that all defaults come first, the class's own in front, and
then the expressions from the root down. -/
namespace ClassBackend

open Meaning Hierarchy

/-- What a field holds until its initializer expression is evaluated. -/
inductive Default where
  | native (kind : NativeKind)
  | object (l : Literal)
  | void
  deriving DecidableEq, Repr

def Default.ofType (ty : String) : Default :=
  match NativeKind.ofType? ty with
  | some kind => .native kind
  | none =>
    if ty = Builtin.intName then .object (.int 0)
    else if ty = Builtin.boolName then .object (.bool false)
    else if ty = Builtin.stringName then .object (.str "")
    else .void

namespace Initializer

inductive Step where
  | enter
  | default (slot : Nat) (value : Default)
  | parent (cls : String)
  | init (slot : Nat) (value : Expr)
  | leave

def Step.stores : Step → Bool
  | .default .. | .init .. => true
  | _ => false

/-- The defaults of fields, the first of which stands in that slot. -/
def defaultsFrom (slot : Nat) (fs : List Field) : List Step :=
  (fs.zipIdx slot).map fun (f, i) => .default i (.ofType f.ty)

/-- The initializer expressions, each for the slot of its attribute. -/
def initsFrom (slot : Nat) (as : List Attribute) : List Step :=
  (as.zipIdx slot).filterMap fun (a, i) => a.init.map (.init i)

def defaults (k : ClassLayout) : List Step := defaultsFrom k.ownStart k.ownFields
def inits (k : ClassLayout) : List Step := initsFrom k.ownStart k.decl.attributes

def calls (k : ClassLayout) : List Step := k.parent.toList.map .parent

def plan (k : ClassLayout) : List Step :=
  .enter :: (defaults k ++ (calls k ++ (inits k ++ [.leave])))

abbrev Piece (ι : Type) := Step × List ι

variable {ι : Type}

/-- The code of the initializer of each class, by name. -/
abbrev Listing (ι : Type) := String → List (Piece ι)

/-- The second code is the first one with every call of an initializer replaced by the code of that
initializer, in which calls are replaced as well. -/
inductive Inlined (code : Listing ι) : List (Piece ι) → List (Piece ι) → Prop
  | nil : Inlined code [] []
  | keep {s is ps qs} : (∀ c, s ≠ .parent c) → Inlined code ps qs →
    Inlined code ((s, is) :: ps) ((s, is) :: qs)
  | call {c is ps qs rs} : Inlined code (code c) qs → Inlined code ps rs →
    Inlined code ((.parent c, is) :: ps) (qs ++ rs)

/-- The stores to fields of the object, in order. -/
def stores (ps : List (Piece ι)) : List Step := (ps.map Prod.fst).filter Step.stores

section Steps

variable {s : Step} {slot : Nat} {fs : List Field} {as : List Attribute} {k : ClassLayout}

theorem mem_defaultsFrom (h : s ∈ defaultsFrom slot fs) : s.stores = true ∧ ∀ c, s ≠ .parent c := by
  obtain ⟨_, _, rfl⟩ := List.mem_map.mp h
  exact ⟨rfl, nofun⟩

theorem mem_initsFrom (h : s ∈ initsFrom slot as) : s.stores = true ∧ ∀ c, s ≠ .parent c := by
  obtain ⟨⟨a, i⟩, _, made⟩ := List.mem_filterMap.mp h
  obtain ⟨e, _, rfl⟩ := Option.map_eq_some_iff.mp made
  exact ⟨rfl, nofun⟩

theorem defaultsFrom_cons (f : Field) : defaultsFrom slot (f :: fs) =
    .default slot (.ofType f.ty) :: defaultsFrom (slot + 1) fs := by
  simp [defaultsFrom, List.zipIdx_cons]

theorem initsFrom_cons (a : Attribute) : initsFrom slot (a :: as) =
    (a.init.map (Step.init slot)).toList ++ initsFrom (slot + 1) as := by
  cases init : a.init <;> simp [initsFrom, List.zipIdx_cons, init]

theorem filter_defaults (k : ClassLayout) : (defaults k).filter Step.stores = defaults k :=
  List.filter_eq_self.mpr fun _ hs => (mem_defaultsFrom hs).1

theorem filter_inits (k : ClassLayout) : (inits k).filter Step.stores = inits k :=
  List.filter_eq_self.mpr fun _ hs => (mem_initsFrom hs).1

end Steps

section Inlining

variable {code : Listing ι} {ps ps' qs qs' : List (Piece ι)}

theorem Inlined.refl (h : ∀ x ∈ ps, ∀ c, x.1 ≠ .parent c) : Inlined code ps ps := by
  induction ps with
  | nil => exact .nil
  | cons x ps ih => exact .keep (h x (by simp)) (ih fun y hy => h y (List.mem_cons_of_mem _ hy))

theorem Inlined.append (h : Inlined code ps qs) (h' : Inlined code ps' qs') :
    Inlined code (ps ++ ps') (qs ++ qs') := by
  induction h with
  | nil => exact h'
  | keep plain _ ih => exact .keep plain ih
  | call called _ _ ih =>
    rw [List.append_assoc]
    exact .call called ih

/-- There is one way to replace all calls. -/
theorem Inlined.unique (h : Inlined code ps qs) (h' : Inlined code ps qs') : qs = qs' := by
  induction h generalizing qs' with
  | nil =>
    cases h'
    rfl
  | keep plain _ ih =>
    cases h' with
    | keep _ rest => rw [ih rest]
    | call => exact absurd rfl (plain _)
  | call _ _ ihCalled ih =>
    cases h' with
    | keep plain _ => exact absurd rfl (plain _)
    | call called rest => rw [ihCalled called, ih rest]

theorem stores_append (ps qs : List (Piece ι)) : stores (ps ++ qs) = stores ps ++ stores qs := by
  simp [stores]

end Inlining

variable {p : Program} {t : ClassTable} {k q : ClassLayout}

section Chain

theorem lineage_succ (h : ClassTable.build p = .ok t) (hk : k ∈ t.classes) {n : Nat}
    (enough : k.tag ≤ n) : lineage t (n + 1) k = lineage t n k := by
  induction n generalizing k with
  | zero =>
    cases parent : k.parent with
    | none => simp [lineage, parent]
    | some q =>
      obtain ⟨q, hq, rfl⟩ := ClassTable.exists_parent h hk parent
      have := (ClassTable.parent_range h hk hq parent).1
      omega
  | succ n ih =>
    unfold lineage
    cases parent : k.parent with
    | none => rfl
    | some q =>
      obtain ⟨q, hq, rfl⟩ := ClassTable.exists_parent h hk parent
      have := (ClassTable.parent_range h hk hq parent).1
      simp only [Option.map_some, ClassTable.find_name h hq]
      rw [ih hq (by omega)]

theorem ancestors_root (root : k.parent = none) : ancestors t k = [k] := by
  unfold ancestors
  cases t.classes.length <;> simp [lineage, root]

theorem ancestors_parent (h : ClassTable.build p = .ok t) (hk : k ∈ t.classes)
    (hq : q ∈ t.classes) (parent : k.parent = some q.name) :
    ancestors t k = k :: ancestors t q := by
  have below := (ClassTable.parent_range h hk hq parent).1
  have inside := (List.getElem?_eq_some_iff.mp (ClassTable.getElem?_tag h hk)).1
  obtain ⟨n, length⟩ : ∃ n, t.classes.length = n + 1 := ⟨t.classes.length - 1, by omega⟩
  rw [ancestors, ancestors, length, lineage_succ h hq (by omega), lineage]
  simp only [parent, Option.map_some, ClassTable.find_name h hq]

end Chain

section Order

variable {code : Listing ι}

theorem split_plan {ps : List (Piece ι)} {c : String} (parent : k.parent = some c)
    (planned : ps.map Prod.fst = plan k) : ∃ front is back, ps = front ++ (.parent c, is) :: back ∧
      front.map Prod.fst = .enter :: defaults k ∧ back.map Prod.fst = inits k ++ [.leave] := by
  have whole : plan k = (.enter :: defaults k) ++ (.parent c :: (inits k ++ [.leave])) := by
    simp [plan, calls, parent]
  rw [whole, List.map_eq_append_iff] at planned
  obtain ⟨front, rest, rfl, hfront, hrest⟩ := planned
  obtain ⟨⟨s, is⟩, back, rfl, rfl, hback⟩ := List.map_eq_cons_iff.mp hrest
  exact ⟨front, is, back, rfl, hfront, hback⟩

theorem silent_front {ps : List (Piece ι)} (h : ps.map Prod.fst = .enter :: defaults k) :
    (∀ x ∈ ps, ∀ c, x.1 ≠ .parent c) ∧ stores ps = defaults k := by
  constructor
  · intro x hx
    have mem : x.1 ∈ Step.enter :: defaults k := h ▸ List.mem_map_of_mem hx
    rcases List.mem_cons.mp mem with same | mem
    · rw [same]
      exact nofun
    · exact (mem_defaultsFrom mem).2
  · rw [stores, h, List.filter_cons_of_neg (by simp [Step.stores]), filter_defaults]

theorem silent_back {ps : List (Piece ι)} (h : ps.map Prod.fst = inits k ++ [.leave]) :
    (∀ x ∈ ps, ∀ c, x.1 ≠ .parent c) ∧ stores ps = inits k := by
  constructor
  · intro x hx
    have mem : x.1 ∈ inits k ++ [.leave] := h ▸ List.mem_map_of_mem hx
    rcases List.mem_append.mp mem with mem | mem
    · exact (mem_initsFrom mem).2
    · rw [List.mem_singleton.mp mem]
      exact nofun
  · simp [stores, h, List.filter_append, filter_inits, Step.stores]

/-- With the calls replaced, an initializer stores the defaults of all classes, its own first, and
then the initializer expressions from the root down. -/
theorem inlined_order (h : ClassTable.build p = .ok t)
    (planned : ∀ k ∈ t.classes, (code k.name).map Prod.fst = plan k) (hk : k ∈ t.classes) :
    ∃ ps, Inlined code (code k.name) ps ∧
      stores ps = (ancestors t k).flatMap defaults ++ (ancestors t k).reverse.flatMap inits := by
  refine ClassTable.class_induct h (P := fun k => ∃ ps, Inlined code (code k.name) ps ∧
    stores ps = (ancestors t k).flatMap defaults ++ (ancestors t k).reverse.flatMap inits) ?_ ?_ hk
  · intro k hk root
    have whole : plan k = (.enter :: defaults k) ++ (inits k ++ [.leave]) := by
      simp [plan, calls, root]
    have steps := planned k hk
    rw [whole, List.map_eq_append_iff] at steps
    obtain ⟨front, back, same, hfront, hback⟩ := steps
    obtain ⟨quiet, first⟩ := silent_front hfront
    obtain ⟨quiet', second⟩ := silent_back hback
    refine ⟨front ++ back, ?_, ?_⟩
    · rw [same]
      exact (Inlined.refl quiet).append (.refl quiet')
    · rw [stores_append, first, second, ancestors_root root]
      simp
  · intro k hk q hq parent ⟨ps, inlined, order⟩
    obtain ⟨front, is, back, same, hfront, hback⟩ := split_plan parent (planned k hk)
    obtain ⟨quiet, first⟩ := silent_front hfront
    obtain ⟨quiet', second⟩ := silent_back hback
    refine ⟨front ++ (ps ++ back), ?_, ?_⟩
    · rw [same]
      exact (Inlined.refl quiet).append (.call inlined (.refl quiet'))
    · rw [stores_append, stores_append, first, second, order, ancestors_parent h hk hq parent]
      simp

end Order

section Slots

/-- Every slot of an object gets one default, and that of its own type. -/
theorem defaults_perm (h : ClassTable.build p = .ok t) (hk : k ∈ t.classes) :
    ((ancestors t k).flatMap defaults).Perm (defaultsFrom 0 k.fields) := by
  have split (k : ClassLayout) :
      defaultsFrom 0 k.fields = defaultsFrom 0 k.inherited ++ defaults k := by
    simp [defaultsFrom, defaults, ClassLayout.fields, ClassLayout.ownStart, List.zipIdx_append]
  refine ClassTable.class_induct h
    (P := fun k => ((ancestors t k).flatMap defaults).Perm (defaultsFrom 0 k.fields)) ?_ ?_ hk
  · intro k hk root
    rw [ancestors_root root, split, (ClassTable.root_inherits h hk root).1]
    simp [defaultsFrom]
  · intro k hk q hq parent below
    rw [ancestors_parent h hk hq parent, split, (ClassTable.parent_inherits h hk hq parent).1,
      List.flatMap_cons]
    exact List.perm_append_comm.trans (below.append_right _)

theorem init_slot (h : ClassTable.build p = .ok t) (hk : k ∈ t.classes) {a : ClassLayout}
    (ha : a ∈ ancestors t k) {i : Nat} {x : Attribute} (there : a.decl.attributes[i]? = some x) :
    k.fields[a.ownStart + i]? = some ⟨x.name, x.ty, a.name⟩ := by
  obtain ⟨mem, up⟩ := (mem_ancestors h hk).mp ha
  exact ClassTable.heir_attribute h mem hk up there

end Slots

end Initializer

end ClassBackend
