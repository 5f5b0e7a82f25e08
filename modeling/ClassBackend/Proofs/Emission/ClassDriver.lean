import ClassBackend.Proofs.Initializer.Plan
import ClassBackend.Proofs.Scope.ResolvedUnit

/-! The class driver, which goes by tags alone. Behind a class it goes on with the next tag as long
as the last tag of the class is not passed, and from there to the tag behind the last one of the
class it was at. Over a built class table it comes to every class once, in the order of the tags,
and finds the scopes of the class and of its ancestors open. -/
namespace ClassBackend

open Lowering Meaning

/-- The driver has come to a class, in that session. -/
structure Visit (B : Backend) where
  cls : ClassLayout
  session : Session B

/-- Lowering that need not end and keeps a log of its visits. A fault does not lose the log. -/
abbrev Driver (B : Backend) (α : Type) :=
  StateT (Session B) (ExceptT Fault (StateT (List (Visit B)) Option)) α

namespace Driver

variable {B : Backend} {α β : Type}

def lift (m : Lowering B α) : Driver B α := fun s => ExceptT.mk fun log => some (m s, log)

def arrive (k : ClassLayout) : Driver B Unit := fun s =>
  ExceptT.mk fun log => some (.ok ((), s), log ++ [⟨k, s⟩])

def never : Driver B α := fun _ => ExceptT.mk fun _ => none

def outcome (d : Driver B α) (s : Session B) (log : List (Visit B)) :
    Option (Except Fault (α × Session B) × List (Visit B)) :=
  (d s).run log

mutual

/-- The class with that tag, and what is numbered behind it up to its last tag. Nothing in a table
keeps the calls from nesting without end, so they nest up to the given depth. -/
def emitFrom (depth : Nat) (t : ClassTable) (tag : Nat) : Driver B Unit :=
  match depth with
  | 0 => never
  | depth + 1 => do
    let k ← lift (Lowering.ofExcept (t.atTag tag))
    lift pushScope
    lift (bindFields B k.ownStart k.ownFields)
    arrive k
    lift (emitClass B ⟨t, k⟩)
    emitUpTo depth t k.lastTag (tag + 1)
    lift popScope

/-- The classes from the tag `child` on, each with its heirs, until the tag `last` is passed. -/
def emitUpTo (depth : Nat) (t : ClassTable) (last child : Nat) : Driver B Unit :=
  match depth with
  | 0 => never
  | depth + 1 =>
    if child ≤ last then do
      emitFrom depth t child
      let k ← lift (Lowering.ofExcept (t.atTag child))
      emitUpTo depth t last (k.lastTag + 1)
    else pure ()

end

section Outcomes

variable {d : Driver B α} {f : α → Driver B β} {s s' : Session B} {log log' : List (Visit B)}

theorem outcome_bind {a : α} (h : d.outcome s log = some (.ok (a, s'), log')) :
    (d >>= f).outcome s log = (f a).outcome s' log' := by
  change (d.outcome s log >>= fun r => ExceptT.bindCont (fun x => f x.1 x.2) r.1 r.2) = _
  rw [h]
  rfl

theorem outcome_bind_error {e : Fault} (h : d.outcome s log = some (.error e, log')) :
    (d >>= f).outcome s log = some (.error e, log') := by
  change (d.outcome s log >>= fun r => ExceptT.bindCont (fun x => f x.1 x.2) r.1 r.2) = _
  rw [h]
  rfl

theorem outcome_lift (m : Lowering B α) : (lift m).outcome s log = some (m s, log) := rfl

theorem known_bind {t : ClassTable} {tag : Nat} {k : ClassLayout} (h : t.classes[tag]? = some k)
    (f : ClassLayout → Driver B β) : (lift (Lowering.ofExcept (t.atTag tag)) >>= f) = f k := by
  have found : t.atTag tag = .ok k := by simp only [ClassTable.atTag, h]
  funext s
  rw [found]
  rfl

end Outcomes

section Visits

open Resolved

/-- The scope of the class: its own fields with their slots. -/
def classScope (k : ClassLayout) : List (String × Binding B.Local) :=
  Emission.fieldScope k.ownStart k.ownFields

/-- The scopes of these classes, the first one innermost, and no other. -/
def openScopes (B : Backend) (ks : List ClassLayout) : Resolved.Scopes B where
  names := ks.flatMap classScope
  marks := ks.flatMap fun k => (classScope (B := B) k).map (some ·.1) ++ [none]

/-- The visit finds the scopes of the class and its ancestors, and nothing emitted since `s`. -/
structure At (t : ClassTable) (s : Session B) (k : ClassLayout) (v : Visit B) : Prop where
  cls : v.cls = k
  pool : v.session.pool = s.pool
  target : v.session.target = s.target
  scopes : (openScopes B (ancestors t k)).In v.session

/-- `Processed t s ks vs r`: from the session `s` on, the code of these classes is emitted at the
visits `vs`, one after the other. Nothing else is emitted, and nothing else faults. -/
inductive Processed (t : ClassTable) : Session B → List ClassLayout → List (Visit B) →
    Except Fault (Unit × Session B) → Prop
  | done {s s'} : s'.pool = s.pool → s'.target = s.target → Processed t s [] [] (.ok ((), s'))
  | fails {s k ks v f} : At t s k v → emitClass B ⟨t, k⟩ v.session = .error f →
    Processed t s (k :: ks) [v] (.error f)
  | next {s k ks v vs s' r} : At t s k v → emitClass B ⟨t, k⟩ v.session = .ok ((), s') →
    Processed t s' ks vs r → Processed t s (k :: ks) (v :: vs) r

variable {t : ClassTable} {s s' : Session B} {ks js : List ClassLayout} {vs ws : List (Visit B)}
variable {r : Except Fault (Unit × Session B)} {f : Fault}

theorem Processed.from_same (h : Processed t s ks vs r) (pool : s.pool = s'.pool)
    (target : s.target = s'.target) : Processed t s' ks vs r := by
  cases h with
  | done pool' target' => exact .done (pool'.trans pool) (target'.trans target)
  | fails at_ failed =>
    exact .fails ⟨at_.cls, at_.pool.trans pool, at_.target.trans target, at_.scopes⟩ failed
  | next at_ emitted rest =>
    exact .next ⟨at_.cls, at_.pool.trans pool, at_.target.trans target, at_.scopes⟩ emitted rest

theorem Processed.append (h : Processed t s ks vs (.ok ((), s'))) (h' : Processed t s' js ws r) :
    Processed t s (ks ++ js) (vs ++ ws) r := by
  generalize ended : Except.ok ((), s') = r' at h
  induction h with
  | done pool target =>
    cases ended
    exact h'.from_same pool target
  | fails => cases ended
  | next at_ emitted _ ih => exact .next at_ emitted (ih ended)

theorem Processed.append_fault (h : Processed t s ks vs (.error f)) :
    Processed t s (ks ++ js) vs (.error f) := by
  generalize ended : Except.error f = r' at h
  induction h with
  | done => cases ended
  | fails at_ failed => exact .fails at_ failed
  | next at_ emitted _ ih => exact .next at_ emitted (ih ended)

theorem Processed.all (h : Processed t s ks vs (.ok ((), s'))) : vs.map (·.cls) = ks := by
  generalize ended : Except.ok ((), s') = r at h
  induction h with
  | done => rfl
  | fails => cases ended
  | next at_ _ _ ih => rw [List.map_cons, at_.cls, ih ended]

theorem Processed.order (h : Processed t s ks vs r) : vs.map (·.cls) <+: ks := by
  induction h with
  | done => exact List.nil_prefix
  | fails at_ _ => simp [at_.cls]
  | next at_ _ _ ih =>
    rw [List.map_cons, at_.cls]
    exact (List.prefix_cons_inj _).mpr ih

end Visits

section Traversal

open Resolved

variable {t : ClassTable} {ks js : List ClassLayout} {σ σ' σ'' : Resolved.Scopes B} {n n' : Nat}
variable {d d' : Nat → Driver B Unit} {m m' : Lowering B Unit}

/-- Where the table shows `σ`, a driver whose calls may nest `n` deep or deeper ends as the emission
does, having processed these classes, and leaves `σ'`. Its visits do not depend on the depth. -/
def Traverses (t : ClassTable) (ks : List ClassLayout) (σ σ' : Resolved.Scopes B) (n : Nat)
    (d : Nat → Driver B Unit) (m : Lowering B Unit) : Prop :=
  ∀ s, σ.In s → ∃ vs,
    (∀ depth, n ≤ depth → ∀ log, (d depth).outcome s log = some (m s, log ++ vs)) ∧
    Processed t s ks vs (m s) ∧ ∀ s', m s = .ok ((), s') → σ'.In s'

theorem Traverses.nothing : Traverses t [] σ σ n (fun _ => pure ()) (pure ()) := by
  intro s there
  refine ⟨[], fun _ _ log => by rw [List.append_nil]; rfl, .done rfl rfl, fun s' ended => ?_⟩
  cases ended
  exact there

theorem Traverses.seq (h : Traverses t ks σ σ' n d m) (h' : Traverses t js σ' σ'' n d' m') :
    Traverses t (ks ++ js) σ σ'' n (fun depth => d depth >>= fun _ => d' depth)
      (m >>= fun _ => m') := by
  intro s there
  obtain ⟨vs, run, processed, leaves⟩ := h s there
  have whole : (m >>= fun _ => m') s = (m s >>= fun x => m' x.2) := rfl
  rw [whole]
  cases ended : m s with
  | error f =>
    rw [ended] at run processed
    exact ⟨vs, fun depth enough log => outcome_bind_error (run depth enough log),
      processed.append_fault, nofun⟩
  | ok x =>
    rw [ended] at run processed
    obtain ⟨ws, run', processed', leaves'⟩ := h' x.2 (leaves x.2 ended)
    refine ⟨vs ++ ws, fun depth enough log => ?_, processed.append processed', leaves'⟩
    rw [outcome_bind (run depth enough log), run' depth enough, List.append_assoc]
    rfl

theorem Traverses.weaken (h : Traverses t ks σ σ' n d m) (deep : n ≤ n') :
    Traverses t ks σ σ' n' d m := by
  intro s there
  obtain ⟨vs, run, rest⟩ := h s there
  exact ⟨vs, fun depth enough => run depth (Nat.le_trans deep enough), rest⟩

theorem Traverses.call (h : Traverses t ks σ σ' n d m)
    (called : ∀ depth, d' (depth + 1) = d depth) : Traverses t ks σ σ' (n + 1) d' m := by
  intro s there
  obtain ⟨vs, run, rest⟩ := h s there
  refine ⟨vs, fun depth enough => ?_, rest⟩
  obtain ⟨depth, rfl⟩ : ∃ below, depth = below + 1 := ⟨depth - 1, by omega⟩
  rw [called]
  exact run depth (by omega)

theorem Traverses.quiet (h : Agrees σ σ' (m >>= fun _ => pure ()) (pure ())) :
    Traverses t [] σ σ' n (fun _ => lift m) m := by
  intro s there
  have same : (m >>= fun _ => pure ()) = m := bind_pure_unit
  rw [same] at h
  have both := h s s there rfl rfl
  refine ⟨[], fun _ _ log => by rw [outcome_lift, List.append_nil], ?_⟩
  generalize m s = r at both
  cases both with
  | ok shows pool target =>
    refine ⟨.done pool.symm target.symm, fun s' ended => ?_⟩
    cases ended
    exact shows

theorem Traverses.visit (k : ClassLayout)
    (shows : ShowsFields k (openScopes B (ancestors t k)).names) :
    Traverses t [k] (openScopes B (ancestors t k)) (openScopes B (ancestors t k)) n
      (fun _ => arrive k >>= fun _ => lift (emitClass B ⟨t, k⟩)) (emitClass B ⟨t, k⟩) := by
  intro s there
  have at_ : At t s k ⟨k, s⟩ := ⟨rfl, rfl, rfl, there⟩
  refine ⟨[⟨k, s⟩], fun _ _ _ => rfl, ?_, fun s' emitted => ?_⟩
  · cases emitted : emitClass B ⟨t, k⟩ s with
    | error f => exact .fails at_ emitted
    | ok x => exact .next at_ emitted (.done rfl rfl)
  · have agrees : Agrees (openScopes B (ancestors t k)) (openScopes B (ancestors t k))
        (emitClass B ⟨t, k⟩) (classCode B ⟨t, k⟩) := classCode_agrees shows
    exact agrees.shows there emitted

end Traversal

section Classes

open Resolved Initializer

variable {p : Program} {t : ClassTable} {k : ClassLayout} {ks : List ClassLayout}

theorem openScopes_names (h : ClassTable.build p = .ok t) (hk : k ∈ t.classes) :
    (openScopes B (ancestors t k)).names = Emission.fieldScope 0 k.fields := by
  have split (k : ClassLayout) : Emission.fieldScope (B := B) 0 k.fields =
      classScope k ++ Emission.fieldScope 0 k.inherited := by
    rw [ClassLayout.fields, Emission.fieldScope_append, Nat.zero_add]
    rfl
  refine ClassTable.class_induct h
    (P := fun k => (ancestors t k).flatMap classScope = Emission.fieldScope (B := B) 0 k.fields)
    ?_ ?_ hk
  · intro k hk root
    rw [ancestors_root root, split, (ClassTable.root_inherits h hk root).1]
    simp [Emission.fieldScope]
  · intro k hk q hq parent above
    rw [ancestors_parent h hk hq parent, split, (ClassTable.parent_inherits h hk hq parent).1,
      List.flatMap_cons, above]

theorem enter_traverses (k : ClassLayout) (ks : List ClassLayout) {n : Nat} :
    Traverses t [] (openScopes B ks) (openScopes B (k :: ks)) n
      (fun _ => lift pushScope >>= fun _ => lift (bindFields B k.ownStart k.ownFields))
      (pushScope >>= fun _ => bindFields B k.ownStart k.ownFields) := by
  have opened : Traverses (B := B) t [] (openScopes B ks)
      ⟨(openScopes B ks).names, none :: (openScopes B ks).marks⟩ n (fun _ => lift pushScope)
      pushScope := .quiet (.push .ret)
  refine opened.seq (.quiet (bindFields_agree _ _ (by simp) ?_))
  simpa [openScopes, classScope] using Agrees.ret

theorem leave_traverses (k : ClassLayout) (ks : List ClassLayout) {n : Nat} :
    Traverses t [] (openScopes B (k :: ks)) (openScopes B ks) n (fun _ => lift popScope)
      popScope := by
  refine .quiet ?_
  have closed : Agrees ⟨classScope k ++ (openScopes B ks).names,
      (classScope (B := B) k).map (some ·.1) ++ none :: (openScopes B ks).marks⟩ (openScopes B ks)
      (popScope >>= fun _ => pure ()) (pure ()) := .pop .ret
  simpa [openScopes] using closed

mutual

/-- From the tag that a tree of classes is numbered from, the driver does what emission of the tree
does. The parent links are followed here only, to tell what is open. -/
theorem emitFrom_traverses (h : ClassTable.build p = .ok t) (tr : Tree ClassDecl)
    {fields : List Field} {methods : List Method} {tag : Nat}
    (sub : Tree.Sub (Layout.tree fields methods tag tr) t.tree) {ks : List ClassLayout}
    (above : ancestors t (Layout.tree fields methods tag tr).value =
      (Layout.tree fields methods tag tr).value :: ks) :
    Traverses t (Layout.tree fields methods tag tr).preorder (openScopes B ks) (openScopes B ks)
      (2 * tr.size) (fun depth => emitFrom depth t tag)
      (emitTree B t (Layout.tree fields methods tag tr)) := by
  match tr with
  | .node c ts =>
    simp only [Layout.tree, Tree.value] at sub above ⊢
    generalize named : (⟨c, tag, tag + Tree.sizes ts, fields, Layout.ownFields c,
      Layout.extendMethods methods c⟩ : ClassLayout) = k at sub above ⊢
    have here : k ∈ t.classes := by
      rw [t.classes_eq]
      exact (Tree.mem_preorder_iff _ _).mpr ⟨_, sub, rfl⟩
    have own : k.tag = tag := by rw [← named]
    have last : tag + 1 + Tree.sizes ts = k.lastTag + 1 := by
      rw [← named]
      exact Nat.add_right_comm ..
    have heirs := emitUpTo_traverses h ts here
      (fun s hs => ⟨.trans (.child hs (.refl _)) sub, ClassTable.child_parent h sub hs⟩) last
    have visited := Traverses.visit (t := t) (n := 2 * Tree.sizes ts + 1) k
      (openScopes_names (B := B) h here ▸ showsFields k)
    rw [above] at heirs visited
    have whole := (enter_traverses k ks).seq (visited.seq (heirs.seq (leave_traverses k ks)))
    simp only [bind_assoc, List.nil_append, List.append_nil, List.singleton_append] at whole
    rw [emitTree, Tree.preorder]
    refine whole.call fun depth => ?_
    rw [emitFrom, known_bind (own ▸ ClassTable.getElem?_tag h here)]

/-- A row of trees right below a class, of which `last` is the last tag. Past the last tag of one
tree begins the next, and when the row is at its end so is the range. -/
theorem emitUpTo_traverses (h : ClassTable.build p = .ok t) (ts : List (Tree ClassDecl))
    {fields : List Field} {methods : List Method} {child last : Nat} {k : ClassLayout}
    (hk : k ∈ t.classes)
    (below : ∀ s ∈ Layout.trees fields methods child ts, Tree.Sub s t.tree ∧
      s.value.parent = some k.name) (count : child + Tree.sizes ts = last + 1) :
    Traverses t (Tree.preorders (Layout.trees fields methods child ts))
      (openScopes B (ancestors t k)) (openScopes B (ancestors t k)) (2 * Tree.sizes ts + 1)
      (fun depth => emitUpTo depth t last child)
      (emitTrees B t (Layout.trees fields methods child ts)) := by
  match ts with
  | [] =>
    have passed : ¬ child ≤ last := by simp only [Tree.sizes] at count; omega
    exact Traverses.nothing.call fun depth => by rw [emitUpTo, if_neg passed]
  | tr :: ts =>
    rw [Tree.sizes] at count
    have size := Tree.size_pos tr
    have more : child ≤ last := by omega
    obtain ⟨sub, parent⟩ := below _ (List.mem_cons_self ..)
    have inside : (Layout.tree fields methods child tr).value ∈ t.classes := by
      rw [t.classes_eq]
      exact (Tree.mem_preorder_iff _ _).mpr ⟨_, sub, rfl⟩
    have first := emitFrom_traverses h tr sub (ancestors_parent h inside hk parent)
    have behind : (Layout.tree fields methods child tr).value.lastTag + 1 = child + tr.size :=
      Layout.tree_value_lastTag tr
    have remaining : child + tr.size + Tree.sizes ts = last + 1 := by omega
    have rest := emitUpTo_traverses h ts hk (fun s hs => below s (List.mem_cons_of_mem _ hs))
      remaining
    have at_ := ClassTable.getElem?_tag h inside
    rw [Layout.tree_value_tag] at at_
    have deep : 2 * tr.size ≤ 2 * (tr.size + Tree.sizes ts) ∧
        2 * Tree.sizes ts + 1 ≤ 2 * (tr.size + Tree.sizes ts) := by omega
    refine ((first.weaken deep.1).seq (rest.weaken deep.2)).call fun depth => ?_
    rw [emitUpTo, if_pos more, known_bind at_, behind]

end

/-- The driver over a class table, from the root and with nothing emitted: its visits and how it
ends. -/
structure Drives (t : ClassTable) (vs : List (Visit B)) (r : Except Fault (Unit × Session B)) :
    Prop where
  /-- It ends, and no call is nested deeper than twice the number of classes. -/
  ends : ∀ depth, 2 * t.classes.length ≤ depth →
    (emitFrom depth t 0).outcome { target := B.start } [] = some (r, vs)
  unit : Lowering.emitUnit B t = r.map Prod.snd
  processed : Processed t { target := B.start } t.classes vs r
  order : vs.map (·.cls.tag) <+: List.range t.classes.length
  all : ∀ s, r = .ok ((), s) → vs.map (·.cls.tag) = List.range t.classes.length

theorem root_traverses (h : ClassTable.build p = .ok t) :
    Traverses t t.classes (openScopes B []) (openScopes B []) (2 * t.classes.length)
      (fun depth => emitFrom depth t 0) (emitTree B t t.tree) := by
  obtain ⟨root, accepted, ht, size⟩ := ClassTable.build_ok h
  have first : t.tree.value ∈ t.classes := t.classes_eq ▸ Tree.value_mem_preorder t.tree
  have top : t.tree.value.parent = none := by
    rw [ht, ClassLayout.parent, Layout.tree_value_decl, Hierarchy.descend_value]
    exact accepted.root_mem.2
  have above : ancestors t t.tree.value = [t.tree.value] := ancestors_root top
  have length : t.classes.length = p.classes.length := by
    rw [← (ClassTable.decl_perm h).length_eq, List.length_map]
  rw [length, ← size, t.classes_eq]
  rw [ht] at above ⊢
  exact emitFrom_traverses h _ (ht ▸ .refl _) above

theorem exists_drives (B : Backend) (h : ClassTable.build p = .ok t) :
    ∃ (vs : List (Visit B)) (r : _), Drives t vs r := by
  have nothing : (openScopes B []).In ({ target := B.start } : Session B) := by
    refine ⟨List.nodup_nil, by simp [openScopes], .nil, fun s => ?_⟩
    simp [openScopes, SymbolTable.bindingsOf, Interner.resolve?]
  obtain ⟨vs, run, processed, leaves⟩ := root_traverses h _ nothing
  have tags : t.classes.map (·.tag) = List.range t.classes.length := by
    rw [ClassTable.tags_eq h, ← (ClassTable.decl_perm h).length_eq, List.length_map]
  have visits : vs.map (·.cls.tag) = (vs.map (·.cls)).map (·.tag) := by rw [List.map_map]; rfl
  refine ⟨vs, _, fun depth enough => run depth enough [], ?_, processed, ?_, fun s ended => ?_⟩
  · rw [Lowering.emitUnit]
    cases ended : emitTree B t t.tree { target := B.start } with
    | error f => rfl
    | ok x =>
      have closed : x.2.scopes.depth = 0 := (leaves x.2 ended).depth
      simp only [Bind.bind, Except.bind, if_pos closed]
      rfl
  · rw [visits, ← tags]
    exact processed.order.map _
  · rw [ended] at processed
    rw [visits, processed.all, tags]

end Classes

end Driver

end ClassBackend
