import ClassBackend.Lowering.Unit
import ClassBackend.Proofs.Emission.Expressions
import ClassBackend.Proofs.Layout.Builtins

/-! A whole unit under a discipline: emission settles under the condition that every class is well
scoped, between functions and with no scope open. -/
namespace ClassBackend.Emission

open Lowering Meaning

/-- What a class is well scoped in: its own surroundings, and all its fields. -/
def LayoutScoped (t : ClassTable) (k : ClassLayout) : Prop :=
  k.decl.Scoped (Context.surroundings ⟨t, k⟩) {x | x ∈ k.fields.map (·.name)}

variable {B : Backend} {D : Discipline B} {texts : List String} {cx : Context}
variable {N : List (String × Binding B.Local)} {ms : List (Option String)} {G : List Literal}
variable {F : Formals B} {K : List (Slot B)} {O : List (Pending B)}
variable {H : List (BlockName × List (Slot B))} {vars : Set String} {I : B.State → Prop}

theorem Emits.exists {σ α γ : Type} {T : Fault → Prop} {C : Prop} {pre : γ → σ → Prop}
    {m : Emit σ α} {R : α → Prop} {post : α → σ → Prop} (h : ∀ x, Emits T C (pre x) m R post) :
    Emits T C (fun s => ∃ x, pre x s) m R post :=
  fun s ⟨x, hs⟩ => h x s hs

theorem Emits.given {σ α : Type} {T : Fault → Prop} {C p : Prop} {pre : σ → Prop} {m : Emit σ α}
    {R : α → Prop} {post : α → σ → Prop} (h : p → Emits T C pre m R post) :
    Emits T C (fun s => p ∧ pre s) m R post :=
  fun s hs => h hs.1 s hs.2

section Classes

/-- The scope of a class: its fields from a slot on, the last one innermost. -/
def fieldScope (slot : Nat) : List Field → List (String × Binding B.Local)
  | [] => []
  | f :: fs => fieldScope (slot + 1) fs ++ [(f.name, .field slot)]

theorem bindFields_emits {T : Fault → Prop} (slot : Nat) (fs : List Field) (inside : ms ≠ []) :
    Emits T True (Sets texts N ms G I) (bindFields B slot fs) anything
      fun _ => Sets texts (fieldScope slot fs ++ N)
        ((fieldScope (B := B) slot fs).map (some ·.1) ++ ms) G I := by
  induction fs generalizing slot N ms with
  | nil => exact Emits.ret trivial fun _ hs => hs
  | cons f fs ih =>
    refine (Emits.bindName inside).then fun _ _ => ?_
    have rest := ih (N := (f.name, .field slot) :: N) (slot + 1) (List.cons_ne_nil (some f.name) ms)
    refine rest.weaken (fun _ hs => hs) Iff.rfl fun _ s hs => ?_
    simpa [fieldScope] using hs

theorem storeDefaults_emits (law : D.Lawful) (grounds : Grounds D texts cx) (slot : Nat)
    (fs : List Field) (hN : Names N vars) (hms : ms ≠ []) (live : Covers F K N) :
    Emits D.tolerates True (Sets texts N ms G (D.inside F K true O H))
      (storeDefaults B cx slot fs) anything fun _ => Sets texts N ms G (D.inside F K true O H) := by
  induction fs generalizing slot with
  | nil => exact Emits.ret trivial fun _ hs => hs
  | cons f fs ih =>
    unfold storeDefaults
    cases NativeKind.ofType? f.ty with
    | some kind => exact (law.storeNative law.self).kept.then fun _ _ => ih (slot + 1)
    | none =>
      have default := Lowers.defaultValue law grounds.blank f.ty hN hms live (G := G) (O := O)
        (H := H)
      rw [List.append_nil] at default
      refine default.then fun v _ => ?_
      exact (law.storeField law.self).kept.then fun _ _ => ih (slot + 1)

theorem storeInits_emits (law : D.Lawful) (grounds : Grounds D texts cx) (slot : Nat)
    (as : List Attribute) (hN : Names N vars) (hms : ms ≠ []) (live : Covers F K N) :
    Emits D.tolerates (∀ e ∈ as.filterMap (·.init), e.Scoped cx.surroundings vars)
      (Sets texts N ms G (D.inside F K true O H)) (storeInits B cx slot as) anything
      fun _ => Sets texts N ms (G ++ (as.filterMap (·.init)).flatMap Expr.literals)
        (D.inside F K true O H) := by
  induction as generalizing slot G with
  | nil =>
    rw [List.filterMap_nil, List.flatMap_nil, List.append_nil]
    exact Emits.when (C := True) (Emits.ret trivial fun _ hs => hs) (by simp)
  | cons a as ih =>
    unfold storeInits
    cases init : a.init with
    | none =>
      rw [List.filterMap_cons_none init]
      exact ih (slot + 1)
    | some e =>
      rw [List.filterMap_cons_some init]
      simp only [List.flatMap_cons, ← List.append_assoc]
      refine Emits.when (C := e.Scoped cx.surroundings vars ∧
        ∀ e ∈ as.filterMap (·.init), e.Scoped cx.surroundings vars) ?_ (by simp)
      refine (lower_lowers law grounds vars e hN hms live).bind fun v _ => ?_
      refine (law.storeField law.self).kept.then fun _ _ => ?_
      refine (law.writeBarrier law.self).kept.then fun _ _ => ?_
      exact ih (slot + 1)

theorem covers_fields (fields : locals N = []) : Covers F K N := by
  intro a ha
  rw [fields] at ha
  cases ha

/-- The initializer of a class: defaults, the parent's initializer, then the expressions. -/
theorem emitInit_emits (law : D.Lawful) (grounds : Grounds D texts cx) (hN : Names N vars)
    (hms : ms ≠ []) (fields : locals N = []) :
    Emits D.tolerates (∀ e ∈ cx.current.decl.initializers, e.Scoped cx.surroundings vars)
      (Sets texts N ms G D.idle) (emitInit B cx) anything
      fun _ => Sets texts N ms (G ++ cx.current.decl.initializers.flatMap Expr.literals)
        D.idle := by
  refine law.beginFunction.lift.then fun _ _ => ?_
  refine (storeDefaults_emits law grounds _ _ hN hms (covers_fields fields)).then fun _ _ => ?_
  have rest : Emits D.tolerates (∀ e ∈ cx.current.decl.initializers, e.Scoped cx.surroundings vars)
      (Sets texts N ms G (D.inside ⟨0, []⟩ [] true [] [])) (do
        storeInits B cx cx.current.ownStart cx.current.decl.attributes
        target (B.endFunction B.selfObject 0)) anything
      fun _ => Sets texts N ms (G ++ cx.current.decl.initializers.flatMap Expr.literals)
        D.idle := by
    refine (storeInits_emits law grounds _ _ hN hms (covers_fields fields)).free fun _ _ => ?_
    exact law.endFunction.lift
  cases parent : cx.current.parent with
  | none => exact rest
  | some q =>
    refine Emits.known (grounds.parent q parent) fun p _ => ?_
    exact law.callInit.kept.then fun _ _ => rest

/-- The formals that a method binds, the last one innermost. -/
def formalScope (fs : List Formal) (as : List B.Local) : List (String × Binding B.Local) :=
  ((fs.zip as).map fun p => (p.1.name, .stack p.2)).reverse

theorem bindFormals_emits (law : D.Lawful) {n : Nat} (as : List B.Local) (fs : List Formal)
    (count : as.length + fs.length = n) (inside : ms ≠ []) :
    Emits D.tolerates True (Sets texts N ms G (D.inside ⟨n, as⟩ [] true [] []))
      (bindFormals B as.length n fs) anything
      fun _ s => ∃ bs : List B.Local, bs.length = fs.length ∧
        Sets texts (formalScope fs bs ++ N) ((formalScope fs bs).map (some ·.1) ++ ms) G
          (D.inside ⟨n, as ++ bs⟩ [] true [] []) s := by
  induction fs generalizing as N ms with
  | nil =>
    refine Emits.ret trivial fun s hs => ⟨[], rfl, ?_⟩
    rw [List.append_nil]
    exact hs
  | cons f fs ih =>
    rw [List.length_cons] at count
    refine (law.formal (by omega)).lift.then fun a _ => ?_
    refine (Emits.bindName inside).then fun _ _ => ?_
    have rest := ih (as ++ [a]) (N := (f.name, .stack a) :: N) (by simp; omega)
      (List.cons_ne_nil (some f.name) ms)
    rw [List.length_append] at rest
    refine rest.weaken (fun _ hs => hs) Iff.rfl fun _ s hs => ?_
    obtain ⟨bs, len, hs⟩ := hs
    refine ⟨a :: bs, by simp [len], ?_⟩
    simpa [formalScope] using hs

theorem formalScope_names {fs : List Formal} {as : List B.Local} (len : as.length = fs.length) :
    (formalScope fs as).map Prod.fst = (fs.map (·.name)).reverse := by
  have first : (fs.zip as).map Prod.fst = fs := List.map_fst_zip (by omega)
  conv => rhs; rw [← first]
  simp [formalScope]

theorem names_formals {fs : List Formal} {as : List B.Local} (len : as.length = fs.length)
    (hN : Names N vars) : Names (formalScope fs as ++ N) (vars ∪ {x | x ∈ fs.map (·.name)}) := by
  intro x
  rw [List.map_append, List.mem_append, formalScope_names len, List.mem_reverse, hN x, or_comm]
  rfl

theorem covers_formals {fs : List Formal} {as : List B.Local} (len : as.length = fs.length)
    (fields : locals N = []) : Covers ⟨fs.length, as⟩ K (formalScope fs as ++ N) := by
  intro a ha
  unfold locals at ha fields
  rw [List.filterMap_append, fields, List.append_nil] at ha
  obtain ⟨e, he, found⟩ := List.mem_filterMap.mp ha
  obtain ⟨p, hp, rfl⟩ := List.mem_map.mp (List.mem_reverse.mp he)
  cases found
  exact .inr ⟨len, (List.of_mem_zip hp).2⟩

theorem emitMethod_emits (law : D.Lawful) (grounds : Grounds D texts cx) (name : String)
    (fs : List Formal) (body : Expr) (hN : Names N vars) (fields : locals N = []) :
    Emits D.tolerates (body.Scoped cx.surroundings (vars ∪ {x | x ∈ fs.map (·.name)}))
      (Sets texts N ms G D.idle) (emitMethod B cx name fs body) anything
      fun _ => Sets texts N ms (G ++ body.literals) D.idle := by
  refine law.beginFunction.lift.then fun _ _ => ?_
  refine Emits.pushScope.then fun _ _ => ?_
  refine (bindFormals_emits law [] fs (by simp) (by simp)).then fun _ _ => ?_
  refine Emits.exists fun as => ?_
  refine Emits.given fun len => ?_
  refine (lower_lowers law grounds _ body (names_formals len hN) (by simp)
    (covers_formals len fields)).free fun result _ => ?_
  refine (Emits.popScope _).then fun _ _ => ?_
  exact law.endFunction.lift

theorem emitMethods_emits (law : D.Lawful) (grounds : Grounds D texts cx)
    (methods : List MethodDecl) (hN : Names N vars) (fields : locals N = []) :
    Emits D.tolerates (∀ m ∈ methods, m.Scoped cx.surroundings vars)
      (Sets texts N ms G D.idle) (emitMethods B cx methods) anything
      fun _ => Sets texts N ms (G ++ (methods.filterMap (·.body)).flatMap Expr.literals)
        D.idle := by
  induction methods generalizing G with
  | nil =>
    rw [List.filterMap_nil, List.flatMap_nil, List.append_nil]
    exact Emits.when (C := True) (Emits.ret trivial fun _ hs => hs) (by simp)
  | cons m methods ih =>
    unfold emitMethods
    cases body : m.body with
    | none =>
      exact Emits.fails.when (by simp [MethodDecl.Scoped, body])
    | some e =>
      rw [List.filterMap_cons_some body]
      simp only [List.flatMap_cons, ← List.append_assoc]
      refine Emits.when (C := e.Scoped cx.surroundings (vars ∪ {x | x ∈ m.formals.map (·.name)}) ∧
        ∀ m ∈ methods, m.Scoped cx.surroundings vars) ?_ (by simp [MethodDecl.Scoped, body])
      exact (emitMethod_emits law grounds m.name m.formals e hN fields).bind fun _ _ => ih

theorem emitClass_emits (law : D.Lawful) (grounds : Grounds D texts cx) (hN : Names N vars)
    (hms : ms ≠ []) (fields : locals N = []) :
    Emits D.tolerates (cx.current.decl.Scoped cx.surroundings vars)
      (Sets texts N ms G D.idle) (emitClass B cx) anything
      fun _ => Sets texts N ms (G ++ cx.current.decl.code.flatMap Expr.literals) D.idle := by
  rw [ClassDecl.code, List.flatMap_append, ← List.append_assoc]
  refine Emits.when (C := (∀ e ∈ cx.current.decl.initializers, e.Scoped cx.surroundings vars) ∧
    ∀ m ∈ cx.current.decl.compiled, m.Scoped cx.surroundings vars) ?_
    ⟨fun h => ⟨h.1, h.2⟩, fun h => ⟨h.1, h.2⟩⟩
  refine (emitInit_emits law grounds hN hms fields).bind fun _ _ => ?_
  unfold ClassDecl.compiled
  split
  · rename_i builtin
    rw [if_pos (show cx.current.isBuiltin = true from builtin)]
    refine Emits.when (C := True) (Emits.ret trivial fun s hs => ?_) (by simp)
    simpa using hs
  · rename_i own
    rw [if_neg (show ¬ cx.current.isBuiltin = true from own)]
    exact emitMethods_emits law grounds _ hN fields

theorem fieldScope_names (slot : Nat) (fs : List Field) :
    (fieldScope (B := B) slot fs).map Prod.fst = (fs.map (·.name)).reverse := by
  induction fs generalizing slot with
  | nil => rfl
  | cons f fs ih => simp [fieldScope, ih]

theorem locals_fieldScope (slot : Nat) (fs : List Field) :
    locals (fieldScope (B := B) slot fs ++ N) = locals N := by
  induction fs generalizing slot N with
  | nil => rfl
  | cons f fs ih =>
    rw [fieldScope, List.append_assoc, ih]
    rfl

theorem names_fields {k : ClassLayout} (hN : Names N {x | x ∈ k.inherited.map (·.name)})
    (slot : Nat) : Names (fieldScope slot k.ownFields ++ N) {x | x ∈ k.fields.map (·.name)} := by
  intro x
  rw [List.map_append, List.mem_append, fieldScope_names, List.mem_reverse, hN x, or_comm]
  simp only [ClassLayout.fields, List.map_append, List.mem_append, Set.mem_ofPred_eq]

end Classes

section Trees

/-- In the tree, a class is laid out after the fields of the class right above it. -/
def Nested (tr : Tree ClassLayout) : Prop :=
  ∀ k ss, Tree.Sub (.node k ss) tr → ∀ s ∈ ss, s.value.inherited = k.fields

theorem Nested.child {k : ClassLayout} {ss : List (Tree ClassLayout)} (h : Nested (.node k ss))
    {s : Tree ClassLayout} (hs : s ∈ ss) : Nested s :=
  fun k' ss' sub => h k' ss' (.child hs sub)

def codeLiterals (ks : List ClassLayout) : List Literal :=
  ks.flatMap fun k => k.decl.code.flatMap Expr.literals

variable {t : ClassTable}

mutual

theorem emitTree_emits (law : D.Lawful) (tr : Tree ClassLayout)
    {N : List (String × Binding B.Local)} {ms : List (Option String)} {G : List Literal}
    (grounds : ∀ k ∈ tr.preorder, Grounds D texts ⟨t, k⟩) (nested : Nested tr)
    (hN : Names N {x | x ∈ tr.value.inherited.map (·.name)}) (fields : locals N = []) :
    Emits D.tolerates (∀ k ∈ tr.preorder, LayoutScoped t k) (Sets texts N ms G D.idle)
      (emitTree B t tr) anything
      fun _ => Sets texts N ms (G ++ codeLiterals tr.preorder) D.idle := by
  match tr with
  | .node k ss =>
    have names := names_fields hN k.ownStart
    have fields := (locals_fieldScope k.ownStart k.ownFields).trans fields
    simp only [Tree.preorder, codeLiterals, List.flatMap_cons, ← List.append_assoc]
    refine Emits.when (C := LayoutScoped t k ∧ ∀ j ∈ Tree.preorders ss, LayoutScoped t j) ?_
      (by simp)
    refine Emits.pushScope.then fun _ _ => ?_
    refine (bindFields_emits _ _ (by simp)).then fun _ _ => ?_
    refine (emitClass_emits law (grounds k (List.mem_cons_self ..)) names (by simp) fields).bind
      fun _ _ => ?_
    refine (emitTrees_emits law ss (fun j hj => grounds j (List.mem_cons_of_mem _ hj))
      (fun s hs => nested.child hs) (nested k ss (.refl _)) names fields).free fun _ _ => ?_
    exact Emits.popScope _

theorem emitTrees_emits (law : D.Lawful) (ts : List (Tree ClassLayout)) {fs : List Field}
    {N : List (String × Binding B.Local)} {ms : List (Option String)} {G : List Literal}
    (grounds : ∀ k ∈ Tree.preorders ts, Grounds D texts ⟨t, k⟩) (nested : ∀ s ∈ ts, Nested s)
    (above : ∀ s ∈ ts, s.value.inherited = fs) (hN : Names N {x | x ∈ fs.map (·.name)})
    (fields : locals N = []) :
    Emits D.tolerates (∀ k ∈ Tree.preorders ts, LayoutScoped t k) (Sets texts N ms G D.idle)
      (emitTrees B t ts) anything
      fun _ => Sets texts N ms (G ++ codeLiterals (Tree.preorders ts)) D.idle := by
  match ts with
  | [] =>
    refine Emits.when (C := True) (Emits.ret trivial fun s hs => ?_) (by simp [Tree.preorders])
    simpa [Tree.preorders, codeLiterals] using hs
  | tr :: ts =>
    simp only [Tree.preorders, codeLiterals, List.flatMap_append, ← List.append_assoc]
    refine Emits.when (C := (∀ j ∈ tr.preorder, LayoutScoped t j) ∧
      ∀ j ∈ Tree.preorders ts, LayoutScoped t j) ?_ (by simp [or_imp, forall_and])
    have first := above tr (List.mem_cons_self ..)
    refine (emitTree_emits law tr (fun j hj => grounds j (List.mem_append_left _ hj))
      (nested tr (List.mem_cons_self ..)) (by rw [first]; exact hN) fields).bind fun _ _ => ?_
    exact emitTrees_emits law ts (fun j hj => grounds j (List.mem_append_right _ hj))
      (fun s hs => nested s (List.mem_cons_of_mem _ hs))
      (fun s hs => above s (List.mem_cons_of_mem _ hs)) hN fields

end

theorem builtin_declared (q : Program) {b : ClassDecl} (hb : b ∈ Builtin.classes) :
    ∃ c ∈ q.withBuiltins.classes, c.name = b.name := by
  unfold Program.withBuiltins
  cases found : q.find? b.name with
  | none =>
    refine ⟨b, List.mem_append_left _ (List.mem_filter.mpr ⟨hb, ?_⟩), rfl⟩
    rw [found]
    rfl
  | some c =>
    refine ⟨c, List.mem_append_right _ (List.mem_of_find?_eq_some found), ?_⟩
    exact eq_of_beq (List.find?_some found :)

theorem found_iff {p : Program} (h : ClassTable.build p = .ok t) {name : String} :
    (∃ k, t.find name = .ok k) ↔ ∃ c ∈ p.classes, c.name = name := by
  constructor
  · rintro ⟨k, found⟩
    have declared := ClassTable.decl_mem h (ClassTable.mem_of_find found)
    exact ⟨k.decl, declared, ClassTable.name_of_find found⟩
  · rintro ⟨c, hc, rfl⟩
    obtain ⟨k, hk, rfl⟩ := ClassTable.exists_decl h hc
    exact ⟨k, ClassTable.find_name h hk⟩

def unitTexts (t : ClassTable) : List String := "" :: t.classes.map (·.fileName)

theorem grounds_build {q : Program} (h : ClassTable.build q.withBuiltins = .ok t)
    (tags : ∀ k ∈ t.classes, D.word k.tag ∧ D.word k.lastTag) {k : ClassLayout}
    (hk : k ∈ t.classes) : Grounds D (unitTexts t) ⟨t, k⟩ where
  int := (found_iff h).mpr (builtin_declared q (b := Builtin.int) (by simp [Builtin.classes]))
  bool := (found_iff h).mpr (builtin_declared q (b := Builtin.bool) (by simp [Builtin.classes]))
  current := ClassTable.find_name h hk
  parent r hr := by
    obtain ⟨a, ha, rfl⟩ := ClassTable.exists_parent h hk hr
    exact ⟨a, ClassTable.find_name h ha⟩
  tags := tags
  blank := List.mem_cons_self ..
  file := List.mem_cons_of_mem _ (List.mem_map_of_mem hk)

theorem nested_build {p : Program} (h : ClassTable.build p = .ok t) : Nested t.tree := by
  obtain ⟨root, _, ht, _⟩ := ClassTable.build_ok h
  intro k ss sub s hs
  rw [ht] at sub
  exact (Layout.child_inherits sub hs).1

/-- The unit of a built class table: emission ends with the literals of all its code in the pool. -/
theorem emitUnit_settles (law : D.Lawful) {q : Program}
    (h : ClassTable.build q.withBuiltins = .ok t)
    (tags : ∀ k ∈ t.classes, D.word k.tag ∧ D.word k.lastTag) :
    Settles D.tolerates (∀ k ∈ t.classes, LayoutScoped t k) (emitUnit B t) fun s =>
      Pooled (unitTexts t) (codeLiterals t.classes) s.pool ∧ D.idle s.target := by
  have grounds : ∀ k ∈ t.classes, Grounds D (unitTexts t) ⟨t, k⟩ :=
    fun k hk => grounds_build h tags hk
  rw [t.classes_eq] at grounds ⊢
  have root : t.tree.value.inherited = [] := by
    obtain ⟨r, _, ht, _⟩ := ClassTable.build_ok h
    rw [ht]
    cases Hierarchy.descend _ _ r
    rfl
  have start : Sets (unitTexts t) [] [] [] D.idle ({ target := B.start } : Session B) := by
    refine ⟨⟨List.nodup_nil, by simp, .nil, fun s => ?_⟩, ⟨by simp, by simp⟩, law.start⟩
    simp [SymbolTable.bindingsOf, Interner.resolve?]
  have whole : ∀ x : Unit × Session B,
      anything x.1 ∧ Sets (unitTexts t) [] [] ([] ++ codeLiterals t.tree.preorder) D.idle x.2 →
      Settles D.tolerates True (α := Session B)
        (if x.2.scopes.depth = 0 then pure x.2 else .error .unbalancedScopes)
        fun s => Pooled (unitTexts t) (codeLiterals t.tree.preorder) s.pool ∧ D.idle s.target := by
    rintro ⟨_, s⟩ ⟨_, hs⟩
    have closed : s.scopes.depth = 0 := hs.shows.depth
    rw [if_pos closed]
    exact ⟨trivial, hs.pooled, hs.target⟩
  have names : Names (B := B) [] {x | x ∈ t.tree.value.inherited.map (·.name)} := by
    simp [Names, root]
  have run := emitTree_emits law t.tree grounds (nested_build h) names rfl _ start
  exact (run.bind whole).mono (by simp) fun _ hs => hs

end Trees

end ClassBackend.Emission
