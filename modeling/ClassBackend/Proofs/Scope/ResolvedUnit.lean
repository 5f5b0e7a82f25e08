import ClassBackend.Proofs.Emission.Unit
import ClassBackend.Proofs.Scope.Resolution

/-! A whole unit without a symbol table. The scopes that are open around the code of a class show
its fields with their slots, and nothing of the classes before; so the unit is the code of the
classes in tag order, each with the names of its own layout. -/
namespace ClassBackend

open Lowering

namespace Emission

variable {B : Backend}

theorem fieldScope_append (slot : Nat) (fs gs : List Field) :
    fieldScope (B := B) slot (fs ++ gs) =
      fieldScope (slot + fs.length) gs ++ fieldScope slot fs := by
  induction fs generalizing slot with
  | nil => simp [fieldScope]
  | cons f fs ih =>
    rw [List.cons_append, fieldScope, fieldScope, ih, List.append_assoc, List.length_cons]
    congr 2
    omega

theorem lookup_fieldScope (slot : Nat) (fs : List Field) (name : String) :
    (fieldScope (B := B) slot fs).lookup name =
      (fs.reverse.findIdx? fun f => f.name == name).map fun i =>
        .field (slot + (fs.length - 1 - i)) := by
  induction fs generalizing slot with
  | nil => rfl
  | cons f fs ih =>
    rw [fieldScope, List.lookup_append, ih, List.reverse_cons, List.findIdx?_append]
    cases found : fs.reverse.findIdx? fun f => f.name == name with
    | some i =>
      have inside := (List.findIdx?_eq_some_iff_getElem.mp found).1
      rw [List.length_reverse] at inside
      simp only [Option.map_some, Option.some_or, Option.some.injEq, Binding.field.injEq,
        List.length_cons]
      omega
    | none =>
      by_cases same : f.name = name
      · simp [same]
      · have other : (name == f.name) = false := by simpa using fun h => same h.symm
        simp [List.lookup_cons, same, other]

end Emission

namespace Resolved

variable {B : Backend} {cx : Context} {α β : Type}

theorem showsFields (k : ClassLayout) :
    ShowsFields k (Emission.fieldScope (B := B) 0 k.fields) := by
  intro name
  rw [Emission.lookup_fieldScope, ClassLayout.fieldSlot]
  cases k.fields.reverse.findIdx? fun f => f.name == name <;> simp [Except.toOption]

section Classes

variable {fields : List (String × Binding B.Local)} {marks : List (Option String)}
variable {σ σ' : Scopes B}

theorem storeDefaults_agree (slot : Nat) (fs : List Field) :
    Agrees σ σ (storeDefaults B cx slot fs) (storeDefaults B cx slot fs) := by
  induction fs generalizing slot with
  | nil => exact .ret
  | cons f fs ih =>
    unfold storeDefaults
    cases NativeKind.ofType? f.ty with
    | some kind => exact .bind .step fun _ => ih (slot + 1)
    | none =>
      exact .bind (defaultValue_agrees f.ty) fun _ => .bind .step fun _ => ih (slot + 1)

theorem storeInits_agree (shows : ShowsFields cx.current fields) (slot : Nat)
    (as : List Attribute) :
    Agrees ⟨fields, marks⟩ ⟨fields, marks⟩ (Lowering.storeInits B cx slot as)
      (storeInits B cx slot as) := by
  induction as generalizing slot with
  | nil => exact .ret
  | cons a as ih =>
    unfold Lowering.storeInits storeInits
    cases a.init with
    | none => exact ih (slot + 1)
    | some e =>
      exact .bind (lower_agrees shows [] marks e) fun _ => .bind .step fun _ =>
        .bind .step fun _ => ih (slot + 1)

theorem initializer_agrees (shows : ShowsFields cx.current fields) :
    Agrees ⟨fields, marks⟩ ⟨fields, marks⟩ (emitInit B cx) (initializer B cx) := by
  refine .bind .step fun _ => .bind (storeDefaults_agree _ _) fun _ => ?_
  have rest : Agrees ⟨fields, marks⟩ ⟨fields, marks⟩ (do
      Lowering.storeInits B cx cx.current.ownStart cx.current.decl.attributes
      target (B.endFunction B.selfObject 0)) (do
      storeInits B cx cx.current.ownStart cx.current.decl.attributes
      target (B.endFunction B.selfObject 0)) :=
    .bind (storeInits_agree shows _ _) fun _ => .step
  cases cx.current.parent with
  | none => exact rest
  | some q => exact .bind .found fun _ => .bind .step fun _ => rest

theorem formals_agree (index count : Nat) (vars : Vars B) (fs : List Formal)
    {f : Lowering B β} {g : Vars B → Lowering B β}
    (k : ∀ vars', vars'.map Prod.fst = (fs.map (·.name)).reverse ++ vars.map Prod.fst →
      Agrees ⟨bound vars' ++ fields, vars'.map (some ·.1) ++ none :: marks⟩ σ' f (g vars')) :
    Agrees ⟨bound vars ++ fields, vars.map (some ·.1) ++ none :: marks⟩ σ'
      (bindFormals B index count fs >>= fun _ => f) (formals B index count vars fs >>= g) := by
  induction fs generalizing index vars with
  | nil => exact k vars (by simp)
  | cons formal fs ih =>
    simp only [bindFormals, formals, bind_assoc]
    refine .bind .step fun access => .enter (by simp) ?_
    exact ih (index + 1) ((formal.name, access) :: vars) fun vars' names =>
      k vars' (by simp [names])

theorem method_agrees (shows : ShowsFields cx.current fields) (name : String) (fs : List Formal)
    (body : Expr) :
    Agrees ⟨fields, marks⟩ ⟨fields, marks⟩ (emitMethod B cx name fs body)
      (method B cx name fs body) := by
  refine .bind .step fun _ => .push ?_
  refine formals_agree 0 fs.length [] fs fun vars _ => ?_
  refine .bind (lower_agrees shows vars _ body) fun result => ?_
  have marked : vars.map (some ·.1) = (bound vars).map (some ·.1) := by simp [bound]
  rw [marked]
  exact Agrees.pop .step

theorem methods_agree (shows : ShowsFields cx.current fields) (ms : List MethodDecl) :
    Agrees ⟨fields, marks⟩ ⟨fields, marks⟩ (emitMethods B cx ms) (methods B cx ms) := by
  induction ms with
  | nil => exact .ret
  | cons m ms ih =>
    unfold emitMethods methods
    cases m.body with
    | none => exact .bind .fault fun _ => ih
    | some body => exact .bind (method_agrees shows m.name m.formals body) fun _ => ih

theorem classCode_agrees (shows : ShowsFields cx.current fields) :
    Agrees ⟨fields, marks⟩ ⟨fields, marks⟩ (emitClass B cx) (classCode B cx) :=
  .bind (initializer_agrees shows) fun _ => .choose .ret (methods_agree shows _)

end Classes

section Trees

variable {t : ClassTable} {marks : List (Option String)} {σ : Scopes B}

theorem classCodes_append (ks js : List ClassLayout) :
    classCodes B t (ks ++ js) = (classCodes B t ks >>= fun _ => classCodes B t js) := by
  induction ks with
  | nil => rw [List.nil_append, classCodes, pure_bind]
  | cons k ks ih => simp only [List.cons_append, classCodes, ih, bind_assoc]

theorem bindFields_agree (slot : Nat) (fs : List Field) {f f' : Lowering B β}
    {names : List (String × Binding B.Local)} (inside : marks ≠ [])
    (k : Agrees ⟨Emission.fieldScope slot fs ++ names,
      (Emission.fieldScope (B := B) slot fs).map (some ·.1) ++ marks⟩ σ f f') :
    Agrees ⟨names, marks⟩ σ (bindFields B slot fs >>= fun _ => f) f' := by
  induction fs generalizing slot names marks with
  | nil => exact k
  | cons field fs ih =>
    simp only [bindFields, bind_assoc]
    refine .enter inside (ih (slot + 1) (by simp) ?_)
    simpa [Emission.fieldScope] using k

mutual

theorem emitTree_agrees (tr : Tree ClassLayout) (nested : Emission.Nested tr)
    (marks : List (Option String)) :
    Agrees ⟨Emission.fieldScope 0 tr.value.inherited, marks⟩
      ⟨Emission.fieldScope 0 tr.value.inherited, marks⟩
      (emitTree B t tr) (classCodes B t tr.preorder) := by
  match tr with
  | .node k ss =>
    have whole : Emission.fieldScope (B := B) k.ownStart k.ownFields ++
        Emission.fieldScope 0 k.inherited = Emission.fieldScope 0 k.fields := by
      rw [ClassLayout.fields, Emission.fieldScope_append, Nat.zero_add, ClassLayout.ownStart]
    rw [emitTree, Tree.preorder, classCodes]
    refine .push (bindFields_agree _ _ (by simp) ?_)
    refine .bind (classCode_agrees (whole ▸ showsFields k)) fun _ => ?_
    have below := emitTrees_agree ss k.fields (fun s hs => nested.child hs)
      (nested k ss (.refl _))
      ((Emission.fieldScope (B := B) k.ownStart k.ownFields).map (some ·.1) ++ none :: marks)
    rw [← whole] at below
    have closed := below.bind fun _ =>
      Agrees.pop (k := marks) (Agrees.ret (a := ()))
    simpa [Tree.value] using closed

theorem emitTrees_agree (ts : List (Tree ClassLayout)) (fields : List Field)
    (nested : ∀ s ∈ ts, Emission.Nested s) (above : ∀ s ∈ ts, s.value.inherited = fields)
    (marks : List (Option String)) :
    Agrees ⟨Emission.fieldScope 0 fields, marks⟩ ⟨Emission.fieldScope 0 fields, marks⟩
      (emitTrees B t ts) (classCodes B t (Tree.preorders ts)) := by
  match ts with
  | [] => exact .ret
  | tr :: ts =>
    rw [emitTrees, Tree.preorders, classCodes_append]
    have first := emitTree_agrees tr (nested tr (by simp)) marks
    rw [above tr (by simp)] at first
    exact .bind first fun _ => emitTrees_agree ts fields (fun s hs => nested s (.tail _ hs))
      (fun s hs => above s (.tail _ hs)) marks

end

theorem Agrees.shows {α : Type} {σ' : Scopes B} {m m' : Lowering B α} (h : Agrees σ σ' m m')
    {s s' : Session B} {a : α} (there : σ.In s) (run : m s = .ok (a, s')) : σ'.In s' := by
  have both := h s s there rfl rfl
  rw [run] at both
  generalize m' s = r at both
  cases both with
  | ok shows => exact shows

theorem start_shows {p : Program} (h : ClassTable.build p = .ok t) :
    Scopes.In ⟨Emission.fieldScope 0 t.tree.value.inherited, []⟩
      ({ target := B.start } : Session B) := by
  have root : t.tree.value.inherited = [] := by
    obtain ⟨r, _, ht, _⟩ := ClassTable.build_ok h
    rw [ht]
    cases Hierarchy.descend _ _ r
    rfl
  rw [root]
  refine ⟨List.nodup_nil, by simp [Emission.fieldScope], .nil, fun s => ?_⟩
  simp [SymbolTable.bindingsOf, Interner.resolve?]

/-- Emission of a unit is the emission without a symbol table: they succeed on the same class
tables, with the same pool and the same state of the backend. -/
theorem emitUnit_resolved {p : Program} (h : ClassTable.build p = .ok t) :
    (Lowering.emitUnit B t).toOption.map (fun s => (s.pool, s.target)) =
      (emitUnit B t).toOption := by
  have whole := emitTree_agrees (B := B) (t := t) t.tree (Emission.nested_build h) []
  have run := whole _ { target := B.start } (start_shows h) rfl rfl
  simp only [Lowering.emitUnit, emitUnit, Bind.bind, Except.bind, t.classes_eq]
  revert run
  generalize emitTree B t t.tree { target := B.start } = r
  generalize classCodes B t t.tree.preorder { target := B.start } = r'
  rintro (⟨there, pool, state⟩ | -)
  · have closed := there.depth
    simp only [List.count_nil] at closed
    simp [closed, Except.toOption, pure, Except.pure, pool, state]
  · rfl

theorem emitUnit_of_ok {p : Program} (h : ClassTable.build p = .ok t) {s : Session B}
    (emitted : Lowering.emitUnit B t = .ok s) : emitUnit B t = .ok (s.pool, s.target) := by
  have resolved := emitUnit_resolved (B := B) h
  rw [emitted] at resolved
  cases made : emitUnit B t with
  | error f => rw [made] at resolved; cases resolved
  | ok r =>
    rw [made] at resolved
    cases resolved
    rfl

section Places

mutual

/-- `Comes t tr s k s'`: emission of the tree from the session `s` comes to the code of the class
`k` in the session `s'`. -/
inductive Comes (t : ClassTable) : Tree ClassLayout → Session B → ClassLayout → Session B → Prop
  | here {k ss s s'} : (do pushScope; bindFields B k.ownStart k.ownFields) s = .ok ((), s') →
    Comes t (.node k ss) s k s'
  | beneath {k ss s s₁ j s'} :
    (do pushScope; bindFields B k.ownStart k.ownFields; emitClass B ⟨t, k⟩) s = .ok ((), s₁) →
    ComesAmong t ss s₁ j s' → Comes t (.node k ss) s j s'

inductive ComesAmong (t : ClassTable) :
    List (Tree ClassLayout) → Session B → ClassLayout → Session B → Prop
  | first {tr ts s j s'} : Comes t tr s j s' → ComesAmong t (tr :: ts) s j s'
  | later {tr ts s s₁ j s'} : emitTree B t tr s = .ok ((), s₁) → ComesAmong t ts s₁ j s' →
    ComesAmong t (tr :: ts) s j s'

end

theorem entered_shows (k : ClassLayout) {s s' : Session B}
    (there : Scopes.In ⟨Emission.fieldScope 0 k.inherited, marks⟩ s)
    (run : (do pushScope; bindFields B k.ownStart k.ownFields) s = .ok ((), s')) :
    ∃ marks', Scopes.In ⟨Emission.fieldScope 0 k.fields, marks'⟩ s' := by
  have entry : Agrees ⟨Emission.fieldScope 0 k.inherited, marks⟩
      ⟨Emission.fieldScope 0 k.fields,
        (Emission.fieldScope (B := B) k.ownStart k.ownFields).map (some ·.1) ++ none :: marks⟩
      (do pushScope; bindFields B k.ownStart k.ownFields; pure ()) (pure ()) := by
    refine .push (bindFields_agree _ _ (by simp) ?_)
    rw [ClassLayout.fields, Emission.fieldScope_append, Nat.zero_add, ClassLayout.ownStart]
    exact .ret
  exact ⟨_, entry.shows there (by simpa using run)⟩

theorem emitClass_shows (k : ClassLayout) {s s' : Session B}
    (there : Scopes.In ⟨Emission.fieldScope 0 k.inherited, marks⟩ s)
    (run : (do pushScope; bindFields B k.ownStart k.ownFields; emitClass B ⟨t, k⟩) s =
      .ok ((), s')) :
    ∃ marks', Scopes.In ⟨Emission.fieldScope 0 k.fields, marks'⟩ s' := by
  have same : (do pushScope; bindFields B k.ownStart k.ownFields; emitClass B ⟨t, k⟩) =
      (do pushScope; bindFields B k.ownStart k.ownFields) >>= fun _ => emitClass B ⟨t, k⟩ := by
    simp
  rw [same] at run
  obtain ⟨_, s₁, entered, emitted⟩ := bind_ok.mp run
  obtain ⟨marks', shows⟩ := entered_shows k there entered
  exact ⟨marks', (classCode_agrees (showsFields k)).shows shows emitted⟩

mutual

theorem Comes.shows {tr : Tree ClassLayout} {s s' : Session B} {k : ClassLayout}
    (nested : Emission.Nested tr) {marks : List (Option String)}
    (there : Scopes.In ⟨Emission.fieldScope 0 tr.value.inherited, marks⟩ s)
    (h : Comes t tr s k s') : ∃ marks', Scopes.In ⟨Emission.fieldScope 0 k.fields, marks'⟩ s' := by
  match h with
  | .here run => exact entered_shows k there run
  | @Comes.beneath _ _ k ss _ _ _ _ run rest =>
    obtain ⟨marks', shows⟩ := emitClass_shows k there run
    exact rest.shows (fun s hs => nested.child hs) (nested k ss (.refl _)) shows

theorem ComesAmong.shows {ts : List (Tree ClassLayout)} {s s' : Session B} {k : ClassLayout}
    {fields : List Field} (nested : ∀ s ∈ ts, Emission.Nested s)
    (above : ∀ s ∈ ts, s.value.inherited = fields) {marks : List (Option String)}
    (there : Scopes.In ⟨Emission.fieldScope 0 fields, marks⟩ s)
    (h : ComesAmong t ts s k s') :
    ∃ marks', Scopes.In ⟨Emission.fieldScope 0 k.fields, marks'⟩ s' := by
  match h with
  | @ComesAmong.first _ _ tr _ _ _ _ here =>
    rw [← above tr (by simp)] at there
    exact here.shows (nested tr (by simp)) there
  | @ComesAmong.later _ _ tr _ _ _ _ _ run rest =>
    rw [← above tr (by simp)] at there
    have after := (emitTree_agrees tr (nested tr (by simp)) marks).shows there run
    rw [above tr (by simp)] at after
    exact rest.shows (fun s hs => nested s (.tail _ hs)) (fun s hs => above s (.tail _ hs)) after

end

mutual

theorem exists_comes (tr : Tree ClassLayout) {s s' : Session B}
    (run : emitTree B t tr s = .ok ((), s')) {k : ClassLayout} (hk : k ∈ tr.preorder) :
    ∃ s₁, Comes t tr s k s₁ := by
  match tr with
  | .node j ss =>
    simp only [emitTree, bind_ok] at run
    obtain ⟨_, s₁, pushed, _, s₂, bound, _, s₃, emitted, _, s₄, rest, _⟩ := run
    have entered : (do pushScope; bindFields B j.ownStart j.ownFields) s = .ok ((), s₂) :=
      bind_ok.mpr ⟨_, s₁, pushed, bound⟩
    rcases List.mem_cons.mp hk with rfl | below
    · exact ⟨s₂, .here entered⟩
    · obtain ⟨s₅, comes⟩ := exists_comesAmong ss rest below
      refine ⟨s₅, .beneath ?_ comes⟩
      exact bind_ok.mpr ⟨_, s₁, pushed, bind_ok.mpr ⟨_, s₂, bound, emitted⟩⟩

theorem exists_comesAmong (ts : List (Tree ClassLayout)) {s s' : Session B}
    (run : emitTrees B t ts s = .ok ((), s')) {k : ClassLayout} (hk : k ∈ Tree.preorders ts) :
    ∃ s₁, ComesAmong t ts s k s₁ := by
  match ts with
  | [] => cases hk
  | tr :: ts =>
    simp only [emitTrees, bind_ok] at run
    obtain ⟨_, s₁, first, rest⟩ := run
    rcases List.mem_append.mp hk with here | later
    · obtain ⟨s₂, comes⟩ := exists_comes tr first here
      exact ⟨s₂, .first comes⟩
    · obtain ⟨s₂, comes⟩ := exists_comesAmong ts rest later
      exact ⟨s₂, .later first comes⟩

end

end Places

end Trees

end Resolved

end ClassBackend
