import ClassBackend.Proofs.Scope.Visible

/-! A symbol table against a plain list of scopes. The table keeps the bindings of each symbol apart
and notes in a second stack what each scope has entered; what it shows is what a search through the
scopes finds. -/
namespace ClassBackend

inductive ScopeAction (β : Type) where
  | push
  | pop
  | add (s : Symbol) (b : β)
  | look (s : Symbol)
  | lookup (s : Symbol)

variable {β σ : Type}

/-- What is found is the binding that was asked for, if any. -/
def SymbolTable.act (t : SymbolTable β) : ScopeAction β → Except Fault (Option β × SymbolTable β)
  | .push => .ok (none, t.pushScope)
  | .pop => t.popScope.map fun t => (none, t)
  | .add s b => (t.addSymbol s b).map fun t => (none, t)
  | .look s => .ok (t.look s, t)
  | .lookup s => (t.lookup s).map fun b => (some b, t)

/-- The open scopes, the innermost first, each with its bindings, the newest first. -/
abbrev Scopes (β : Type) := List (List (Symbol × β))

namespace Scopes

def visible (scopes : Scopes β) (s : Symbol) : Option β :=
  scopes.findSome? fun scope => scope.lookup s

def act (scopes : Scopes β) : ScopeAction β → Except Fault (Option β × Scopes β)
  | .push => .ok (none, [] :: scopes)
  | .pop =>
    match scopes with
    | [] => .error .popWithoutPush
    | _ :: outer => .ok (none, outer)
  | .add s b =>
    match scopes with
    | [] => .error .bindingOutsideScope
    | scope :: outer => .ok (none, ((s, b) :: scope) :: outer)
  | .look s => .ok (scopes.visible s, scopes)
  | .lookup s =>
    match scopes.visible s with
    | none => .error .unresolvedSymbol
    | some b => .ok (some b, scopes)

end Scopes

section Rows

variable (act : σ → ScopeAction β → Except Fault (Option β × σ)) (depth : σ → Nat)

/-- What a row of actions shows: what each has found and how many scopes are open after it, up to
the first fault. -/
def shown : σ → List (ScopeAction β) → List (Except Fault (Option β × Nat))
  | _, [] => []
  | t, a :: as =>
    match act t a with
    | .ok (x, t) => .ok (x, depth t) :: shown t as
    | .error f => [.error f]

def afterAll : σ → List (ScopeAction β) → Except Fault σ
  | t, [] => .ok t
  | t, a :: as =>
    match act t a with
    | .ok (_, t) => afterAll t as
    | .error f => .error f

end Rows

/-- Every scope that is opened is closed again, and no other is closed. -/
inductive Balanced : List (ScopeAction β) → Prop
  | nil : Balanced []
  | add {s b as} : Balanced as → Balanced (.add s b :: as)
  | look {s as} : Balanced as → Balanced (.look s :: as)
  | lookup {s as} : Balanced as → Balanced (.lookup s :: as)
  | nest {as bs} : Balanced as → Balanced bs → Balanced (.push :: as ++ .pop :: bs)

structure SymbolTable.Scoped (t : SymbolTable β) : Prop where
  add : ∀ s b, (∃ f, t.addSymbol s b = .error f) ↔ t.depth = 0
  pop : (∃ f, t.popScope = .error f) ↔ t.depth = 0
  lookup : ∀ s, (∃ f, t.lookup s = .error f) ↔ t.look s = none
  /-- The two halves of the table never contradict each other. -/
  agree : t.popScope ≠ .error .scopesDisagree
  /-- What happens inside of a scope is gone with it. -/
  restored : ∀ as, Balanced as → ∀ t', afterAll act t (.push :: as ++ [.pop]) = .ok t' →
    t'.depth = t.depth ∧ ∀ s, t'.look s = t.look s ∧ t'.lookup s = t.lookup s
  /-- Inside of a scope nothing goes wrong but the lookup of a symbol that is not bound. -/
  steady : ∀ as, Balanced as → ∀ f, afterAll act t (.push :: as ++ [.pop]) = .error f →
    f = .unresolvedSymbol

def boundTo (s : Symbol) (row : List (Symbol × β)) : List β :=
  (row.filter (·.1 == s)).map (·.2)

/-- The table that stands for a list of scopes: a mark for each binding and each scope, and the
bindings of each symbol in the order of the search. -/
structure Scopes.Kept (scopes : Scopes β) (t : SymbolTable β) : Prop where
  marks : t.marks = scopes.flatMap fun scope => scope.map (fun e => .symbol e.1) ++ [.scope]
  bindings : ∀ s, t.bindingsOf s = boundTo s scopes.flatten

namespace Scopes

variable {scopes outer : Scopes β} {scope : List (Symbol × β)} {t t' : SymbolTable β}
variable {s : Symbol} {b : β}

theorem boundTo_cons (s r : Symbol) (b : β) (row : List (Symbol × β)) :
    boundTo s ((r, b) :: row) = if s = r then b :: boundTo s row else boundTo s row := by
  by_cases same : s = r
  · simp [boundTo, same]
  · have other : r ≠ s := fun h => same h.symm
    simp [boundTo, same, other]

theorem head?_boundTo (s : Symbol) (row : List (Symbol × β)) :
    (boundTo s row).head? = row.lookup s := by
  induction row with
  | nil => rfl
  | cons e row ih =>
    obtain ⟨r, b⟩ := e
    by_cases same : s = r
    · simp [boundTo_cons, same]
    · have other : (s == r) = false := by simpa using same
      simp [boundTo_cons, List.lookup_cons, same, other, ih]

theorem visible_eq (scopes : Scopes β) (s : Symbol) :
    scopes.visible s = scopes.flatten.lookup s := by
  induction scopes with
  | nil => rfl
  | cons scope outer ih =>
    rw [visible, List.findSome?_cons, List.flatten_cons, List.lookup_append, ← ih, visible]
    cases scope.lookup s <;> rfl

namespace Kept

theorem empty : Kept ([] : Scopes β) {} := ⟨rfl, fun _ => rfl⟩

theorem look (h : Kept scopes t) (s : Symbol) : t.look s = scopes.visible s := by
  rw [SymbolTable.look, h.bindings, head?_boundTo, visible_eq]

theorem depth (h : Kept scopes t) : t.depth = scopes.length := by
  have none (scope : List (Symbol × β)) :
      (scope.map fun e => Mark.symbol e.1).count .scope = 0 :=
    List.count_eq_zero_of_not_mem (by simp)
  rw [SymbolTable.depth, h.marks, List.count_flatMap]
  simp [Function.comp_def, none]

theorem pushScope (h : Kept scopes t) : Kept ([] :: scopes) t.pushScope :=
  ⟨congrArg (Mark.scope :: ·) h.marks, h.bindings⟩

theorem addSymbol (h : Kept (scope :: outer) t) (s : Symbol) (b : β) :
    ∃ t', t.addSymbol s b = .ok t' ∧ Kept (((s, b) :: scope) :: outer) t' := by
  have inside : t.marks.isEmpty = false := by simp [h.marks]
  refine ⟨_, if_neg (by simp [inside]), congrArg (Mark.symbol s :: ·) h.marks, fun r => ?_⟩
  rw [SymbolTable.bindingsOf, SymbolTable.bindingsOf_setBindings]
  refine Eq.trans ?_ (boundTo_cons r s b (scope :: outer).flatten).symm
  split
  · rename_i same
    rw [h.bindings, same]
  · exact h.bindings r

theorem forget {bindings : List (Symbol × List β)} {marks : List Mark}
    (h : Kept (((s, b) :: scope) :: outer) ⟨bindings, .symbol s :: marks⟩) :
    (bindings.lookup s).getD [] = b :: boundTo s (scope :: outer).flatten ∧
      Kept (scope :: outer)
        ⟨SymbolTable.setBindings s (boundTo s (scope :: outer).flatten) bindings, marks⟩ := by
  have bound (r : Symbol) : (bindings.lookup r).getD [] =
      boundTo r ((s, b) :: (scope :: outer).flatten) := h.bindings r
  refine ⟨by simpa [boundTo_cons] using bound s, (List.cons.inj h.marks).2, fun r => ?_⟩
  rw [SymbolTable.bindingsOf, SymbolTable.bindingsOf_setBindings]
  split
  · rename_i same
    rw [same]
  · rename_i other
    rw [bound, boundTo_cons, if_neg other]

theorem popScope (h : Kept (scope :: outer) t) : ∃ t', t.popScope = .ok t' ∧ Kept outer t' := by
  -- the induction is on the bindings of the scope, which go one by one
  induction scope generalizing t with
  | nil =>
    obtain ⟨bindings, marks⟩ := t
    cases h.marks
    exact ⟨_, rfl, rfl, h.bindings⟩
  | cons e scope ih =>
    obtain ⟨s, b⟩ := e
    obtain ⟨bindings, marks⟩ := t
    cases h.marks
    obtain ⟨first, rest⟩ := forget h
    obtain ⟨t', popped, kept⟩ := ih rest
    refine ⟨t', ?_, kept⟩
    rw [SymbolTable.popScope, SymbolTable.unwind, first]
    exact popped

theorem no_pop (h : Kept ([] : Scopes β) t) : t.popScope = .error .popWithoutPush := by
  rw [SymbolTable.popScope, h.marks]
  rfl

theorem no_add (h : Kept ([] : Scopes β) t) (s : Symbol) (b : β) :
    t.addSymbol s b = .error .bindingOutsideScope := if_pos (by simp [h.marks])

theorem lookup (h : Kept scopes t) (s : Symbol) :
    t.lookup s = match scopes.visible s with
      | some b => .ok b
      | none => .error .unresolvedSymbol := by
  cases seen : scopes.visible s <;> simp only [SymbolTable.lookup, h.look, seen]

/-- One action: the same is found, and the same goes wrong. -/
theorem act (h : Kept scopes t) (a : ScopeAction β) :
    match scopes.act a with
    | .ok (x, scopes') => ∃ t', t.act a = .ok (x, t') ∧ Kept scopes' t'
    | .error f => t.act a = .error f := by
  cases a with
  | push => exact ⟨_, rfl, h.pushScope⟩
  | pop =>
    cases scopes with
    | nil => exact congrArg (Except.map _) h.no_pop
    | cons scope outer =>
      obtain ⟨t', popped, kept⟩ := h.popScope
      exact ⟨t', congrArg (Except.map _) popped, kept⟩
  | add s b =>
    cases scopes with
    | nil => exact congrArg (Except.map _) (h.no_add s b)
    | cons scope outer =>
      obtain ⟨t', added, kept⟩ := h.addSymbol s b
      exact ⟨t', congrArg (Except.map _) added, kept⟩
  | look s => exact ⟨t, by rw [SymbolTable.act, h.look], h⟩
  | lookup s =>
    simp only [Scopes.act, SymbolTable.act, h.lookup]
    cases scopes.visible s with
    | none => rfl
    | some b => exact ⟨t, rfl, h⟩

theorem shown (h : Kept scopes t) (as : List (ScopeAction β)) :
    ClassBackend.shown SymbolTable.act SymbolTable.depth t as =
      ClassBackend.shown Scopes.act List.length scopes as := by
  induction as generalizing t scopes with
  | nil => rfl
  | cons a as ih =>
    have step := h.act a
    unfold ClassBackend.shown
    match scopes.act a, step with
    | .ok (x, scopes'), ⟨t', acted, kept⟩ => simp only [acted, kept.depth, ih kept]
    | .error f, acted => simp only [acted]

theorem afterAll (h : Kept scopes t) (as : List (ScopeAction β)) :
    match ClassBackend.afterAll Scopes.act scopes as with
    | .ok scopes' => ∃ t', ClassBackend.afterAll SymbolTable.act t as = .ok t' ∧ Kept scopes' t'
    | .error f => ClassBackend.afterAll SymbolTable.act t as = .error f := by
  induction as generalizing t scopes with
  | nil => exact ⟨t, rfl, h⟩
  | cons a as ih =>
    have step := h.act a
    unfold ClassBackend.afterAll
    match scopes.act a, step with
    | .ok (x, scopes'), ⟨t', acted, kept⟩ =>
      simp only [acted]
      exact ih kept
    | .error f, acted => simp only [acted]

end Kept

theorem afterAll_append (act : σ → ScopeAction β → Except Fault (Option β × σ)) (t : σ)
    (as bs : List (ScopeAction β)) :
    afterAll act t (as ++ bs) = afterAll act t as >>= fun t => afterAll act t bs := by
  induction as generalizing t with
  | nil => rfl
  | cons a as ih =>
    simp only [List.cons_append, afterAll]
    cases act t a with
    | ok r => exact ih r.2
    | error f => rfl

/-- A balanced row leaves the scopes around it alone, and adds to the innermost one. -/
theorem afterAll_balanced {as : List (ScopeAction β)} (balanced : Balanced as)
    (scope : List (Symbol × β)) (outer : Scopes β) :
    match afterAll act (scope :: outer) as with
    | .ok scopes => ∃ scope', scopes = scope' :: outer
    | .error f => f = .unresolvedSymbol := by
  induction balanced generalizing scope outer with
  | nil => exact ⟨scope, rfl⟩
  | add _ ih => exact ih _ outer
  | look _ ih => exact ih scope outer
  | @lookup s as _ ih =>
    simp only [afterAll, act]
    cases visible (scope :: outer) s with
    | none => rfl
    | some b => exact ih scope outer
  | @nest as bs _ _ inner rest =>
    have first := inner [] (scope :: outer)
    simp only [List.cons_append, afterAll, act]
    rw [afterAll_append]
    match afterAll act ([] :: scope :: outer) as, first with
    | .ok _, ⟨scope', rfl⟩ => exact rest scope outer
    | .error f, unresolved => exact unresolved

/-- Closing the scope of a balanced row restores what was there before. -/
theorem afterAll_nested {as : List (ScopeAction β)} (balanced : Balanced as) (scopes : Scopes β) :
    match afterAll act scopes (.push :: as ++ [.pop]) with
    | .ok scopes' => scopes' = scopes
    | .error f => f = .unresolvedSymbol := by
  have inside := afterAll_balanced balanced [] scopes
  simp only [List.cons_append, afterAll, act]
  rw [afterAll_append]
  match afterAll act ([] :: scopes) as, inside with
  | .ok _, ⟨scope', rfl⟩ => rfl
  | .error f, unresolved => exact unresolved

theorem agree_shown (scopes : Scopes β) (as : List (ScopeAction β)) :
    .error .scopesDisagree ∉ shown act List.length scopes as := by
  induction as generalizing scopes with
  | nil => nofun
  | cons a as ih =>
    have step : scopes.act a ≠ .error .scopesDisagree := by
      unfold act
      split <;> (try split) <;> nofun
    unfold shown
    match scopes.act a, step with
    | .ok (x, scopes'), _ => simpa using ih scopes'
    | .error f, step => simpa [eq_comm] using step

theorem Kept.scoped (h : Kept scopes t) : t.Scoped where
  add s b := by
    cases scopes with
    | nil => simp [h.no_add, h.depth]
    | cons scope outer =>
      obtain ⟨t', added, _⟩ := h.addSymbol s b
      simp [added, h.depth]
  pop := by
    cases scopes with
    | nil => simp [h.no_pop, h.depth]
    | cons scope outer =>
      obtain ⟨t', popped, _⟩ := h.popScope
      simp [popped, h.depth]
  lookup s := by
    unfold SymbolTable.lookup
    cases t.look s <;> simp
  agree := by
    cases scopes with
    | nil => simp [h.no_pop]
    | cons scope outer =>
      obtain ⟨t', popped, _⟩ := h.popScope
      simp [popped]
  restored as balanced t' ran := by
    have table := h.afterAll (.push :: as ++ [.pop])
    have nested := afterAll_nested balanced scopes
    split at table
    · rename_i scopes' same
      rw [same] at nested
      obtain rfl : scopes' = scopes := nested
      obtain ⟨t'', ran', kept⟩ := table
      obtain rfl : t'' = t' := Except.ok.inj (ran'.symm.trans ran)
      refine ⟨kept.depth.trans h.depth.symm, fun s => ?_⟩
      have look : t''.look s = t.look s := (kept.look s).trans (h.look s).symm
      exact ⟨look, by rw [SymbolTable.lookup, SymbolTable.lookup, look]⟩
    · rename_i f failed
      rw [table] at ran
      cases ran
  steady as balanced f ran := by
    have table := h.afterAll (.push :: as ++ [.pop])
    have nested := afterAll_nested balanced scopes
    split at table
    · obtain ⟨t'', ran', _⟩ := table
      cases ran'.symm.trans ran
    · rename_i f' failed
      rw [failed] at nested
      cases table.symm.trans ran
      exact nested

end Scopes

/-- From the empty table on, a row of actions shows what it shows on a list of scopes, and leaves a
table that does what scopes do. -/
theorem SymbolTable.refines_scopes (as : List (ScopeAction β)) :
    shown act depth {} as = shown Scopes.act List.length [] as ∧
      .error .scopesDisagree ∉ shown act depth {} as ∧
      ∀ t, afterAll act {} as = .ok t → t.Scoped := by
  have same := Scopes.Kept.empty.shown (β := β) as
  refine ⟨same, same ▸ Scopes.agree_shown [] as, fun t ran => ?_⟩
  have kept := Scopes.Kept.empty.afterAll (β := β) as
  split at kept
  · obtain ⟨t', ran', kept⟩ := kept
    cases ran'.symm.trans ran
    exact kept.scoped
  · rename_i f failed
    cases kept.symm.trans ran

/-- A name that is bound twice, with the inner scope closed again. -/
theorem SymbolTable.shadowing_refines : ∃ t : SymbolTable Nat,
    afterAll act {} [.push, .add ⟨0⟩ 100, .push, .add ⟨0⟩ 101, .pop] = .ok t ∧
      t.look ⟨0⟩ = some 100 ∧ t.Scoped := by
  have ran : afterAll act ({} : SymbolTable Nat)
      [.push, .add ⟨0⟩ 100, .push, .add ⟨0⟩ 101, .pop] =
        .ok ⟨[(⟨0⟩, [100])], [.symbol ⟨0⟩, .scope]⟩ := rfl
  exact ⟨_, ran, rfl, (SymbolTable.refines_scopes _).2.2 _ ran⟩

end ClassBackend
