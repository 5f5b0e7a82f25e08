import Mathlib.Data.List.Forall2
import Mathlib.Data.List.Nodup
import ClassBackend.Scope.Table

/-! Nested scopes as one list. A symbol table with an interner shows the bindings of a list of
names, the innermost first; opening a scope and binding in it puts names in front, and closing it
takes them away again. -/
namespace ClassBackend

namespace Interner

variable {i : Interner} {name : String} {s : Symbol}

theorem mem_of_resolve? (h : i.resolve? s = some name) : name ∈ i.names :=
  List.mem_of_getElem? h

theorem get?_eq_some (distinct : i.names.Nodup) :
    i.get? name = some s ↔ i.resolve? s = some name := by
  simp only [get?, Option.map_eq_some_iff, List.idxOf?_eq_some_iff, resolve?]
  constructor
  · rintro ⟨k, ⟨hk, found, _⟩, rfl⟩
    exact List.getElem?_eq_some_iff.mpr ⟨hk, found⟩
  · intro h
    obtain ⟨hk, found⟩ := List.getElem?_eq_some_iff.mp h
    refine ⟨s.index, ⟨hk, found, ?_⟩, rfl⟩
    intro j hj same
    exact Nat.ne_of_lt hj ((distinct.getElem_inj_iff).mp (same.trans found.symm))

theorem intern_spec (distinct : i.names.Nodup) :
    (i.intern name).2.names.Nodup ∧ (i.intern name).2.resolve? (i.intern name).1 = some name ∧
      (i.resolve? (i.intern name).1 = if name ∈ i.names then some name else none) ∧
      (∀ r, i.resolve? r ≠ none → (i.intern name).2.resolve? r = i.resolve? r) ∧
      ∀ r, r ≠ (i.intern name).1 → (i.intern name).2.resolve? r = i.resolve? r := by
  unfold intern
  split
  · rename_i s found
    have named := (get?_eq_some distinct).mp found
    refine ⟨distinct, named, ?_, fun _ _ => rfl, fun _ _ => rfl⟩
    rw [if_pos (mem_of_resolve? named), named]
  · rename_i missing
    have new : name ∉ i.names := by
      intro h
      obtain ⟨k, hk⟩ := List.getElem?_of_mem h
      have := (get?_eq_some (s := ⟨k⟩) distinct).mpr hk
      rw [missing] at this
      contradiction
    refine ⟨?_, by simp [resolve?], by simp [resolve?, new], ?_, ?_⟩
    · rw [List.nodup_append]
      exact ⟨distinct, by simp, by simpa using fun a ha (same : a = name) => new (same ▸ ha)⟩
    · intro r old
      have : r.index < i.names.length := by
        by_contra beyond
        exact old (List.getElem?_eq_none (Nat.le_of_not_lt beyond))
      simp [resolve?, List.getElem?_append_left this]
    · intro r other
      have : r.index ≠ i.names.length := fun same => other (by cases r; simp_all)
      simp only [resolve?]
      rcases Nat.lt_or_gt_of_ne this with below | above
      · rw [List.getElem?_append_left below]
      · rw [List.getElem?_eq_none (by simp; omega), List.getElem?_eq_none (by omega)]

end Interner

namespace SymbolTable

variable {β : Type} {t t' : SymbolTable β} {i : Interner} {name : String} {b : β}

/-- The bindings of one name in a list of names, the innermost first. -/
def ofName (name : String) (env : List (String × β)) : List β :=
  (env.filter (·.1 == name)).map (·.2)

theorem head?_ofName (env : List (String × β)) : (ofName name env).head? = env.lookup name := by
  induction env with
  | nil => rfl
  | cons e env ih =>
    obtain ⟨n, b⟩ := e
    by_cases same : n = name
    · subst same
      simp [ofName]
    · have other : (name == n) = false := by simpa using fun h => same h.symm
      simp only [List.lookup_cons, other, ← ih]
      simp [ofName, same]

/-- A mark of the scope stack, and the name that it stands for if it is no scope marker. -/
def Marks (i : Interner) : Option String → Mark → Prop
  | none, .scope => True
  | some name, .symbol s => i.resolve? s = some name
  | _, _ => False

/-- What a table shows: these names, entered in scopes in this order. -/
structure Shows (i : Interner) (t : SymbolTable β) (env : List (String × β))
    (marks : List (Option String)) : Prop where
  distinct : i.names.Nodup
  known : ∀ e ∈ env, e.1 ∈ i.names
  marks : List.Forall₂ (Marks i) marks t.marks
  bindings : ∀ s, t.bindingsOf s = ((i.resolve? s).map fun name => ofName name env).getD []

theorem bindingsOf_setBindings (s r : Symbol) (bs : List β) (l : List (Symbol × List β)) :
    ((setBindings s bs l).lookup r).getD [] = if r = s then bs else (l.lookup r).getD [] := by
  induction l with
  | nil =>
    by_cases same : r = s
    · simp [setBindings, same]
    · have other : (r == s) = false := by simpa using same
      simp [setBindings, List.lookup_cons, same, other]
  | cons e l ih =>
    obtain ⟨q, cs⟩ := e
    by_cases first : q = s
    · subst first
      by_cases same : r = q
      · simp [setBindings, same]
      · have other : (r == q) = false := by simpa using same
        simp [setBindings, List.lookup_cons, same, other]
    · by_cases same : r = q
      · subst same
        simp [setBindings, first]
      · have other : (r == q) = false := by simpa using same
        simpa [setBindings, List.lookup_cons, first, other] using ih

variable {env : List (String × β)} {marks : List (Option String)}

theorem Shows.look (h : Shows i t env marks) {s : Symbol} (named : i.get? name = some s) :
    t.look s = env.lookup name := by
  have found := (Interner.get?_eq_some h.distinct).mp named
  rw [SymbolTable.look, h.bindings, found]
  exact head?_ofName env

theorem Shows.pushScope (h : Shows i t env marks) :
    Shows i t.pushScope env (none :: marks) where
  distinct := h.distinct
  known := h.known
  marks := .cons trivial h.marks
  bindings := h.bindings

theorem Shows.addSymbol (h : Shows i t env marks)
    (added : t.addSymbol (i.intern name).1 b = .ok t') :
    Shows (i.intern name).2 t' ((name, b) :: env) (some name :: marks) := by
  obtain ⟨distinct, known, old, kept, others⟩ := @Interner.intern_spec i name h.distinct
  unfold SymbolTable.addSymbol at added
  split at added
  · contradiction
  · cases added
    refine ⟨distinct, ?_, .cons known (h.marks.imp ?_), ?_⟩
    · rintro e (_ | ⟨_, he⟩)
      · exact Interner.mem_of_resolve? known
      · obtain ⟨k, hk⟩ := List.getElem?_of_mem (h.known e he)
        exact Interner.mem_of_resolve? ((kept ⟨k⟩ (by simp [Interner.resolve?, hk])).trans hk)
    · intro m mark hm
      match m, mark with
      | none, .scope => trivial
      | some _, .symbol s => exact (kept s (by rw [hm]; simp)).trans hm
    · intro s
      rw [bindingsOf, bindingsOf_setBindings]
      by_cases same : s = (i.intern name).1
      · subst same
        rw [if_pos rfl, known, h.bindings]
        rw [old]
        by_cases met : name ∈ i.names
        · simp [met, ofName]
        · have absent : ofName name env = [] := by
            rw [ofName, List.map_eq_nil_iff, List.filter_eq_nil_iff]
            intro e he same
            exact met (eq_of_beq same ▸ h.known e he)
          simpa [met, ofName] using absent.symm
      · rw [if_neg same, others s same]
        refine (h.bindings s).trans ?_
        cases resolved : i.resolve? s with
        | none => rfl
        | some n =>
          have : n ≠ name := by
            rintro rfl
            have twice := (Interner.get?_eq_some distinct).mpr ((others s same).trans resolved)
            rw [(Interner.get?_eq_some distinct).mpr known] at twice
            exact same (Option.some.inj twice).symm
          simp [ofName, this.symm]

theorem Shows.forget {s : Symbol} {bindings : List (Symbol × List β)} {ms : List Mark}
    (h : Shows i ⟨bindings, .symbol s :: ms⟩ ((name, b) :: env) (some name :: marks)) :
    (bindings.lookup s).getD [] = b :: ofName name env ∧
      Shows i ⟨setBindings s (ofName name env) bindings, ms⟩ env marks := by
  obtain ⟨distinct, seen, hm, hb⟩ := h
  cases hm with
  | cons known rest =>
  have known : i.resolve? s = some name := known
  refine ⟨?_, distinct, fun e he => seen e (List.mem_cons_of_mem _ he), rest, ?_⟩
  · refine (hb s).trans ?_
    rw [known]
    simp [ofName]
  · intro r
    rw [bindingsOf, bindingsOf_setBindings]
    by_cases same : r = s
    · subst same
      rw [if_pos rfl, known]
      rfl
    · rw [if_neg same]
      refine (hb r).trans ?_
      cases resolved : i.resolve? r with
      | none => rfl
      | some n =>
        have : n ≠ name := by
          rintro rfl
          have twice := (Interner.get?_eq_some distinct).mpr resolved
          rw [(Interner.get?_eq_some distinct).mpr known] at twice
          exact same (Option.some.inj twice).symm
        simp [ofName, this.symm]

theorem Shows.closeScope {bs : List (String × β)}
    (h : Shows i t (bs ++ env) (bs.map (some ·.1) ++ none :: marks)) :
    ∃ t', t.popScope = .ok t' ∧ Shows i t' env marks := by
  induction bs generalizing t with
  | nil =>
    obtain ⟨bindings, ms⟩ := t
    obtain ⟨distinct, seen, hm, hb⟩ := h
    match ms, hm with
    | .scope :: ms, .cons _ rest => exact ⟨⟨bindings, ms⟩, rfl, distinct, seen, rest, hb⟩
  | cons e bs ih =>
    obtain ⟨bindings, ms⟩ := t
    match ms, h.marks with
    | .symbol s :: ms, _ =>
      obtain ⟨own, rest⟩ := Shows.forget h
      obtain ⟨t', popped, shows⟩ := ih rest
      refine ⟨t', ?_, shows⟩
      rw [SymbolTable.popScope, unwind, own]
      exact popped

theorem Shows.popScope (h : Shows i t ((name, b) :: env) (some name :: none :: marks))
    (popped : t.popScope = .ok t') : Shows i t' env marks := by
  have one : Shows i t ([(name, b)] ++ env) ([(name, b)].map (some ·.1) ++ none :: marks) := h
  obtain ⟨t'', closed, shows⟩ := one.closeScope
  rw [popped] at closed
  cases closed
  exact shows

theorem Shows.enter (h : Shows i t env marks) (inside : marks ≠ []) (s : Symbol) (b : β) :
    ∃ t', t.addSymbol s b = .ok t' := by
  unfold SymbolTable.addSymbol
  split
  · rename_i outside
    have := h.marks.length_eq
    rw [List.isEmpty_iff.mp outside] at this
    exact absurd (List.eq_nil_of_length_eq_zero this) inside
  · exact ⟨_, rfl⟩

theorem count_marks {stack : List Mark} (h : List.Forall₂ (Marks i) marks stack) :
    stack.count .scope = marks.count none := by
  induction h with
  | nil => rfl
  | @cons m mark ms _ marked _ ih =>
    match m, mark, marked with
    | none, .scope, _ => simp [ih]
    | some _, .symbol _, _ => simpa using ih

theorem Shows.depth (h : Shows i t env marks) : t.depth = marks.count none :=
  count_marks h.marks

end SymbolTable

end ClassBackend
