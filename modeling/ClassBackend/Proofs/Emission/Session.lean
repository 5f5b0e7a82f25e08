import ClassBackend.Proofs.Emission.Discipline

/-! The session around a disciplined backend: the names in scope, and the pool with the literals of
the code so far. -/
namespace ClassBackend

namespace Emission

open Lowering Meaning

/-- The Ints of the pool are the literals `G` and the lengths of texts: of literals, or of those
that are in every unit. -/
structure Pooled (texts : List String) (G : List Literal) (p : Pool) : Prop where
  all : ∀ v, .int v ∈ G → v ∈ p.ints
  only : ∀ v ∈ p.ints, .int v ∈ G ∨ ∃ s, (.str s ∈ G ∨ s ∈ texts) ∧ v = Pool.byteLength s

section

variable {texts : List String} {G G' : List Literal} {p : Pool}

theorem Pooled.congr (h : Pooled texts G p) (same : ∀ l, l ∈ G ↔ l ∈ G') : Pooled texts G' p where
  all v hv := h.all v ((same _).mpr hv)
  only v hv := by
    rcases h.only v hv with lit | ⟨s, from_, len⟩
    · exact .inl ((same _).mp lit)
    · exact .inr ⟨s, from_.imp_left (same _).mp, len⟩

theorem Pooled.int (h : Pooled texts G p) (v : Int64) :
    Pooled texts (G ++ [.int v]) (p.int v).2 where
  all w hw := by
    rw [Pool.mem_int_ints]
    rcases List.mem_append.mp hw with old | new
    · exact .inl (h.all w old)
    · cases List.mem_singleton.mp new
      exact .inr rfl
  only w hw := by
    rcases Pool.mem_int_ints.mp hw with old | rfl
    · rcases h.only w old with lit | ⟨s, from_, len⟩
      · exact .inl (List.mem_append_left _ lit)
      · exact .inr ⟨s, from_.imp_left (List.mem_append_left _), len⟩
    · exact .inl (by simp)

theorem Pooled.string (h : Pooled texts G p) (s : String) :
    Pooled texts (G ++ [.str s]) (p.string s).2 where
  all w hw := by
    rw [Pool.mem_string_ints]
    exact .inl (h.all w (by simpa using hw))
  only w hw := by
    rcases Pool.mem_string_ints.mp hw with old | rfl
    · rcases h.only w old with lit | ⟨s, from_, len⟩
      · exact .inl (List.mem_append_left _ lit)
      · exact .inr ⟨s, from_.imp_left (List.mem_append_left _), len⟩
    · exact .inr ⟨s, .inl (by simp), rfl⟩

theorem Pooled.text (h : Pooled texts G p) {s : String} (hs : s ∈ texts) :
    Pooled texts G (p.string s).2 where
  all w hw := Pool.mem_string_ints.mpr (.inl (h.all w hw))
  only w hw := by
    rcases Pool.mem_string_ints.mp hw with old | rfl
    · exact h.only w old
    · exact .inr ⟨s, .inr hs, rfl⟩

theorem Pooled.initValue (h : Pooled texts G p) (blank : "" ∈ texts) (ty : String) :
    Pooled texts G (p.initValue ty).2 := by
  rw [Pool.initValue_eq]
  split
  · refine ⟨fun w hw => Pool.mem_int_ints.mpr (.inl (h.all w hw)), fun w hw => ?_⟩
    rcases Pool.mem_int_ints.mp hw with old | rfl
    · exact h.only w old
    · exact .inr ⟨"", .inr blank, rfl⟩
  · split
    · exact h
    · split
      · exact h.text blank
      · exact h

end

/-- A session with these names and scopes, these literals in the pool, and a backend in a state
that is described. -/
structure Sets {B : Backend} (texts : List String) (N : List (String × Binding B.Local))
    (ms : List (Option String)) (G : List Literal) (I : B.State → Prop) (s : Session B) : Prop where
  shows : s.scopes.Shows s.names N ms
  pooled : Pooled texts G s.pool
  target : I s.target

section Rules

variable {B : Backend} {α β κ : Type} {T : Fault → Prop} {C : Prop} {texts : List String}
variable {N : List (String × Binding B.Local)} {ms : List (Option String)} {G G' : List Literal}
variable {I : B.State → Prop} {J : α → B.State → Prop} {R : α → Prop} {m : Emit B.State α}

theorem Emits.lift (h : Emits T C I m R J) :
    Emits T C (Sets texts N ms G I) (target m) R fun a => Sets texts N ms G (J a) := by
  rintro ⟨pool, names, scopes, t⟩ ⟨shows, pooled, there⟩
  have step := h t there
  simp only [target]
  cases hm : m t with
  | ok p =>
    rw [hm] at step
    exact ⟨step.1, step.2.1, shows, pooled, step.2.2⟩
  | error f =>
    rw [hm] at step
    exact step

theorem Emits.pool {f : Pool → α × Pool}
    (h : ∀ p, Pooled texts G p → Pooled texts G' (f p).2) :
    Emits T True (Sets texts N ms G I) (pooled f) anything fun _ => Sets texts N ms G' I :=
  fun _ hs => ⟨trivial, trivial, hs.shows, h _ hs.pooled, hs.target⟩

theorem Emits.pushScope : Emits T True (Sets texts N ms G I) pushScope anything
    fun _ => Sets texts N (none :: ms) G I :=
  fun _ hs => ⟨trivial, trivial, hs.shows.pushScope, hs.pooled, hs.target⟩

theorem Emits.bindName {name : String} {b : Binding B.Local} (inside : ms ≠ []) :
    Emits T True (Sets texts N ms G I) (bindName name b) anything
      fun _ => Sets texts ((name, b) :: N) (some name :: ms) G I := by
  intro s hs
  obtain ⟨t, added⟩ := hs.shows.enter inside (s.names.intern name).1 b
  unfold Lowering.bindName
  simp only [added]
  exact ⟨trivial, trivial, hs.shows.addSymbol added, hs.pooled, hs.target⟩

theorem Emits.popScope (bs : List (String × Binding B.Local)) :
    Emits T True (Sets texts (bs ++ N) (bs.map (some ·.1) ++ none :: ms) G I) popScope anything
      fun _ => Sets texts N ms G I := by
  intro s hs
  obtain ⟨t, popped, shows⟩ := hs.shows.closeScope
  unfold Lowering.popScope
  simp only [popped]
  exact ⟨trivial, trivial, shows, hs.pooled, hs.target⟩

theorem Emits.binding {name : String} (other : name ≠ selfName) :
    Emits T (name ∈ N.map Prod.fst) (Sets texts N ms G I) (binding name)
      (fun b => N.lookup name = some b) fun _ => Sets texts N ms G I := by
  intro s hs
  unfold Lowering.binding
  rw [if_neg other]
  have bound : name ∈ N.map Prod.fst ↔ (N.lookup name).isSome := by
    rw [List.lookup_isSome_iff]
    simp
  cases named : s.names.get? name with
  | none =>
    intro hn
    obtain ⟨e, he, rfl⟩ := List.mem_map.mp hn
    obtain ⟨k, hk⟩ := List.getElem?_of_mem (hs.shows.known e he)
    rw [(Interner.get?_eq_some (s := ⟨k⟩) hs.shows.distinct).mpr hk] at named
    cases named
  | some sym =>
    simp only [SymbolTable.lookup, hs.shows.look named]
    cases found : N.lookup name with
    | none =>
      intro hn
      rw [bound, found] at hn
      cases hn
    | some b => exact ⟨bound.mpr (by rw [found]; rfl), rfl, hs⟩

end Rules

section Lookups

variable {B : Backend} {α β κ : Type} {T : Fault → Prop} {C : Prop} {pre : Session B → Prop}
variable {x : Except Fault κ} {f : κ → Lowering B β} {R : β → Prop} {post : β → Session B → Prop}

theorem Emits.find {C : κ → Prop} (h : ∀ k, x = .ok k → Emits T (C k) pre (f k) R post) :
    Emits T (∃ k, x = .ok k ∧ C k) pre (Lowering.ofExcept x >>= f) R post := by
  intro s hs
  have step := Settles.find (T := T) (C := C) (r := x) (f := fun k => f k s)
    (R := fun p => R p.1 ∧ post p.1 p.2) fun k found => h k found s hs
  cases x with
  | ok k => exact step
  | error e => exact step

theorem Emits.known (there : ∃ k, x = .ok k)
    (h : ∀ k, x = .ok k → Emits T C pre (f k) R post) :
    Emits T C pre (Lowering.ofExcept x >>= f) R post := by
  obtain ⟨k, rfl⟩ := there
  exact fun s hs => h k rfl s hs

theorem Emits.fails {e : Fault} {g : α → Lowering B β} :
    Emits T False pre (fault e >>= g) R post :=
  fun _ _ c => c.elim

end Lookups

end Emission

end ClassBackend
