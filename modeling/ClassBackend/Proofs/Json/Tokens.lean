import ClassBackend.Json.Record

/-! Texts as tokens with blanks around them, and what readers take of a text. A reader that opens
arrays and objects within the limit answers a value and leaves the tokens behind it; where the
nesting is too deep it stops there. -/
namespace ClassBackend.Json

abbrev Token := List Char

def Blank (b : List Char) : Prop := ∀ c ∈ b, isBlank c = true

instance (b : List Char) : Decidable (Blank b) := List.decidableBAll _ b

/-- A text of these tokens, with any blanks in front of them, between them and at the end. -/
inductive Spaced : List Token → List Char → Prop
  | done {b : List Char} : Blank b → Spaced [] b
  | token {b cs : List Char} {t : Token} {ts : List Token} :
    t ≠ [] → Blank b → Spaced ts cs → Spaced (t :: ts) (b ++ (t ++ cs))

/-- What a comma or a closing bracket follows, or nothing does. -/
def Ends (us : List Token) : Prop := ∀ t ∈ us.head?, t = [','] ∨ t = [']'] ∨ t = ['}']

def Closed (cs : List Char) : Prop :=
  ∀ c ∈ cs.head?, isBlank c = true ∨ c = ',' ∨ c = ']' ∨ c = '}'

def following (parts : List (List Token)) : List Token := parts.flatMap fun p => [','] :: p

def separated : List (List Token) → List Token
  | [] => []
  | p :: ps => p ++ following ps

section Spaced

variable {c : Char} {b cs : List Char} {t : Token} {ts us : List Token}

theorem trim_blank (h : Blank b) (cs : List Char) : trim (b ++ cs) = trim cs := by
  induction b with
  | nil => rfl
  | cons d b ih =>
    have first : isBlank d = true := h d (by simp)
    rw [List.cons_append, trim, List.dropWhile_cons_of_pos (by simpa using first)]
    exact ih fun e he => h e (by simp [he])

theorem trim_solid (h : isBlank c = false) (cs : List Char) : trim (c :: cs) = c :: cs := by
  rw [trim, List.dropWhile_cons_of_neg (by simp [h])]

theorem Spaced.trim_done (h : Spaced [] cs) : trim cs = [] := by
  cases h with
  | done blank =>
    rw [← List.append_nil cs, trim_blank blank]
    rfl

theorem Spaced.trim_token (h : Spaced ((c :: t) :: ts) cs) (solid : isBlank c = false) :
    ∃ rest, trim cs = c :: (t ++ rest) ∧ Spaced ts rest := by
  cases h with
  | @token b rest _ _ _ blank more =>
    refine ⟨rest, ?_, more⟩
    rw [trim_blank blank, List.cons_append, trim_solid solid]

theorem Spaced.tight (h : Spaced ts cs) : Spaced ((c :: t) :: ts) (c :: (t ++ cs)) :=
  .token (b := []) (List.cons_ne_nil c t) nofun h

theorem spaced_flatten (solid : ∀ t ∈ ts, t ≠ []) : Spaced ts ts.flatten := by
  induction ts with
  | nil => exact .done nofun
  | cons t ts ih =>
    obtain ⟨first, rest⟩ := List.forall_mem_cons.mp solid
    exact .token (b := []) first nofun (ih rest)

/-- The text of tokens, each with the blanks in front of it, and the blanks at the end. -/
def spacedText (xs : List (List Char × Token)) (last : List Char) : List Char :=
  xs.foldr (fun x cs => x.1 ++ (x.2 ++ cs)) last

theorem spaced_text {xs : List (List Char × Token)} {last : List Char}
    (h : ∀ x ∈ xs, Blank x.1 ∧ x.2 ≠ []) (end_ : Blank last) :
    Spaced (xs.map Prod.snd) (spacedText xs last) := by
  induction xs with
  | nil => exact .done end_
  | cons x xs ih =>
    obtain ⟨⟨blank, solid⟩, rest⟩ := List.forall_mem_cons.mp h
    exact .token solid blank (ih rest)

theorem Spaced.closed (h : Spaced us cs) (ends : Ends us) : Closed cs := by
  intro c hc
  cases h with
  | done blank =>
    exact .inl (blank c (List.mem_of_mem_head? hc))
  | @token b rest t ts _ blank more =>
    cases b with
    | nil =>
      right
      obtain rfl | rfl | rfl := ends t rfl
      all_goals
        cases hc
        simp
    | cons d b =>
      cases hc
      exact .inl (blank c (by simp))

theorem Spaced.length_le (h : Spaced ts cs) : ts.length ≤ cs.length := by
  induction h with
  | done => exact Nat.zero_le _
  | token solid _ _ ih =>
    have head := List.length_pos_iff.mpr solid
    simp only [List.length_cons, List.length_append]
    omega

end Spaced

variable {α β : Type} {m : Reader α} {f : α → Reader β} {a : α} {b : β} {c : Char} {t : Token}
variable {ts ts' us : List Token} {P Q : Prop}

/-- A value and the tokens behind it, or a refusal where the limit on nesting does not hold. -/
structure Yields (x : Except Refusal (α × List Char)) (us : List Token) (fits : Prop) (a : α) :
    Prop where
  value : fits → ∃ cs, x = .ok (a, cs) ∧ Spaced us cs
  refusal : ¬ fits → x = .error .malformed

def Takes (m : Reader α) (ts us : List Token) (fits : Prop) (a : α) : Prop :=
  ∀ cs, Spaced (ts ++ us) cs → Yields (m cs) us fits a

namespace Takes

theorem bind (h : Takes m ts (ts' ++ us) P a) (k : P → Takes (f a) ts' us Q b) :
    Takes (m >>= f) (ts ++ ts') us (P ∧ Q) b := by
  intro cs spaced
  rw [List.append_assoc] at spaced
  obtain ⟨value, refusal⟩ := h cs spaced
  by_cases fits : P
  · obtain ⟨rest, read, more⟩ := value fits
    have same : (m >>= f) cs = f a rest := by
      simp [Bind.bind, StateT.bind, Except.bind, read]
    obtain ⟨value', refusal'⟩ := k fits rest more
    rw [← same] at value' refusal'
    exact ⟨fun both => value' both.2, fun none => refusal' fun q => none ⟨fits, q⟩⟩
  · have same : (m >>= f) cs = .error .malformed := by
      simp [Bind.bind, StateT.bind, Except.bind, refusal fits]
    exact ⟨fun both => absurd both.1 fits, fun _ => same⟩

theorem step (h : Takes m ts (ts' ++ us) True a) (k : Takes (f a) ts' us Q b) :
    Takes (m >>= f) (ts ++ ts') us Q b := by
  have both := h.bind fun _ => k
  rwa [true_and] at both

theorem ret (a : α) (us : List Token) : Takes (pure a) [] us True a :=
  fun cs spaced => ⟨fun _ => ⟨cs, rfl, spaced⟩, fun none => absurd trivial none⟩

theorem map (g : α → β) (h : Takes m ts us P a) : Takes (g <$> m) ts us P (g a) := by
  intro cs spaced
  obtain ⟨value, refusal⟩ := h cs spaced
  refine ⟨fun fits => ?_, fun none => ?_⟩
  · obtain ⟨rest, read, more⟩ := value fits
    refine ⟨rest, ?_, more⟩
    simp [Functor.map, StateT.map, Bind.bind, Except.bind, read, pure, Except.pure]
  · simp [Functor.map, StateT.map, Bind.bind, Except.bind, refusal none]

theorem at_token (solid : isBlank c = false)
    (h : ∀ cs rest, trim cs = c :: (t ++ rest) → Spaced us rest → Yields (m cs) us P a) :
    Takes m [c :: t] us P a := by
  intro cs spaced
  obtain ⟨rest, front, more⟩ := spaced.trim_token solid
  exact h cs rest front more

theorem iff (h : Takes m ts us P a) (same : P ↔ Q) : Takes m ts us Q a := by
  rwa [← propext same]

end Takes

theorem Yields.ok {x : Except Refusal (α × List Char)} {cs : List Char}
    (h : x = .ok (a, cs)) (more : Spaced us cs) : Yields x us True a :=
  ⟨fun _ => ⟨cs, h, more⟩, fun none => absurd trivial none⟩

section Marks

theorem symbol_takes (solid : isBlank c = false) (us : List Token) :
    Takes (symbol c) [[c]] us True () := by
  refine .at_token solid fun cs rest front more => .ok ?_ more
  simp [symbol, front]

theorem moreItems_end (first : Bool) (us : List Token) :
    Takes (moreItems first) [] ([']'] :: us) True false := by
  intro cs spaced
  obtain ⟨rest, front, more⟩ := spaced.trim_token (by decide)
  refine .ok ?_ more.tight
  simp [moreItems, front]

theorem moreItems_first (solid : isBlank c = false) (open_ : c ≠ ']') (us : List Token) :
    Takes (moreItems true) [] ((c :: t) :: us) True true := by
  intro cs spaced
  obtain ⟨rest, front, more⟩ := spaced.trim_token solid
  refine .ok ?_ more.tight
  simp [moreItems, front, open_]

theorem moreItems_next (solid : isBlank c = false) (open_ : c ≠ ']') (us : List Token) :
    Takes (moreItems false) [[',']] ((c :: t) :: us) True true := by
  refine .at_token (by decide) fun cs rest front more => ?_
  obtain ⟨rest', front', more'⟩ := more.trim_token solid
  refine .ok ?_ more'.tight
  simp [moreItems, front, front', open_]

theorem moreKeys_end (first : Bool) (us : List Token) :
    Takes (moreKeys first) [] (['}'] :: us) True false := by
  intro cs spaced
  obtain ⟨rest, front, more⟩ := spaced.trim_token (by decide)
  refine .ok ?_ more.tight
  simp [moreKeys, front]

end Marks

end ClassBackend.Json
