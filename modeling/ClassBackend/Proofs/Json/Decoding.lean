import Mathlib.Data.List.Forall2
import ClassBackend.Json.Record
import ClassBackend.Proofs.Json.Form

/-! Decoders read what is written for a form, whichever of its texts it is: one rule for each way to
make a decoder. -/
namespace ClassBackend.Json

open Form (Writes Items Members lead)

variable {α β γ : Type} {l l' : Limits} {d : Decoder α} {f : Form} {a : α} {ts us : List Token}

/-- Of every text that may be written for the form, the decoder reads the value, unless the form
nests too deeply. -/
def Decodes (l : Limits) (d : Decoder α) (f : Form) (a : α) : Prop :=
  ∀ ts us, f.Writes ts → Ends us → ts.length ≤ l.size → Takes (d l) ts us (f.depth ≤ l.nesting) a

section Heads

theorem signed_unlike {c : Char} (h : c = '-' ∨ c.isDigit = true) :
    isBlank c = false ∧ c ≠ ']' ∧ c ≠ 'n' := by
  rcases h with rfl | digit
  · decide
  · refine ⟨?_, ?_, ?_⟩
    · rw [← Bool.not_eq_true]
      intro blank
      simp only [isBlank, Bool.or_eq_true, beq_iff_eq] at blank
      obtain ((rfl | rfl) | rfl) | rfl := blank <;> cases digit
    all_goals
      rintro rfl
      cases digit

theorem writes_head (h : f.Writes ts) : ∃ c t us, ts = (c :: t) :: us ∧ isBlank c = false ∧
    c ≠ ']' ∧ (f ≠ .null → c ≠ 'n') := by
  cases h with
  | null => exact ⟨_, _, [], rfl, by decide, by decide, fun h => absurd rfl h⟩
  | true | false => exact ⟨_, _, [], rfl, by decide, by decide, fun _ => by decide⟩
  | int v =>
    obtain ⟨c, t, front, first⟩ := integer_head v
    obtain ⟨solid, open_, other⟩ := signed_unlike first
    exact ⟨c, t, [], by rw [front], solid, open_, fun _ => other⟩
  | str quotes =>
    obtain ⟨_, _, rfl⟩ := quotes
    exact ⟨_, _, [], rfl, by decide, by decide, fun _ => by decide⟩
  | list | record | variant => exact ⟨_, _, _, rfl, by decide, by decide, fun _ => by decide⟩

end Heads

section Scalars

theorem Decodes.of_scalar (flat : f.depth = 0)
    (written : ∀ ts, f.Writes ts → ∃ c t, ts = [c :: t] ∧ isBlank c = false ∧
      ∀ cs rest, Closed rest → trim cs = c :: (t ++ rest) → d l cs = .ok (a, rest)) :
    Decodes l d f a := by
  intro ts us writes ends _
  obtain ⟨c, t, rfl, solid, reads⟩ := written ts writes
  rw [flat]
  refine Takes.iff (.at_token solid fun cs rest front more => ?_)
    (iff_of_true trivial (Nat.zero_le _))
  exact .ok (reads cs rest (more.closed ends) front) more

theorem string_decodes (s : String) : Decodes l string (.str s) s := by
  refine .of_scalar rfl fun ts writes => ?_
  cases writes with
  | str quotes =>
    obtain ⟨cs, spells, rfl⟩ := quotes
    refine ⟨_, _, rfl, by decide, fun text rest _ front => ?_⟩
    simp only [string, front]
    exact read_quoted ⟨cs, spells, rfl⟩

theorem bool_decodes (b : Bool) : Decodes l bool (.bool b) b := by
  refine .of_scalar rfl fun ts writes => ?_
  cases writes with
  | true | false =>
    refine ⟨_, _, rfl, by decide, fun text rest _ front => ?_⟩
    simp [bool, front, expect, Functor.map, Except.map]

theorem integer_decodes {v lo hi : Int} (low : lo ≤ v) (high : v ≤ hi)
    (lower : -9223372036854775808 ≤ lo) (upper : hi < 18446744073709551616) :
    Decodes l (integer lo hi) (.int v) v := by
  refine .of_scalar rfl fun ts writes => ?_
  cases writes with
  | int =>
    obtain ⟨c, t, front, first⟩ := integer_head v
    refine ⟨c, t, by rw [front], (signed_unlike first).1, fun text rest closed trimmed => ?_⟩
    have read := numeral_read (Int.le_trans lower low) (Int.lt_of_le_of_lt high upper) closed
    rw [front, List.cons_append] at read
    simp only [integer, trimmed]
    rw [if_pos (show c = '-' ∨ isDigit c = true from first), read]
    simp [low, high]

theorem Decodes.map (g : α → β) (h : Decodes l d f a) :
    Decodes l (fun l => g <$> d l) f (g a) :=
  fun ts us writes ends size => (h ts us writes ends size).map g

theorem int64_decodes (v : Int64) : Decodes l int64 (.int v.toInt) v := by
  have read : Decodes l (integer _ _) (.int v.toInt) v.toInt :=
    integer_decodes v.le_toInt v.toInt_le (by decide) (by decide)
  have whole := read.map Int64.ofInt
  rwa [Int64.ofInt_toInt] at whole

theorem uint64_decodes (v : UInt64) : Decodes l uint64 (.int v.toNat) v := by
  have bound := v.toNat_lt
  have read : Decodes l (integer 0 18446744073709551615) (.int v.toNat) v.toNat :=
    integer_decodes (by omega) (by omega) (by decide) (by decide)
  have whole := read.map fun v => UInt64.ofNat v.toNat
  rw [Int.toNat_natCast, UInt64.ofNat_toNat] at whole
  exact whole

theorem nullable_none : Decodes l (nullable d) .null none := by
  refine .of_scalar rfl fun ts writes => ?_
  cases writes with
  | null =>
    refine ⟨_, _, rfl, by decide, fun text rest _ front => ?_⟩
    simp [nullable, front, expect, Functor.map, Except.map]

theorem nullable_some (h : Decodes l d f a) (other : f ≠ .null) :
    Decodes l (nullable d) f (some a) := by
  intro ts us writes ends size cs spaced
  obtain ⟨c, t, ts, rfl, solid, _, unlike⟩ := writes_head writes
  obtain ⟨rest, front, more⟩ := spaced.trim_token solid
  have same : nullable d l cs = (some <$> d l) (c :: (t ++ rest)) := by
    unfold nullable
    rw [front]
    split
    · rename_i same
      exact absurd (List.cons.inj same).1 (unlike other)
    · rfl
  rw [same]
  exact (h _ us writes ends size).map some _ more.tight

end Scalars

section Lists

variable {parts : List (List Token)} {fs : List Form} {as : List α}

theorem length_following (p : List Token) (ps : List (List Token)) :
    (following (p :: ps)).length = p.length + 1 + (following ps).length := by
  rw [following, List.flatMap_cons, List.length_append, List.length_cons]
  rfl

theorem length_le_separated (h : ∀ p ∈ parts, p ≠ []) :
    parts.length ≤ (separated parts).length := by
  have tail (ps : List (List Token)) : ps.length ≤ (following ps).length := by
    induction ps with
    | nil => exact Nat.le_refl _
    | cons p ps ih =>
      rw [length_following, List.length_cons]
      omega
  cases parts with
  | nil => exact Nat.le_refl _
  | cons p ps =>
    have first := List.length_pos_iff.mpr (h p (by simp))
    have rest := tail ps
    simp only [separated, List.length_append, List.length_cons]
    omega

theorem part_le_separated {p : List Token} (h : p ∈ parts) :
    p.length ≤ (separated parts).length := by
  have tail (ps : List (List Token)) (h : p ∈ ps) : p.length ≤ (following ps).length := by
    induction ps with
    | nil => cases h
    | cons q ps ih =>
      rw [length_following]
      rcases List.mem_cons.mp h with rfl | later
      · omega
      · have := ih later
        omega
  cases parts with
  | nil => cases h
  | cons q ps =>
    rw [separated, List.length_append]
    rcases List.mem_cons.mp h with rfl | later
    · omega
    · have := tail ps later
      omega

theorem items_take {fs : List Form} (read : List.Forall₂ (Decodes l d) fs as)
    (items : Items fs parts) (fits : ∀ p ∈ parts, p.length ≤ l.size) (n : Nat)
    (enough : parts.length < n) (first : Bool) (us : List Token) :
    Takes (Json.items d l n first) (lead first parts ++ [[']']]) us
      (∀ f ∈ fs, f.depth ≤ l.nesting) as := by
  -- along the items; the comma in front of each but the first is what `first` is about
  induction read generalizing parts n first with
  | nil =>
    cases items with
    | nil =>
      obtain ⟨n, rfl⟩ := Nat.exists_eq_succ_of_ne_zero (Nat.ne_of_gt enough)
      have close : Takes (symbol ']' >>= fun _ => pure []) ([[']']] ++ []) us True ([] : List α) :=
        .step (symbol_takes (by decide) us) (.ret [] us)
      have whole : Takes (Json.items d l (n + 1) first) ([] ++ ([[']']] ++ [])) us True [] :=
        .step (moreItems_end first us) close
      have none : lead first [] = [] := by cases first <;> rfl
      rw [none]
      exact whole.iff (iff_of_true trivial (List.forall_mem_nil _))
  | @cons f a fs as one _ ih =>
    cases items with
    | @cons _ _ ts parts writes items =>
      obtain ⟨n, rfl⟩ := Nat.exists_eq_succ_of_ne_zero (Nat.ne_of_gt (Nat.zero_lt_of_lt enough))
      obtain ⟨c, t, ts, rfl, solid, open_, _⟩ := writes_head writes
      have value := one _ (following parts ++ [']'] :: us) writes
        (Skip.ends_following parts (.inl rfl) us) (fits _ (by simp))
      have rest := ih items (fun p hp => fits p (by simp [hp])) n (Nat.lt_of_succ_lt_succ enough)
        false
      have body : Takes (do
          let a ← d l
          let rest ← Json.items d l n false
          pure (a :: rest)) (((c :: t) :: ts) ++ ((following parts ++ [[']']]) ++ [])) us
          (f.depth ≤ l.nesting ∧ (∀ g ∈ fs, g.depth ≤ l.nesting) ∧ True) (a :: as) := by
        refine .bind (by simpa using value) fun _ => .bind ?_ fun _ => .ret _ us
        exact rest
      have same : (f.depth ≤ l.nesting ∧ (∀ g ∈ fs, g.depth ≤ l.nesting) ∧ True) ↔
          ∀ g ∈ f :: fs, g.depth ≤ l.nesting := by
        rw [List.forall_mem_cons, and_true]
      refine Takes.iff ?_ same
      cases first with
      | true =>
        have opened : Takes (moreItems true) []
            ((((c :: t) :: ts) ++ ((following parts ++ [[']']]) ++ [])) ++ us) True true :=
          moreItems_first solid open_ _
        have whole : Takes (Json.items d l (n + 1) true) ([] ++ _) us _ (a :: as) :=
          .step opened body
        simpa [lead, separated] using whole
      | false =>
        have opened : Takes (moreItems false) [[',']]
            ((((c :: t) :: ts) ++ ((following parts ++ [[']']]) ++ [])) ++ us) True true :=
          moreItems_next solid open_ _
        have whole : Takes (Json.items d l (n + 1) false) ([[',']] ++ _) us _ (a :: as) :=
          .step opened body
        simpa [lead, following] using whole

theorem items_nonempty {fs : List Form} (items : Items fs parts) : ∀ p ∈ parts, p ≠ [] := by
  induction fs generalizing parts with
  | nil =>
    cases items with
    | nil => exact List.forall_mem_nil _
  | cons f fs ih =>
    cases items with
    | cons writes items =>
      obtain ⟨c, t, us, rfl, _⟩ := writes_head writes
      exact List.forall_mem_cons.mpr ⟨List.cons_ne_nil _ _, ih items⟩

theorem takes_entered {open_ : Char} {m : Limits → Reader α} {r : Reader α} {deep : Nat}
    (solid : isBlank open_ = false)
    (reads : ∀ cs rest, trim cs = open_ :: rest → r cs = match l.enter with
      | none => .error .malformed
      | some l' => m l' rest)
    (inner : ∀ l', l.enter = some l' → Takes (m l') ts us (deep ≤ l'.nesting) a) :
    Takes r ([open_] :: ts) us (deep + 1 ≤ l.nesting) a := by
  intro cs spaced
  obtain ⟨rest, front, more⟩ := spaced.trim_token solid
  rw [reads cs _ front]
  obtain ⟨nesting, size⟩ := l
  cases nesting with
  | zero => exact ⟨fun fits => absurd fits (Nat.not_succ_le_zero _), fun _ => rfl⟩
  | succ n =>
    obtain ⟨value, refusal⟩ := inner ⟨n, size⟩ rfl rest more
    exact ⟨fun fits => value (Nat.le_of_succ_le_succ fits),
      fun none => refusal fun fits => none (Nat.succ_le_succ fits)⟩

theorem enter_size (h : l.enter = some l') : l'.size = l.size := by
  unfold Limits.enter at h
  split at h <;> cases h
  rfl

theorem list_decodes {fs : List Form}
    (h : ∀ l', l.enter = some l' → List.Forall₂ (Decodes l' d) fs as) :
    Decodes l (list d) (.list fs) as := by
  intro ts us writes ends size
  cases writes with
  | @list _ parts items =>
    simp only [List.singleton_append, List.length_cons, List.length_append] at size
    have reads (cs rest : List Char) (front : trim cs = '[' :: rest) : list d l cs =
        match l.enter with
        | none => .error .malformed
        | some l' => Json.items d l' l'.size true rest := by
      unfold list
      exact front ▸ rfl
    refine takes_entered (by decide) reads fun l' entered => ?_
    have enough := length_le_separated (items_nonempty items)
    have fits (p : List Token) (hp : p ∈ parts) : p.length ≤ l'.size := by
      have := part_le_separated hp
      rw [enter_size entered]
      omega
    refine (items_take (h l' entered) items fits l'.size ?_ true us).iff Form.itemsDepth_le.symm
    rw [enter_size entered]
    omega

end Lists

section Records

variable {F : Fields α} {G : Fields β} {fs gs : List (String × Form)} {b : β} {x : Option α}

/-- The slots that may be there when the fields of these names have been read. -/
structure ReadsAt (l : Limits) (F : Fields α) (fs : List (String × Form)) (a : α)
    (At : List String → F.Slots → Prop) : Prop where
  empty : At [] F.empty
  same : ∀ {done done' slots}, At done slots → (∀ x ∈ fs, x.1 ∈ done ↔ x.1 ∈ done') → At done' slots
  unknown : ∀ {key done slots}, At done slots → key ∉ fs.map Prod.fst →
    F.onKey key slots = .unknown
  known : ∀ {key f done slots}, At done slots → (key, f) ∈ fs → key ∉ done →
    ∃ read slots', F.onKey key slots = .value read ∧ Decodes l read f slots' ∧
      At (key :: done) slots'
  finish : ∀ {done slots}, At done slots → (∀ x ∈ fs, x.2 ≠ .null → x.1 ∈ done) →
    F.finish slots = some a

/-- The reader of fields reads the value off fields of these forms. -/
def Reads (l : Limits) (F : Fields α) (fs : List (String × Form)) (a : α) : Prop :=
  ∃ At, ReadsAt l F fs a At

theorem required_reads {name : String} (h : Decodes l d f a) (other : f ≠ .null) :
    Reads l (.required name d) [(name, f)] a := by
  refine ⟨fun done slot => slot = if name ∈ done then some a else none, ?_⟩
  constructor
  · rfl
  · intro done done' slot there same
    have iff := same (name, f) (by simp)
    simp only [there, iff]
    rfl
  · intro key done slot _ unlike
    have other : key ≠ name := by simpa using unlike
    exact if_neg other
  · intro key g done slot there mem fresh
    cases List.mem_singleton.mp mem
    rw [if_neg fresh] at there
    subst there
    exact ⟨_, some a, if_pos rfl, h.map some, (if_pos List.mem_cons_self).symm⟩
  · intro done slot there all
    rw [if_pos (all _ List.mem_cons_self other)] at there
    exact there

theorem optional_reads {name : String}
    (h : match x with
      | none => f = .null
      | some a => f ≠ .null ∧ Decodes l d f a) : Reads l (.optional name d) [(name, f)] x := by
  refine ⟨fun done slot => slot = if name ∈ done then some x else none, ?_⟩
  have value : Decodes l (nullable d) f x := by
    cases x with
    | none =>
      cases h
      exact nullable_none
    | some a => exact nullable_some h.2 h.1
  constructor
  · rfl
  · intro done done' slot there same
    have iff := same (name, f) (by simp)
    simp only [there, iff]
    rfl
  · intro key done slot _ unlike
    have other : key ≠ name := by simpa using unlike
    exact if_neg other
  · intro key g done slot there mem fresh
    cases List.mem_singleton.mp mem
    rw [if_neg fresh] at there
    subst there
    exact ⟨_, some x, if_pos rfl, value.map some, (if_pos List.mem_cons_self).symm⟩
  · intro done slot there all
    by_cases read : name ∈ done
    · rw [if_pos read] at there
      subst there
      rfl
    · rw [if_neg read] at there
      subst there
      cases x with
      | none => rfl
      | some a => exact absurd (all _ List.mem_cons_self h.1) read

theorem and_reads (h : Reads l F fs a) (h' : Reads l G gs b)
    (apart : ∀ x ∈ fs, ∀ y ∈ gs, x.1 ≠ y.1) : Reads l (F.and G) (fs ++ gs) (a, b) := by
  obtain ⟨At, reads⟩ := h
  obtain ⟨At', reads'⟩ := h'
  refine ⟨fun done slots => At done slots.1 ∧ At' done slots.2, ?_⟩
  constructor
  · exact ⟨reads.empty, reads'.empty⟩
  · intro done done' slots there same
    exact ⟨reads.same there.1 fun x hx => same x (List.mem_append_left _ hx),
      reads'.same there.2 fun x hx => same x (List.mem_append_right _ hx)⟩
  · intro key done slots there unlike
    rw [List.map_append, List.mem_append, not_or] at unlike
    simp [Fields.and, reads.unknown there.1 unlike.1, reads'.unknown there.2 unlike.2]
  · intro key f done slots there mem fresh
    rcases List.mem_append.mp mem with left | right
    · obtain ⟨read, slots', found, decodes, after⟩ := reads.known there.1 left fresh
      refine ⟨_, (slots', slots.2), ?_, decodes.map fun s => (s, slots.2), after, ?_⟩
      · simp only [Fields.and, found]
      refine reads'.same there.2 fun y hy => ?_
      have other := apart _ left y hy
      simp [other.symm]
    · obtain ⟨read, slots', found, decodes, after⟩ := reads'.known there.2 right fresh
      have unlike : key ∉ fs.map Prod.fst := by
        intro mem
        obtain ⟨x, hx, rfl⟩ := List.mem_map.mp mem
        exact apart x hx _ right rfl
      refine ⟨_, (slots.1, slots'), ?_, decodes.map fun s => (slots.1, s), ?_, after⟩
      · simp only [Fields.and, reads.unknown there.1 unlike, found]
      · refine reads.same there.1 fun x hx => ?_
        have other := apart x hx _ right
        simp [other]
  · intro done slots there all
    have first := reads.finish there.1 fun x hx => all x (List.mem_append_left _ hx)
    have second := reads'.finish there.2 fun x hx => all x (List.mem_append_right _ hx)
    simp [Fields.and, first, second]

theorem map_reads (g : α → β) (h : Reads l F fs a) : Reads l (F.map g) fs (g a) := by
  obtain ⟨At, reads⟩ := h
  refine ⟨At, reads.empty, reads.same, reads.unknown, reads.known, fun there all => ?_⟩
  simp [Fields.map, reads.finish there all]

theorem moreKeys_takes {k : String → Reader α} {e : Reader α} {name : String} {key : Token}
    {P : Prop} (quotes : Quotes name key) (first : Bool) (h : Takes (k name) ts us P a) :
    Takes (moreKeys first >>= fun more => if more then Text.read >>= k else e)
      ((if first then [] else [[',']]) ++ key :: ts) us P a := by
  obtain ⟨body, spells, rfl⟩ := quotes
  intro cs spaced
  obtain ⟨rest, entered, more⟩ : ∃ rest,
      moreKeys first cs = .ok (true, body ++ ['"'] ++ rest) ∧ Spaced (ts ++ us) rest := by
    cases first with
    | true =>
      obtain ⟨rest, front, more⟩ := spaced.trim_token (by decide)
      exact ⟨rest, by simp [moreKeys, front], more⟩
    | false =>
      obtain ⟨rest, front, more⟩ := spaced.trim_token (by decide)
      obtain ⟨rest', front', more'⟩ := more.trim_token (by decide)
      exact ⟨rest', by simp [moreKeys, front, front'], more'⟩
  have read : Text.read (body ++ ['"'] ++ rest) = .ok (name, rest) :=
    read_quoted ⟨body, spells, rfl⟩
  have same : (moreKeys first >>= fun more => if more then Text.read >>= k else e) cs =
      k name rest := by
    simp only [Bind.bind, StateT.bind, Except.bind, entered, if_true, read]
  rw [same]
  exact h rest more

section Builders

variable {ε : Type} {δ : Type} {A : Fields α} {B : Fields β} {C : Fields γ} {D : Fields δ}
variable {fa fb fc fd : String × Form} {c : γ} {e : δ}

theorem build1_reads (g : α → ε) (ha : Reads l A [fa] a) : Reads l (.build1 g A) [fa] (g a) :=
  map_reads g ha

theorem build2_reads (g : α → β → ε) (ha : Reads l A [fa] a) (hb : Reads l B [fb] b)
    (names : [fa.1, fb.1].Nodup) : Reads l (.build2 g A B) [fa, fb] (g a b) := by
  have both := and_reads ha hb (by simpa using names)
  exact map_reads (fun x => g x.1 x.2) both

theorem build3_reads (g : α → β → γ → ε) (ha : Reads l A [fa] a) (hb : Reads l B [fb] b)
    (hc : Reads l C [fc] c) (names : [fa.1, fb.1, fc.1].Nodup) :
    Reads l (.build3 g A B C) [fa, fb, fc] (g a b c) := by
  simp only [List.nodup_cons, List.mem_cons, List.not_mem_nil, not_or] at names
  have last := and_reads hb hc (by simp [names])
  exact map_reads (fun x => g x.1 x.2.1 x.2.2) (and_reads ha last (by simp [names]))

theorem build4_reads (g : α → β → γ → δ → ε) (ha : Reads l A [fa] a) (hb : Reads l B [fb] b)
    (hc : Reads l C [fc] c) (hd : Reads l D [fd] e) (names : [fa.1, fb.1, fc.1, fd.1].Nodup) :
    Reads l (.build4 g A B C D) [fa, fb, fc, fd] (g a b c e) := by
  simp only [List.nodup_cons, List.mem_cons, List.not_mem_nil, not_or] at names
  have last := and_reads hc hd (by simp [names])
  have rest := and_reads hb last (by simp [names])
  exact map_reads (fun x => g x.1 x.2.1 x.2.2.1 x.2.2.2) (and_reads ha rest (by simp [names]))

end Builders

variable {At : List String → F.Slots → Prop}

/-- What is left of a record whose fields of these names have been read. -/
structure Left (fs gs : List (String × Form)) (done : List String) : Prop where
  sub : ∀ x ∈ gs, x ∈ fs
  fresh : ∀ x ∈ gs, x.1 ∉ done
  once : (gs.map Prod.fst).Nodup
  all : ∀ x ∈ fs, x.2 ≠ .null → x.1 ∈ done ∨ x ∈ gs

theorem Left.start {omitted : List (String × Form)} (names : (fs.map Prod.fst).Nodup)
    (perm : (gs ++ omitted).Perm fs) (nulls : ∀ x ∈ omitted, x.2 = .null) : Left fs gs [] where
  sub x hx := perm.subset (List.mem_append_left _ hx)
  fresh _ _ := List.not_mem_nil
  once := by
    have once := (perm.map Prod.fst).nodup_iff.mpr names
    rw [List.map_append] at once
    exact (List.nodup_append.mp once).1
  all x hx other := by
    rcases List.mem_append.mp (perm.symm.subset hx) with kept | left
    · exact .inr kept
    · exact absurd (nulls x left) other

theorem Left.next {x : String × Form} {done : List String} (h : Left fs (x :: gs) done) :
    Left fs gs (x.1 :: done) where
  sub y hy := h.sub y (List.mem_cons_of_mem _ hy)
  fresh y hy read := by
    rcases List.mem_cons.mp read with same | old
    · exact (List.nodup_cons.mp h.once).1 (List.mem_map.mpr ⟨y, hy, same⟩)
    · exact h.fresh y (List.mem_cons_of_mem _ hy) old
  once := (List.nodup_cons.mp h.once).2
  all y hy other := by
    rcases h.all y hy other with old | new
    · exact .inl (List.mem_cons_of_mem _ old)
    · rcases List.mem_cons.mp new with rfl | later
      · exact .inl List.mem_cons_self
      · exact .inr later

theorem members_take (reads : ReadsAt l F fs a At) {parts : List (List Token)} {done : List String}
    {slots : F.Slots} (members : Members (fs.map Prod.fst) gs parts) (there : At done slots)
    (left : Left fs gs done) (fits : ∀ p ∈ parts, p.length ≤ l.size)
    (n : Nat) (enough : parts.length < n) (first : Bool) (us : List Token) :
    Takes (F.members l n first slots) (lead first parts ++ [['}']]) us
      (∀ x ∈ gs, x.2.depth ≤ l.nesting) a := by
  -- along the members as written; `done` are the keys whose slots are filled
  induction parts generalizing gs done slots n first with
  | nil =>
    obtain ⟨n, rfl⟩ := Nat.exists_eq_succ_of_ne_zero (Nat.ne_of_gt enough)
    cases members with
    | nil =>
      have finish := reads.finish there fun x hx other =>
        (left.all x hx other).resolve_right (by simp)
      have close : Takes (match F.finish slots with
          | none => refuse .mismatch
          | some a => symbol '}' >>= fun _ => pure a) ([['}']] ++ []) us True a := by
        rw [finish]
        exact .step (symbol_takes (by decide) us) (.ret a us)
      have whole : Takes (F.members l (n + 1) first slots) ([] ++ ([['}']] ++ [])) us True a :=
        .step (moreKeys_end first us) close
      have none : lead first [] = [] := by cases first <;> rfl
      rw [none]
      exact whole.iff (iff_of_true trivial (List.forall_mem_nil _))
  | cons p ps ih =>
    obtain ⟨n, rfl⟩ := Nat.exists_eq_succ_of_ne_zero (Nat.ne_of_gt (Nat.zero_lt_of_lt enough))
    have enough' : ps.length < n := Nat.lt_of_succ_lt_succ enough
    have fits' : ∀ p ∈ ps, p.length ≤ l.size := fun p hp => fits p (by simp [hp])
    have tokens : lead first (p :: ps) ++ [['}']] =
        (if first then [] else [[',']]) ++ (p ++ (following ps ++ [['}']])) := by
      cases first <;> simp [lead, separated, following]
    rw [tokens]
    cases members with
    | @known _ name f gs key ts _ quotes writes members =>
      obtain ⟨read, slots', found, decodes, after⟩ :=
        reads.known there (left.sub (name, f) (by simp)) (left.fresh (name, f) (by simp))
      have size : ts.length ≤ l.size := by
        have := fits (key :: [':'] :: ts) (by simp)
        simp only [List.length_cons] at this
        omega
      have value := decodes ts _ writes (Skip.ends_following ps (.inr rfl) us) size
      have rest := ih members after left.next fits' n enough' false
      have body : Takes (do
          symbol ':'
          let slots ← read l
          F.members l n false slots) ([[':']] ++ (ts ++ (following ps ++ [['}']]))) us
          (f.depth ≤ l.nesting ∧ ∀ x ∈ gs, x.2.depth ≤ l.nesting) a := by
        refine .step (symbol_takes (by decide) _) (.bind ?_ fun _ => rest)
        simpa using value
      rw [List.forall_mem_cons]
      refine moreKeys_takes quotes first ?_
      simp only [found]
      exact body
    | @unknown _ name _ key ts _ quotes unlike sound members =>
      have skipped := reads.unknown there unlike
      have rest := ih members there left fits' n enough' false
      have value := Skip.value_takes sound (Skip.ends_following ps (.inr rfl) us)
      have body : Takes (do
          symbol ':'
          Skip.value
          F.members l n false slots) ([[':']] ++ (ts ++ (following ps ++ [['}']]))) us
          (∀ x ∈ gs, x.2.depth ≤ l.nesting) a := by
        have skip : Takes Skip.value ts ((following ps ++ [['}']]) ++ us) True () := by
          simpa using value
        exact .step (symbol_takes (by decide) _) (.step skip rest)
      refine moreKeys_takes quotes first ?_
      simp only [skipped]
      exact body

theorem members_nonempty {names : List String} {parts : List (List Token)}
    (members : Members names gs parts) : ∀ p ∈ parts, p ≠ [] := by
  induction parts generalizing gs with
  | nil => exact List.forall_mem_nil _
  | cons p ps ih =>
    cases members with
    | known _ _ members => exact List.forall_mem_cons.mpr ⟨List.cons_ne_nil _ _, ih members⟩
    | unknown _ _ _ members => exact List.forall_mem_cons.mpr ⟨List.cons_ne_nil _ _, ih members⟩

/-- A record is read with its keys in any order and other keys among them. -/
theorem record_decodes (names : (fs.map Prod.fst).Nodup)
    (h : ∀ l', l.enter = some l' → Reads l' F fs a) : Decodes l (record F) (.record fs) a := by
  intro ts us writes ends size
  cases writes with
  | @record _ gs omitted parts perm nulls members =>
    simp only [List.singleton_append, List.length_cons, List.length_append] at size
    have reads (cs rest : List Char) (front : trim cs = '{' :: rest) : record F l cs =
        match l.enter with
        | none => .error .malformed
        | some l' => F.members l' l'.size true F.empty rest := by
      unfold record
      exact front ▸ rfl
    refine takes_entered (by decide) reads fun l' entered => ?_
    obtain ⟨At, fields⟩ := h l' entered
    have enough := length_le_separated (members_nonempty members)
    have fits (p : List Token) (hp : p ∈ parts) : p.length ≤ l'.size := by
      have := part_le_separated hp
      rw [enter_size entered]
      omega
    have whole := members_take fields members fields.empty (.start names perm nulls) fits l'.size
      (by rw [enter_size entered]; omega) true us
    exact whole.iff ((Form.written_depth_le perm nulls).symm.trans
      (Form.record_depth_le.trans Form.membersDepth_le.symm))

end Records

section Variants

variable {vs : List (Variant α)} {v : Variant α} {name : String}

theorem quoted_takes {k : String → Reader α} {key : Token} {P : Prop} (quotes : Quotes name key)
    (h : Takes (k name) ts us P a) :
    Takes (symbol '"' >>= fun _ => Text.read >>= k) (key :: ts) us P a := by
  obtain ⟨body, spells, rfl⟩ := quotes
  intro cs spaced
  obtain ⟨rest, front, more⟩ := spaced.trim_token (by decide)
  have entered : symbol '"' cs = .ok ((), body ++ ['"'] ++ rest) := by simp [symbol, front]
  have read : Text.read (body ++ ['"'] ++ rest) = .ok (name, rest) :=
    read_quoted ⟨body, spells, rfl⟩
  have same : (symbol '"' >>= fun _ => Text.read >>= k) cs = k name rest := by
    simp only [Bind.bind, StateT.bind, Except.bind, entered, read]
  rw [same]
  exact h rest more

theorem oneOf_object {cs rest : List Char} (front : trim cs = '{' :: rest) : oneOf vs l cs =
    match l.enter with
    | none => .error .malformed
    | some l => (do
      symbol '"'
      let name ← Text.read
      match vs.find? fun v => v.name == name with
      | none => refuse .mismatch
      | some v =>
        symbol ':'
        let a ← v.payload l
        symbol '}'
        pure a : Reader α) rest := by
  unfold oneOf
  exact front ▸ rfl

/-- A variant is read by the reader of its content. -/
theorem oneOf_decodes (found : (vs.find? fun v => v.name == name) = some v)
    (h : ∀ l', l.enter = some l' → Decodes l' v.payload f a) :
    Decodes l (oneOf vs) (.variant name f) a := by
  intro ts us writes ends size
  cases writes with
  | @variant _ key _ ts quotes writes =>
    simp only [List.cons_append, List.length_cons, List.length_append] at size
    rw [Form.variant_depth]
    refine takes_entered (by decide) (fun _ _ => oneOf_object) fun l' entered => ?_
    have content := h l' entered ts ([['}']] ++ us) writes (by simp [Ends])
      (by rw [enter_size entered]; omega)
    have body : Takes (do
        symbol ':'
        let a ← v.payload l'
        symbol '}'
        pure a) ([[':']] ++ (ts ++ ([['}']] ++ []))) us (f.depth ≤ l'.nesting) a := by
      refine .step (symbol_takes (by decide) _) ?_
      have rest : Takes (symbol '}' >>= fun _ => pure a) ([['}']] ++ []) us True a :=
        .step (symbol_takes (by decide) us) (.ret a us)
      exact (content.bind fun _ => rest).iff (Iff.of_eq (and_true _))
    refine quoted_takes quotes ?_
    simp only [found]
    exact body

theorem oneOf_alone (found : (vs.find? fun v => v.name == name).bind Variant.alone = some a) :
    Decodes l (oneOf vs) (.str name) a := by
  refine .of_scalar rfl fun ts writes => ?_
  cases writes with
  | str quotes =>
    obtain ⟨cs, spells, rfl⟩ := quotes
    refine ⟨_, _, rfl, by decide, fun text rest _ front => ?_⟩
    have read : Text.read (cs ++ ['"'] ++ rest) = .ok (name, rest) := read_quoted ⟨cs, spells, rfl⟩
    simp only [oneOf, front, show ('"' = '{') = False by decide, if_false, if_true, read, found]

end Variants

end ClassBackend.Json
