import ClassBackend.Json.Skip
import ClassBackend.Proofs.Json.Spelling

/-! JSON texts of any form, by the grammar of the format. Whatever derives from it is skipped, at
any depth, and nothing behind it. -/
namespace ClassBackend.Json

inductive Literal : List Char → Prop
  | nil : Literal []
  | plain {c : Char} {t : List Char} :
    c ≠ '"' → c ≠ '\\' → ' ' ≤ c → Literal t → Literal (c :: t)
  | short {e : Char} {t : List Char} :
    e ∈ ['"', '\\', '/', 'b', 'f', 'n', 'r', 't'] → Literal t → Literal ('\\' :: e :: t)
  | unit {a b c d : Char} {t : List Char} :
    (∀ h ∈ [a, b, c, d], h ∈ "0123456789abcdefABCDEF".toList) → Literal t →
    Literal ('\\' :: 'u' :: a :: b :: c :: d :: t)

def Digits (ds : List Char) : Prop := ds ≠ [] ∧ ∀ c ∈ ds, c ∈ "0123456789".toList

inductive Integral : List Char → Prop
  | zero : Integral ['0']
  | digits {c : Char} {ds : List Char} : c ≠ '0' → Digits (c :: ds) → Integral (c :: ds)

inductive Fractional : List Char → Prop
  | none : Fractional []
  | digits {ds : List Char} : Digits ds → Fractional ('.' :: ds)

inductive Exponential : List Char → Prop
  | none : Exponential []
  | digits {e : Char} {sign ds : List Char} : e ∈ ['e', 'E'] → sign ∈ [[], ['+'], ['-']] →
    Digits ds → Exponential (e :: (sign ++ ds))

inductive Numeric : Token → Prop
  | of {sign whole fraction exponent : List Char} : sign ∈ [[], ['-']] → Integral whole →
    Fractional fraction → Exponential exponent → Numeric (sign ++ (whole ++ (fraction ++ exponent)))

def words : List Token := [['n', 'u', 'l', 'l'], ['t', 'r', 'u', 'e'], ['f', 'a', 'l', 's', 'e']]

def member (m : List Char × List Token) : List Token := ('"' :: (m.1 ++ ['"'])) :: [':'] :: m.2

inductive Sound : List Token → Prop
  | word {t : Token} : t ∈ words → Sound [t]
  | number {t : Token} : Numeric t → Sound [t]
  | text {t : List Char} : Literal t → Sound ['"' :: (t ++ ['"'])]
  | array {parts : List (List Token)} : (∀ p ∈ parts, Sound p) →
    Sound ([['[']] ++ separated parts ++ [[']']])
  | object {members : List (List Char × List Token)} :
    (∀ m ∈ members, Literal m.1) → (∀ m ∈ members, Sound m.2) →
    Sound ([['{']] ++ separated (members.map member) ++ [['}']])

namespace Skip

def settle : List Bracket → List Char → Except Refusal (List Char)
  | [], cs => .ok cs
  | stack, cs => run stack .separator cs

variable {stack : List Bracket} {b cs : List Char} {c : Char} {t : Token} {ts us : List Token}

section Numbers

theorem isDigit_of_mem : ∀ c ∈ "0123456789".toList, isDigit c = true :=
  List.all_eq_true.mp (by decide)

theorem digit_unlike : ∀ c ∈ "0123456789".toList,
    isBlank c = false ∧ c ≠ '"' ∧ c ≠ '[' ∧ c ≠ '{' ∧ c ≠ '-' ∧ c ≠ ']' := by
  have all : "0123456789".toList.all (fun c => !isBlank c && c != '"' && c != '[' && c != '{' &&
      c != '-' && c != ']') = true := by decide
  simpa [and_assoc] using List.all_eq_true.mp all

theorem run_go {stack' : List Bracket} {mode mode' : Mode}
    (h : step stack mode c cs = .go stack' mode') :
    run stack mode (c :: cs) = run stack' mode' cs := by
  rw [run, h]

theorem run_ended {stack' : List Bracket} {mode : Mode} (h : step stack' mode c cs = ended stack) :
    run stack' mode (c :: cs) = settle stack cs := by
  rw [run, h]
  cases stack <;> rfl

theorem run_numeral {mode : Mode} (h : mode ∈ [.zero, .digits, .fraction, .exponentDigits])
    (stack : List Bracket) (closed : Closed cs) : run stack mode cs = settle stack cs := by
  cases cs with
  | nil =>
    simp only [List.mem_cons, List.not_mem_nil, or_false] at h
    obtain rfl | rfl | rfl | rfl := h
    all_goals cases stack <;> rfl
  | cons c cs =>
    obtain ⟨digit, point, small, large⟩ := closed.head
    have same : step stack mode c cs = separatorStep stack c := by
      simp only [List.mem_cons, List.not_mem_nil, or_false] at h
      obtain rfl | rfl | rfl | rfl := h
      all_goals simp [step, numeralStep, digit, point, small, large]
    rw [run, same]
    cases stack <;> rfl

theorem run_digits {mode : Mode} (h : mode ∈ [.digits, .fraction, .exponentDigits]) {ds : List Char}
    (digits : ∀ c ∈ ds, c ∈ "0123456789".toList) (cs : List Char) :
    run stack mode (ds ++ cs) = run stack mode cs := by
  induction ds with
  | nil => rfl
  | cons c ds ih =>
    have digit := isDigit_of_mem c (digits c (by simp))
    have same : step stack mode c (ds ++ cs) = .go stack mode := by
      simp only [List.mem_cons, List.not_mem_nil, or_false] at h
      obtain rfl | rfl | rfl := h
      all_goals simp [step, digit]
    rw [List.cons_append, run_go same]
    exact ih fun d hd => digits d (by simp [hd])

theorem run_digitStep {mode : Mode} (next : Mode) (h : next ∈ [.digits, .fraction, .exponentDigits])
    {ds : List Char} (digits : Digits ds)
    (first : ∀ c s, isDigit c = true → step stack mode c s = .go stack next) (closed : Closed cs) :
    run stack mode (ds ++ cs) = settle stack cs := by
  obtain ⟨some, all⟩ := digits
  cases ds with
  | nil => exact absurd rfl some
  | cons c ds =>
    rw [List.cons_append, run_go (first c _ (isDigit_of_mem c (all c (by simp)))),
      run_digits h fun d hd => all d (by simp [hd])]
    exact run_numeral (List.mem_cons_of_mem _ h) stack closed

theorem run_exponent {mode : Mode} (h : mode ∈ [.zero, .digits, .fraction]) {exponent : List Char}
    (grammar : Exponential exponent) (closed : Closed cs) :
    run stack mode (exponent ++ cs) = settle stack cs := by
  cases grammar with
  | none => exact run_numeral (List.mem_append_left [.exponentDigits] h) stack closed
  | @digits e sign ds letter signed digits =>
    have marked : step stack mode e (sign ++ ds ++ cs) = .go stack .exponent := by
      simp only [List.mem_cons, List.not_mem_nil, or_false] at h letter
      obtain rfl | rfl | rfl := h
      all_goals obtain rfl | rfl := letter <;> rfl
    rw [List.cons_append, run_go marked]
    simp only [List.mem_cons, List.not_mem_nil, or_false] at signed
    obtain rfl | rfl | rfl := signed
    · refine run_digitStep .exponentDigits (by simp) digits (fun c s digit => ?_) closed
      have other : c ≠ '+' ∧ c ≠ '-' := by
        constructor
        all_goals
          rintro rfl
          cases digit
      simp [step, digitStep, digit, other]
    all_goals
      rw [List.singleton_append, List.cons_append,
        run_go (show step stack .exponent _ _ = .go stack .exponentSign from rfl)]
      exact run_digitStep .exponentDigits (by simp) digits
        (fun c s digit => by simp [step, digitStep, digit]) closed

theorem run_fraction {mode : Mode} (h : mode ∈ [.zero, .digits]) {fraction exponent : List Char}
    (grammar : Fractional fraction) (grammar' : Exponential exponent) (closed : Closed cs) :
    run stack mode (fraction ++ (exponent ++ cs)) = settle stack cs := by
  cases grammar with
  | none => exact run_exponent (List.mem_append_left [.fraction] h) grammar' closed
  | @digits ds digits =>
    have marked : step stack mode '.' (ds ++ (exponent ++ cs)) = .go stack .point := by
      simp only [List.mem_cons, List.not_mem_nil, or_false] at h
      obtain rfl | rfl := h <;> rfl
    obtain ⟨some, all⟩ := digits
    cases ds with
    | nil => exact absurd rfl some
    | cons c ds =>
      have digit := isDigit_of_mem c (all c (by simp))
      have counted : step stack .point c (ds ++ (exponent ++ cs)) = .go stack .fraction := by
        simp [step, digitStep, digit]
      rw [List.cons_append, run_go marked, List.cons_append, run_go counted,
        run_digits (by simp) fun d hd => all d (by simp [hd])]
      exact run_exponent (by simp) grammar' closed

theorem run_whole {mode : Mode} (h : mode ∈ [.value, .minus]) {whole fraction exponent : List Char}
    (grammar : Integral whole) (grammar' : Fractional fraction) (grammar'' : Exponential exponent)
    (closed : Closed cs) :
    run stack mode (whole ++ (fraction ++ (exponent ++ cs))) = settle stack cs := by
  simp only [List.mem_cons, List.not_mem_nil, or_false] at h
  cases grammar with
  | zero =>
    have marked (s : List Char) : step stack mode '0' s = .go stack .zero := by
      obtain rfl | rfl := h <;> rfl
    rw [List.singleton_append, run_go (marked _)]
    exact run_fraction (by simp) grammar' grammar'' closed
  | @digits c ds lead digits =>
    have digit := isDigit_of_mem c (digits.2 c (by simp))
    have marked (s : List Char) : step stack mode c s = .go stack .digits := by
      have other := digit_unlike c (digits.2 c (by simp))
      obtain rfl | rfl := h
      all_goals simp [step, valueStep, digitStep, digit, lead, other]
    rw [List.cons_append, run_go (marked _),
      run_digits (by simp) fun d hd => digits.2 d (by simp [hd])]
    exact run_fraction (by simp) grammar' grammar'' closed

theorem run_numeric (h : Numeric t) (closed : Closed cs) :
    run stack .value (t ++ cs) = settle stack cs := by
  cases h with
  | @of sign whole fraction exponent signed grammar grammar' grammar'' =>
    simp only [List.mem_cons, List.not_mem_nil, or_false] at signed
    simp only [List.append_assoc]
    obtain rfl | rfl := signed
    · exact run_whole (by simp) grammar grammar' grammar'' closed
    · rw [List.singleton_append,
        run_go (show step stack .value '-' _ = .go stack .minus from rfl)]
      exact run_whole (by simp) grammar grammar' grammar'' closed

end Numbers

section Literals

theorem hexValue_isSome : ∀ c ∈ "0123456789abcdefABCDEF".toList, (hexValue? c).isNone = false := by
  have all : "0123456789abcdefABCDEF".toList.all (fun c => (hexValue? c).isSome) = true := by decide
  simpa using List.all_eq_true.mp all

theorem run_literal (h : Literal t) (isKey : Bool) (cs : List Char) :
    run stack (.literal isKey) (t ++ '"' :: cs) = run stack (.literal isKey) ('"' :: cs) := by
  induction h with
  | nil => rfl
  | @plain c t quote slash printable _ ih =>
    have marked : step stack (.literal isKey) c (t ++ '"' :: cs) = .go stack (.literal isKey) := by
      simp [step, literalStep, quote, slash, Char.not_lt.mpr printable]
    rw [List.cons_append, run_go marked, ih]
  | @short e t escaped _ ih =>
    have all : ['"', '\\', '/', 'b', 'f', 'n', 'r', 't'].all
        (fun e => e != 'u' && (unescape? e).isSome) = true := by decide
    have known := List.all_eq_true.mp all e escaped
    simp only [Bool.and_eq_true, bne_iff_ne] at known
    obtain ⟨other, known⟩ := known
    have marked : step stack (.literal isKey) '\\' (e :: (t ++ '"' :: cs)) =
        .go stack (.escape isKey) := rfl
    have taken : step stack (.escape isKey) e (t ++ '"' :: cs) = .go stack (.literal isKey) := by
      simp [step, other, known]
    rw [List.cons_append, List.cons_append, run_go marked, run_go taken, ih]
  | @unit a b c d t digits _ ih =>
    have digit (x : Char) (hx : x ∈ [a, b, c, d]) := hexValue_isSome x (digits x hx)
    have marked : step stack (.literal isKey) '\\' ('u' :: a :: b :: c :: d :: (t ++ '"' :: cs)) =
        .go stack (.escape isKey) := rfl
    have started : step stack (.escape isKey) 'u' (a :: b :: c :: d :: (t ++ '"' :: cs)) =
        .go stack (.hex isKey 4) := by
      simp [step, tooShort_four]
    have counted (x : Char) (hx : x ∈ [a, b, c, d]) (n : Nat) (s : List Char) :
        step stack (.hex isKey (n + 2)) x s = .go stack (.hex isKey (n + 1)) := by
      simp [step, digit x hx]
    have last : step stack (.hex isKey 1) d (t ++ '"' :: cs) = .go stack (.literal isKey) := by
      simp [step, digit d (by simp)]
    simp only [List.cons_append]
    rw [run_go marked, run_go started, run_go (counted a (by simp) 2 _),
      run_go (counted b (by simp) 1 _), run_go (counted c (by simp) 0 _), run_go last, ih]

end Literals

section Containers

theorem run_blank {mode : Mode} (h : ∀ c s, isBlank c = true → step stack mode c s = .go stack mode)
    (blank : Blank b) (cs : List Char) : run stack mode (b ++ cs) = run stack mode cs := by
  induction b with
  | nil => rfl
  | cons c b ih =>
    rw [List.cons_append, run_go (h c _ (blank c (by simp)))]
    exact ih fun d hd => blank d (by simp [hd])

theorem run_spaced {mode : Mode}
    (h : ∀ c s, isBlank c = true → step stack mode c s = .go stack mode)
    (spaced : Spaced (t :: ts) cs) :
    ∃ rest, run stack mode cs = run stack mode (t ++ rest) ∧ Spaced ts rest := by
  cases spaced with
  | @token b rest _ _ _ blank more => exact ⟨rest, run_blank h blank _, more⟩

theorem blank_value (c : Char) (s : List Char) (h : isBlank c = true) :
    step stack .value c s = .go stack .value := by
  simp [step, valueStep, h]

theorem blank_first (stack : List Bracket) (bracket : Bracket) (c : Char) (s : List Char)
    (h : isBlank c = true) :
    step stack (.first bracket) c s = .go stack (.first bracket) := by
  simp [step, firstStep, h]

theorem blank_key (c : Char) (s : List Char) (h : isBlank c = true) :
    step stack .key c s = .go stack .key := by
  simp [step, keyStep, h]

theorem blank_colon (stack : List Bracket) (c : Char) (s : List Char) (h : isBlank c = true) :
    step stack .colon c s = .go stack .colon := by
  simp [step, h]

theorem blank_separator (bracket : Bracket) (c : Char) (s : List Char) (h : isBlank c = true) :
    step (bracket :: stack) .separator c s = .go (bracket :: stack) .separator := by
  simp [step, separatorStep, h]

/-- The skipper passes over these tokens wherever a value may stand. -/
def Passes (ts : List Token) : Prop := ∀ stack us cs, Ends us → Spaced (ts ++ us) cs →
  ∃ rest, run stack .value cs = settle stack rest ∧ Spaced us rest

theorem passes_one (h : ∀ stack cs, Closed cs → run stack .value (t ++ cs) = settle stack cs) :
    Passes [t] := by
  intro stack us cs ends spaced
  obtain ⟨rest, same, more⟩ := run_spaced blank_value spaced
  exact ⟨rest, same.trans (h stack rest (more.closed ends)), more⟩

theorem passes_word (h : t ∈ words) : Passes [t] := by
  apply passes_one
  intro stack cs _
  simp only [words, List.mem_cons, List.not_mem_nil, or_false] at h
  obtain rfl | rfl | rfl := h
  all_goals cases stack <;> rfl

theorem passes_text {t : List Char} (h : Literal t) : Passes ['"' :: (t ++ ['"'])] := by
  apply passes_one
  intro stack cs _
  rw [List.cons_append, List.append_assoc, List.singleton_append,
    run_go (show step stack .value '"' _ = .go stack (.literal false) from rfl),
    run_literal h, run_ended (show step stack (.literal false) '"' cs = ended stack from rfl)]

theorem ends_following (parts : List (List Token)) {close : Token}
    (h : close = [']'] ∨ close = ['}']) (us : List Token) :
    Ends (following parts ++ close :: us) := by
  intro t ht
  cases parts with
  | nil =>
    cases ht
    obtain rfl | rfl := h <;> simp
  | cons p ps =>
    cases ht
    exact .inl rfl

theorem run_items {parts : List (List Token)} (h : ∀ p ∈ parts, Passes p)
    (stack : List Bracket) (us : List Token) {cs : List Char}
    (spaced : Spaced (following parts ++ [']'] :: us) cs) :
    ∃ rest, run (.array :: stack) .separator cs = settle stack rest ∧ Spaced us rest := by
  induction parts generalizing cs with
  | nil =>
    obtain ⟨rest, same, more⟩ := run_spaced (blank_separator .array) spaced
    exact ⟨rest, same.trans (run_ended rfl), more⟩
  | cons p ps ih =>
    have front : following (p :: ps) ++ [']'] :: us =
        [','] :: (p ++ (following ps ++ [']'] :: us)) := by
      simp [following]
    rw [front] at spaced
    obtain ⟨rest, same, more⟩ := run_spaced (blank_separator .array) spaced
    obtain ⟨rest', item, more'⟩ := h p (by simp) (.array :: stack) _ rest
      (ends_following ps (.inl rfl) us) more
    obtain ⟨rest'', items, more''⟩ := ih (fun q hq => h q (by simp [hq])) more'
    exact ⟨rest'', same.trans (.trans (run_go rfl) (item.trans items)), more''⟩

theorem run_member {m : List Char × List Token} (key : Literal m.1) (value : Passes m.2)
    (stack : List Bracket) {us : List Token} {cs : List Char} (ends : Ends us)
    (spaced : Spaced (member m ++ us) cs) :
    ∃ rest, run stack .key cs = settle stack rest ∧ Spaced us rest := by
  obtain ⟨rest, same, more⟩ := run_spaced blank_key spaced
  obtain ⟨rest', same', more'⟩ := run_spaced (blank_colon stack) more
  obtain ⟨rest'', same'', more''⟩ := value stack us rest' ends more'
  refine ⟨rest'', ?_, more''⟩
  rw [same, List.cons_append, List.append_assoc, List.singleton_append,
    run_go (show step stack .key '"' _ = .go stack (.literal true) from rfl), run_literal key,
    run_go (show step stack (.literal true) '"' _ = .go stack .colon from rfl), same',
    List.singleton_append, run_go (show step stack .colon ':' _ = .go stack .value from rfl),
    same'']

theorem run_members {ms : List (List Char × List Token)} (keys : ∀ m ∈ ms, Literal m.1)
    (values : ∀ m ∈ ms, Passes m.2) (stack : List Bracket) (us : List Token) {cs : List Char}
    (spaced : Spaced (following (ms.map member) ++ ['}'] :: us) cs) :
    ∃ rest, run (.object :: stack) .separator cs = settle stack rest ∧ Spaced us rest := by
  induction ms generalizing cs with
  | nil =>
    obtain ⟨rest, same, more⟩ := run_spaced (blank_separator .object) spaced
    exact ⟨rest, same.trans (run_ended rfl), more⟩
  | cons m ms ih =>
    have front : following ((m :: ms).map member) ++ ['}'] :: us =
        [','] :: (member m ++ (following (ms.map member) ++ ['}'] :: us)) := by
      simp [following]
    rw [front] at spaced
    obtain ⟨rest, same, more⟩ := run_spaced (blank_separator .object) spaced
    obtain ⟨rest', item, more'⟩ := run_member (keys m (by simp)) (values m (by simp))
      (.object :: stack) (ends_following _ (.inr rfl) us) more
    obtain ⟨rest'', items, more''⟩ := ih (fun m hm => keys m (by simp [hm]))
      (fun m hm => values m (by simp [hm])) more'
    exact ⟨rest'', same.trans (.trans (run_go rfl) (item.trans items)), more''⟩

theorem passes_array {parts : List (List Token)}
    (heads : ∀ p ∈ parts, ∃ c t ts, p = (c :: t) :: ts ∧ isBlank c = false ∧ c ≠ ']')
    (h : ∀ p ∈ parts, Passes p) : Passes ([['[']] ++ separated parts ++ [[']']]) := by
  intro stack us cs ends spaced
  simp only [List.append_assoc, List.cons_append, List.nil_append] at spaced
  obtain ⟨rest, same, more⟩ := run_spaced blank_value spaced
  have blanks (c : Char) (s : List Char) := blank_first (.array :: stack) .array c s
  have entered : run stack .value (['['] ++ rest) =
      run (.array :: stack) (.first .array) rest :=
    run_go rfl
  cases parts with
  | nil =>
    obtain ⟨rest', same', more'⟩ := run_spaced blanks more
    exact ⟨rest', same.trans (entered.trans (same'.trans (run_ended rfl))), more'⟩
  | cons p ps =>
    obtain ⟨c, t, ts, rfl, solid, open_⟩ := heads p (by simp)
    simp only [separated, List.append_assoc, List.cons_append] at more
    obtain ⟨rest', same', more'⟩ := run_spaced blanks more
    have value : run (.array :: stack) (.first .array) (c :: t ++ rest') =
        run (.array :: stack) .value (c :: t ++ rest') := by
      rw [List.cons_append, run, run]
      simp [step, firstStep, solid, open_]
    obtain ⟨rest'', item, more''⟩ := h ((c :: t) :: ts) (by simp) (.array :: stack) _ _
      (ends_following ps (.inl rfl) us) more'.tight
    obtain ⟨rest₃, items, more₃⟩ := run_items (fun q hq => h q (by simp [hq])) stack us more''
    exact ⟨rest₃, same.trans (entered.trans (same'.trans (value.trans (item.trans items)))), more₃⟩

theorem passes_object {ms : List (List Char × List Token)} (keys : ∀ m ∈ ms, Literal m.1)
    (values : ∀ m ∈ ms, Passes m.2) :
    Passes ([['{']] ++ separated (ms.map member) ++ [['}']]) := by
  intro stack us cs ends spaced
  simp only [List.append_assoc, List.cons_append, List.nil_append] at spaced
  obtain ⟨rest, same, more⟩ := run_spaced blank_value spaced
  have blanks (c : Char) (s : List Char) := blank_first (.object :: stack) .object c s
  have entered : run stack .value (['{'] ++ rest) =
      run (.object :: stack) (.first .object) rest :=
    run_go rfl
  cases ms with
  | nil =>
    obtain ⟨rest', same', more'⟩ := run_spaced blanks more
    exact ⟨rest', same.trans (entered.trans (same'.trans (run_ended rfl))), more'⟩
  | cons m ms =>
    simp only [List.map_cons, separated, member, List.append_assoc, List.cons_append] at more
    obtain ⟨rest', same', more'⟩ := run_spaced blanks more
    have key (s : List Char) : run (.object :: stack) (.first .object) ('"' :: s) =
        run (.object :: stack) .key ('"' :: s) := rfl
    obtain ⟨rest'', item, more''⟩ := run_member (keys m (by simp)) (values m (by simp))
      (.object :: stack) (ends_following _ (.inr rfl) us) more'.tight
    obtain ⟨rest₃, items, more₃⟩ := run_members (fun m hm => keys m (by simp [hm]))
      (fun m hm => values m (by simp [hm])) stack us more''
    have whole := (key _).trans (item.trans items)
    exact ⟨rest₃, same.trans (entered.trans (same'.trans whole)), more₃⟩

end Containers

theorem sound_head (h : Sound ts) :
    ∃ c t us, ts = (c :: t) :: us ∧ isBlank c = false ∧ c ≠ ']' := by
  have digit (c : Char) (h : c ∈ "0123456789".toList) : isBlank c = false ∧ c ≠ ']' :=
    have unlike := digit_unlike c h
    ⟨unlike.1, unlike.2.2.2.2.2⟩
  cases h with
  | word known =>
    simp only [words, List.mem_cons, List.not_mem_nil, or_false] at known
    obtain rfl | rfl | rfl := known
    all_goals exact ⟨_, _, [], rfl, by decide, by decide⟩
  | number numeric =>
    cases numeric with
    | of signed whole =>
      simp only [List.mem_cons, List.not_mem_nil, or_false] at signed
      obtain rfl | rfl := signed
      · cases whole with
        | zero => exact ⟨_, _, [], rfl, by decide, by decide⟩
        | digits _ ds => exact ⟨_, _, [], rfl, digit _ (ds.2 _ (by simp))⟩
      · exact ⟨_, _, [], rfl, by decide, by decide⟩
  | text | array | object => exact ⟨_, _, _, rfl, by decide, by decide⟩

theorem sound_passes (h : Sound ts) : Passes ts := by
  induction h with
  | word known => exact passes_word known
  | number numeric => exact passes_one fun _ _ closed => run_numeric numeric closed
  | text literal => exact passes_text literal
  | array items ih => exact passes_array (fun p hp => sound_head (items p hp)) ih
  | object keys _ ih => exact passes_object keys ih

/-- A sound value is skipped, however deeply it nests. -/
theorem value_takes (h : Sound ts) (ends : Ends us) : Takes Skip.value ts us True () := by
  intro cs spaced
  obtain ⟨rest, same, more⟩ := sound_passes h [] us cs ends spaced
  refine .ok ?_ more
  rw [Skip.value, same]
  rfl

end Skip

end ClassBackend.Json
