import ClassBackend.Proofs.Json.Sound

/-! The form of a JSON value that is written for a typed one. It tells a record, to whose object
keys may be added, from a variant, whose object has its name as the only key. A form can be written
in many ways, and one of them is the compact text of its value. -/
namespace ClassBackend.Json

inductive Form where
  | null
  | bool (b : Bool)
  | int (v : Int)
  | str (s : String)
  | list (items : List Form)
  | record (fields : List (String × Form))
  | variant (name : String) (content : Form)

namespace Value

mutual

/-- How many arrays and objects are open at once. -/
def depth : Value → Nat
  | .null | .bool _ | .int _ | .str _ => 0
  | .arr vs => itemsDepth vs + 1
  | .obj ms => membersDepth ms + 1

def itemsDepth : List Value → Nat
  | [] => 0
  | v :: vs => max (depth v) (itemsDepth vs)

def membersDepth : List (String × Value) → Nat
  | [] => 0
  | (_, v) :: ms => max (depth v) (membersDepth ms)

end

end Value

namespace Form

mutual

def toValue : Form → Value
  | .null => .null
  | .bool b => .bool b
  | .int v => .int v
  | .str s => .str s
  | .list fs => .arr (itemValues fs)
  | .record fs => .obj (fieldValues fs)
  | .variant name f => .obj [(name, toValue f)]

def itemValues : List Form → List Value
  | [] => []
  | f :: fs => toValue f :: itemValues fs

def fieldValues : List (String × Form) → List (String × Value)
  | [] => []
  | (name, f) :: fs => (name, toValue f) :: fieldValues fs

end

abbrev depth (f : Form) : Nat := f.toValue.depth

mutual

/-- The tokens that may be written for a form. The fields of a record come in any order, those that
are null may be left out, and other keys may stand among them. -/
inductive Writes : Form → List Token → Prop
  | null : Writes .null [['n', 'u', 'l', 'l']]
  | true : Writes (.bool true) [['t', 'r', 'u', 'e']]
  | false : Writes (.bool false) [['f', 'a', 'l', 's', 'e']]
  | int (v : Int) : Writes (.int v) [(toString v).toList]
  | str {s : String} {t : Token} : Quotes s t → Writes (.str s) [t]
  | list {fs : List Form} {parts : List (List Token)} : Items fs parts →
    Writes (.list fs) ([['[']] ++ separated parts ++ [[']']])
  | record {fs gs omitted : List (String × Form)} {parts : List (List Token)} :
    (gs ++ omitted).Perm fs → (∀ x ∈ omitted, x.2 = .null) →
    Members (fs.map Prod.fst) gs parts →
    Writes (.record fs) ([['{']] ++ separated parts ++ [['}']])
  | variant {name : String} {key : Token} {f : Form} {ts : List Token} : Quotes name key →
    Writes f ts → Writes (.variant name f) ([['{']] ++ (key :: [':'] :: ts) ++ [['}']])

inductive Items : List Form → List (List Token) → Prop
  | nil : Items [] []
  | cons {f : Form} {fs : List Form} {ts : List Token} {parts : List (List Token)} :
    Writes f ts → Items fs parts → Items (f :: fs) (ts :: parts)

/-- The fields, and other members between them. These names are those of the record's fields. -/
inductive Members : List String → List (String × Form) → List (List Token) → Prop
  | nil {names : List String} : Members names [] []
  | known {names : List String} {name : String} {f : Form} {fs : List (String × Form)} {key : Token}
    {ts : List Token} {parts : List (List Token)} : Quotes name key → Writes f ts →
    Members names fs parts → Members names ((name, f) :: fs) ((key :: [':'] :: ts) :: parts)
  | unknown {names : List String} {name : String} {fs : List (String × Form)} {key : Token}
    {ts : List Token} {parts : List (List Token)} : Quotes name key → name ∉ names → Sound ts →
    Members names fs parts → Members names fs ((key :: [':'] :: ts) :: parts)

end

section Depth

variable {n : Nat} {fs gs omitted : List (String × Form)}

theorem itemsDepth_le {items : List Form} :
    Value.itemsDepth (itemValues items) ≤ n ↔ ∀ f ∈ items, f.depth ≤ n := by
  induction items with
  | nil => simp [itemValues, Value.itemsDepth]
  | cons f fs ih =>
    rw [itemValues, Value.itemsDepth, Nat.max_le, ih, List.forall_mem_cons]

theorem membersDepth_le :
    Value.membersDepth (fieldValues fs) ≤ n ↔ ∀ x ∈ fs, x.2.depth ≤ n := by
  induction fs with
  | nil => simp [fieldValues, Value.membersDepth]
  | cons x fs ih =>
    obtain ⟨name, f⟩ := x
    rw [fieldValues, Value.membersDepth, Nat.max_le, ih, List.forall_mem_cons]

theorem record_depth_le : (Form.record fs).depth ≤ n + 1 ↔ ∀ x ∈ fs, x.2.depth ≤ n := by
  rw [← membersDepth_le]
  simp [depth, toValue, Value.depth]

theorem variant_depth (name : String) (f : Form) : (Form.variant name f).depth = f.depth + 1 := by
  simp [depth, toValue, Value.depth, Value.membersDepth]

theorem written_depth_le (perm : (gs ++ omitted).Perm fs) (nulls : ∀ x ∈ omitted, x.2 = .null) :
    (Form.record fs).depth ≤ n + 1 ↔ ∀ x ∈ gs, x.2.depth ≤ n := by
  rw [record_depth_le]
  refine ⟨fun h x hx => h x (perm.subset (List.mem_append_left _ hx)), fun h x hx => ?_⟩
  rcases List.mem_append.mp (perm.symm.subset hx) with kept | left
  · exact h x kept
  · rw [nulls x left]
    exact Nat.zero_le _

end Depth

section Compact

/-- The parts, where a comma stands in front of the first unless it is the first of all. -/
def lead (first : Bool) (parts : List (List Token)) : List Token :=
  if first then separated parts else following parts

theorem lead_solid {parts : List (List Token)} (solid : ∀ p ∈ parts, ∀ t ∈ p, t ≠ [])
    (first : Bool) : ∀ t ∈ lead first parts, t ≠ [] := by
  have later : ∀ ps ⊆ parts, ∀ t ∈ following ps, t ≠ [] := by
    intro ps sub t ht
    obtain ⟨p, hp, ht⟩ := List.mem_flatMap.mp ht
    rcases List.mem_cons.mp ht with rfl | ht
    · exact List.cons_ne_nil _ _
    · exact solid p (sub hp) t ht
  cases first with
  | false => exact later parts (List.Subset.refl _)
  | true =>
    cases parts with
    | nil => exact List.forall_mem_nil _
    | cons p ps =>
      intro t ht
      rcases List.mem_append.mp ht with ht | ht
      · exact solid p List.mem_cons_self t ht
      · exact later ps (List.subset_cons_self _ _) t ht

/-- Tokens that are written for a form make up its compact text. -/
structure Compact (f : Form) (ts : List Token) : Prop where
  writes : f.Writes ts
  solid : ∀ t ∈ ts, t ≠ []
  text : ∀ rest, f.toValue.render rest = ts.flatten ++ rest

theorem compact_one {f : Form} {t : Token} (writes : f.Writes [t]) (solid : t ≠ [])
    (text : ∀ rest, f.toValue.render rest = t ++ rest) : Compact f [t] :=
  ⟨writes, by simpa using solid, by simpa using text⟩

mutual

theorem exists_compact (f : Form) : ∃ ts, Compact f ts := by
  match f with
  | .null => exact ⟨_, compact_one .null (by simp) fun _ => rfl⟩
  | .bool true => exact ⟨_, compact_one .true (by simp) fun _ => rfl⟩
  | .bool false => exact ⟨_, compact_one .false (by simp) fun _ => rfl⟩
  | .int v =>
    obtain ⟨c, t, front, _⟩ := integer_head v
    exact ⟨_, compact_one (.int v) (by rw [front]; exact List.cons_ne_nil c t) fun _ => rfl⟩
  | .str s => exact ⟨_, compact_one (.str (quotes_quote s)) (by simp [Text.quote]) fun _ => rfl⟩
  | .list fs =>
    obtain ⟨parts, items, solid, text⟩ := exists_items fs
    have inner := lead_solid solid true
    refine ⟨_, .list items, ?_, fun _ => by simp [toValue, Value.render, text, lead]⟩
    simpa [or_imp, forall_and, lead] using inner
  | .record fs =>
    obtain ⟨parts, members, solid, text⟩ := exists_members (fs.map Prod.fst) fs
    have inner := lead_solid solid true
    refine ⟨_, .record (by simp) (List.forall_mem_nil _) members, ?_, fun _ => by
      simp [toValue, Value.render, text, lead]⟩
    simpa [or_imp, forall_and, lead] using inner
  | .variant name f =>
    obtain ⟨ts, writes, solid, text⟩ := exists_compact f
    refine ⟨_, .variant (quotes_quote name) writes, ?_, fun _ => by
      simp [toValue, Value.render, Value.renderMembers, text]⟩
    simpa [or_imp, forall_and, Text.quote] using solid

theorem exists_items (fs : List Form) :
    ∃ parts, Items fs parts ∧ (∀ p ∈ parts, ∀ t ∈ p, t ≠ []) ∧ ∀ first rest,
      Value.renderItems first (itemValues fs) rest = (lead first parts).flatten ++ rest := by
  match fs with
  | [] => exact ⟨[], .nil, List.forall_mem_nil _, fun first _ => by cases first <;> rfl⟩
  | f :: fs =>
    obtain ⟨ts, writes, solid, text⟩ := exists_compact f
    obtain ⟨parts, items, solids, texts⟩ := exists_items fs
    refine ⟨ts :: parts, .cons writes items, List.forall_mem_cons.mpr ⟨solid, solids⟩,
      fun first rest => ?_⟩
    cases first <;>
      simp [itemValues, Value.renderItems, text, texts, lead, separated, following]

theorem exists_members (names : List String) (fs : List (String × Form)) :
    ∃ parts, Members names fs parts ∧ (∀ p ∈ parts, ∀ t ∈ p, t ≠ []) ∧ ∀ first rest,
      Value.renderMembers first (fieldValues fs) rest = (lead first parts).flatten ++ rest := by
  match fs with
  | [] => exact ⟨[], .nil, List.forall_mem_nil _, fun first _ => by cases first <;> rfl⟩
  | (name, f) :: fs =>
    obtain ⟨ts, writes, solid, text⟩ := exists_compact f
    obtain ⟨parts, members, solids, texts⟩ := exists_members names fs
    have whole : ∀ t ∈ Text.quote name :: [':'] :: ts, t ≠ [] := by
      simpa [Text.quote] using solid
    refine ⟨_, .known (quotes_quote name) writes members, List.forall_mem_cons.mpr ⟨whole, solids⟩,
      fun first rest => ?_⟩
    cases first <;>
      simp [fieldValues, Value.renderMembers, text, texts, lead, separated, following]

end

theorem exists_text (f : Form) : ∃ ts, f.Writes ts ∧ Spaced ts f.toValue.text.toList := by
  obtain ⟨ts, writes, solid, text⟩ := exists_compact f
  refine ⟨ts, writes, ?_⟩
  have same : f.toValue.text.toList = ts.flatten := by
    rw [Value.text, String.toList_ofList, text, List.append_nil]
  rw [same]
  exact spaced_flatten solid

end Compact

end Form

end ClassBackend.Json
