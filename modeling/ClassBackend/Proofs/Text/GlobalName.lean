import Mathlib.Data.List.Nodup
import ClassBackend.Names
import ClassBackend.Proofs.Text.Numeral

/-! The names that a unit gives to things. They come from several schemes; what a name was made from
can be read off it again where class names start with a capital and have no dot. -/
namespace ClassBackend

/-- Names that the backends make up start like this, and class names do not. -/
def small (c : Char) : Bool := c.isLower || c == '_'

def startsSmall (s : String) : Bool := s.toList.head?.any small
def startsLarge (s : String) : Bool := s.toList.head?.any fun c => !small c

inductive Artifact where
  | initializer | dispatchTable | prototype
  deriving DecidableEq

def Artifact.suffix : Artifact → String
  | .initializer => "_init"
  | .dispatchTable => "_dispTab"
  | .prototype => "_protObj"

inductive GlobalName where
  | fixed (name : String)
  | numbered (stem : String) (number : Nat)
  | artifact (cls : String) (a : Artifact)
  | method (cls name : String)

namespace GlobalName

def text : GlobalName → String
  | .fixed s => s
  | .numbered s n => s ++ toString n
  | .artifact c a => c ++ a.suffix
  | .method c m => Linkage.method c m

structure Capital (cls : String) : Prop where
  large : startsLarge cls = true
  dotless : '.' ∉ cls.toList

def Legible : GlobalName → Prop
  | .fixed s => startsSmall s = true ∧ plainEnd s = true
  | .numbered s _ => startsSmall s = true ∧ plainEnd s = true
  | .artifact c _ => Capital c
  | .method c _ => Capital c

theorem head_append {s : String} {p : Char → Bool} (h : s.toList.head?.any p = true) (r : String) :
    (s ++ r).toList.head?.any p = true := by
  rw [String.toList_append, List.head?_append]
  cases first : s.toList.head? with
  | none => simp [first] at h
  | some c => simpa [first] using h

theorem not_both {s : String} (h : startsSmall s = true) (h' : startsLarge s = true) : False := by
  unfold startsSmall startsLarge at *
  cases first : s.toList.head? with
  | none => simp [first] at h
  | some c =>
    simp only [first, Option.any_some] at h h'
    simp [h] at h'

theorem artifact_last (c : String) (a : Artifact) :
    (c ++ a.suffix).toList.getLast? = a.suffix.toList.getLast? := by
  have nonempty : a.suffix.toList ≠ [] := by cases a <;> decide
  rw [String.toList_append, List.getLast?_append_of_ne_nil _ nonempty]

theorem artifact_inj {c c' : String} {a a' : Artifact} (h : c ++ a.suffix = c' ++ a'.suffix) :
    c = c' ∧ a = a' := by
  have last := congrArg (fun s => s.toList.getLast?) h
  simp only [artifact_last] at last
  have same : a = a' := by
    revert last
    cases a <;> cases a' <;> decide
  subst same
  have lists := congrArg String.toList h
  rw [String.toList_append, String.toList_append, List.append_cancel_right_eq] at lists
  exact ⟨String.toList_inj.mp lists, rfl⟩

theorem method_inj {c c' m m' : String} (hc : '.' ∉ c.toList) (hc' : '.' ∉ c'.toList)
    (h : Linkage.method c m = Linkage.method c' m') : c = c' ∧ m = m' := by
  have lists := congrArg String.toList h
  simp only [Linkage.method, String.toList_append, List.append_assoc] at lists
  have front (c m : String) (hc : '.' ∉ c.toList) :
      (c.toList ++ (".".toList ++ m.toList)).takeWhile (· ≠ '.') = c.toList := by
    have kept : ∀ x ∈ c.toList, decide (x ≠ '.') = true := by
      intro x hx
      have other : x ≠ '.' := by
        rintro rfl
        exact hc hx
      simpa using other
    rw [List.takeWhile_append_of_pos kept]
    simp
  have same : c.toList = c'.toList := by
    rw [← front c m hc, lists, front c' m' hc']
  rw [same, List.append_cancel_left_eq, List.append_cancel_left_eq] at lists
  exact ⟨String.toList_inj.mp same, String.toList_inj.mp lists⟩

theorem artifact_dotless {c : String} (hc : '.' ∉ c.toList) (a : Artifact) :
    '.' ∉ (c ++ a.suffix).toList := by
  rw [String.toList_append, List.mem_append]
  rintro (left | right)
  · exact hc left
  · revert right
    cases a <;> decide

theorem method_dotted (c m : String) : '.' ∈ (Linkage.method c m).toList := by
  simp [Linkage.method, String.toList_append]

def ofClass : GlobalName → Bool
  | .fixed _ | .numbered .. => false
  | .artifact .. | .method .. => true

theorem start_text {x : GlobalName} (hx : x.Legible) :
    if x.ofClass then startsLarge x.text = true else startsSmall x.text = true := by
  cases x with
  | fixed s => exact hx.1
  | numbered s n => exact head_append hx.1 _
  | artifact c a => exact head_append hx.large _
  | method c m => exact head_append (head_append hx.large ".") m

theorem ofClass_text {x y : GlobalName} (hx : x.Legible) (hy : y.Legible) (h : x.text = y.text) :
    x.ofClass = y.ofClass := by
  have first := start_text hx
  have second := start_text hy
  rw [h] at first
  cases hx : x.ofClass <;> cases hy : y.ofClass <;> simp_all
  · exact not_both first second
  · exact not_both second first

/-- Legible symbols are told apart by their texts. -/
theorem text_inj {x y : GlobalName} (hx : x.Legible) (hy : y.Legible) (h : x.text = y.text) :
    x = y := by
  -- a name of a class and one of the unit differ already in their first character
  have kind := ofClass_text hx hy h
  cases x with
  | fixed s =>
    cases y with
    | fixed s' => exact congrArg _ h
    | numbered s' n =>
      have numbered := numbered_not_plainEnd s' n
      rw [← show s = s' ++ toString n from h, hx.2] at numbered
      cases numbered
    | _ => cases kind
  | numbered s n =>
    cases y with
    | fixed s' =>
      have numbered := numbered_not_plainEnd s n
      rw [show s ++ toString n = s' from h, hy.2] at numbered
      cases numbered
    | numbered s' n' =>
      obtain ⟨rfl, rfl⟩ := numbered_inj hx.2 hy.2 h
      rfl
    | _ => cases kind
  | artifact c a =>
    cases y with
    | artifact c' a' =>
      obtain ⟨rfl, rfl⟩ := artifact_inj h
      rfl
    | method c' m =>
      exact absurd ((show c ++ a.suffix = Linkage.method c' m from h) ▸ method_dotted c' m)
        (artifact_dotless hx.dotless a)
    | _ => cases kind
  | method c m =>
    cases y with
    | artifact c' a =>
      exact absurd ((show Linkage.method c m = c' ++ a.suffix from h) ▸ method_dotted c m)
        (artifact_dotless hy.dotless a)
    | method c' m' =>
      obtain ⟨rfl, rfl⟩ := method_inj hx.dotless hy.dotless h
      rfl
    | _ => cases kind

theorem nodup_texts {xs : List GlobalName} (legible : ∀ x ∈ xs, x.Legible) (distinct : xs.Nodup) :
    (xs.map text).Nodup :=
  distinct.map_on fun _ hx _ hy => text_inj (legible _ hx) (legible _ hy)

end GlobalName

end ClassBackend
