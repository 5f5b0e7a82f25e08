import ClassBackend.Fault
import ClassBackend.Program.Builtin

/-! The constant pool: boxed literals, one object for each value of a kind. A constant is the
position of its value, so it stays valid while the pool grows. -/
namespace ClassBackend

inductive Const where
  | int (index : Nat)
  | str (index : Nat)
  | bool (value : Bool)
  deriving DecidableEq, Repr

def Const.label : Const → String
  | .int i => "int_const" ++ toString i
  | .str i => "str_const" ++ toString i
  | .bool false => "bool_const0"
  | .bool true => "bool_const1"

namespace Pool

/-- The length of a text in bytes, as the pooled Int that a String object points at. -/
def byteLength (s : String) : Int64 := Int64.ofNat s.utf8ByteSize

/-- Values in the order in which they came, and for each kind a map from a value to its place. -/
structure Tables where
  ints : List Int64 := []
  intIndex : List (Int64 × Nat) := []
  strings : List String := []
  stringIndex : List (String × Nat) := []
  deriving Repr

namespace Tables

variable (t : Tables)

def int (v : Int64) : Const × Tables :=
  match t.intIndex.lookup v with
  | some i => (.int i, t)
  | none =>
    let i := t.ints.length
    (.int i, { t with ints := t.ints ++ [v], intIndex := (v, i) :: t.intIndex })

/-- Pools the length first. -/
def string (s : String) : Const × Tables :=
  let t := (t.int (byteLength s)).2
  match t.stringIndex.lookup s with
  | some i => (.str i, t)
  | none =>
    let i := t.strings.length
    (.str i, { t with strings := t.strings ++ [s], stringIndex := (s, i) :: t.stringIndex })

/-- The boxed default of a field or variable of that type. Absent means void. -/
def initValue (ty : String) : Option Const × Tables :=
  if ty = Builtin.intName then
    let (c, t) := t.int 0
    (some c, t)
  else if ty = Builtin.boolName then (some (.bool false), t)
  else if ty = Builtin.stringName then
    let (c, t) := t.string ""
    (some c, t)
  else (none, t)

def intEntries : List (Const × Int64) := t.ints.zipIdx.map fun (v, i) => (.int i, v)

/-- A text with the constant of its length, which the map of the Ints has to know. -/
def textEntry (s : String) (i : Nat) : Except Fault (Const × String × Const) :=
  match t.intIndex.lookup (byteLength s) with
  | some n => .ok (.str i, s, .int n)
  | none => .error .noEntry

def stringEntries : Except Fault (List (Const × String × Const)) :=
  t.strings.zipIdx.mapM fun (s, i) => t.textEntry s i

/-- Pooled objects, the two Bools that always exist included. -/
def count : Nat := t.ints.length + t.strings.length + 2

/-- The maps find a value where the lists have it, and no other value. -/
structure InStep : Prop where
  ints : ∀ v, t.intIndex.lookup v = t.ints.idxOf? v
  strings : ∀ s, t.stringIndex.lookup s = t.strings.idxOf? s

variable {t}

theorem lookup_push {α : Type} [BEq α] [LawfulBEq α] {index : List (α × Nat)} {values : List α}
    {v : α} (step : ∀ w, index.lookup w = values.idxOf? w) (absent : index.lookup v = none)
    (w : α) : ((v, values.length) :: index).lookup w = (values ++ [v]).idxOf? w := by
  have old := step w
  rw [List.lookup_cons, List.idxOf?, List.findIdx?_append, ← List.idxOf?, ← old]
  by_cases same : w = v
  · subst same
    rw [absent]
    simp
  · have other : (v == w) = false := beq_false_of_ne (Ne.symm same)
    simp [beq_false_of_ne same, other]

theorem InStep.empty : InStep {} := ⟨fun _ => rfl, fun _ => rfl⟩

theorem InStep.int (h : t.InStep) (v : Int64) : (t.int v).2.InStep := by
  unfold Tables.int
  split
  · exact h
  · rename_i absent
    exact ⟨lookup_push h.ints absent, h.strings⟩

theorem InStep.string (h : t.InStep) (s : String) : (t.string s).2.InStep := by
  have first := h.int (byteLength s)
  unfold Tables.string
  dsimp only
  split
  · exact first
  · rename_i absent
    exact ⟨first.ints, lookup_push first.strings absent⟩

theorem InStep.initValue (h : t.InStep) (ty : String) : (t.initValue ty).2.InStep := by
  unfold Tables.initValue
  split
  · exact h.int 0
  · split
    · exact h
    · split
      · exact h.string ""
      · exact h

end Tables

end Pool

/-- Tables in step. -/
structure Pool extends Pool.Tables where
  inStep : toTables.InStep := by exact .empty

namespace Pool

/-- A request that keeps tables in step. -/
def ask {α : Type} (f : Tables → α × Tables) (keeps : ∀ t, t.InStep → (f t).2.InStep) (p : Pool) :
    α × Pool :=
  ((f p.toTables).1, ⟨(f p.toTables).2, keeps _ p.inStep⟩)

def int (p : Pool) (v : Int64) : Const × Pool := p.ask (·.int v) fun _ h => h.int v

def string (p : Pool) (s : String) : Const × Pool := p.ask (·.string s) fun _ h => h.string s

def initValue (p : Pool) (ty : String) : Option Const × Pool :=
  p.ask (·.initValue ty) fun _ h => h.initValue ty

/-- What the listing of the tables gives where all lengths are known. -/
def stringEntries (p : Pool) : List (Const × String × Const) :=
  p.strings.zipIdx.map fun (s, i) => (.str i, s, .int (p.ints.idxOf (byteLength s)))

variable {p : Pool} {v w : Int64} {s : String}

theorem initValue_eq (p : Pool) (ty : String) : p.initValue ty =
    if ty = Builtin.intName then (some (p.int 0).1, (p.int 0).2)
    else if ty = Builtin.boolName then (some (.bool false), p)
    else if ty = Builtin.stringName then (some (p.string "").1, (p.string "").2)
    else (none, p) := by
  simp only [initValue, ask, Tables.initValue]
  split
  · rfl
  · split
    · rfl
    · split <;> rfl

/-- An Int that is there stays where it is, and a new one comes to the end. -/
theorem int_cases (p : Pool) (v : Int64) :
    (∃ i, p.ints[i]? = some v ∧ p.int v = (.int i, p)) ∨
    (v ∉ p.ints ∧ (p.int v).1 = .int p.ints.length ∧ (p.int v).2.ints = p.ints ++ [v] ∧
      (p.int v).2.strings = p.strings) := by
  have step := p.inStep.ints v
  cases found : p.ints.idxOf? v with
  | some i =>
    obtain ⟨inside, same, _⟩ := List.idxOf?_eq_some_iff.mp found
    rw [found] at step
    refine .inl ⟨i, List.getElem?_eq_some_iff.mpr ⟨inside, same⟩, ?_⟩
    simp only [int, ask, Tables.int, step]
  | none =>
    rw [found] at step
    refine .inr ⟨List.idxOf?_eq_none_iff.mp found, ?_⟩
    simp only [int, ask, Tables.int, step, and_self]

theorem int_strings (p : Pool) (v : Int64) : (p.int v).2.strings = p.strings := by
  rcases int_cases p v with ⟨i, _, same⟩ | ⟨_, _, _, strings⟩
  · rw [same]
  · exact strings

theorem string_cases (p : Pool) (s : String) :
    (∃ i, p.strings[i]? = some s ∧ p.string s = (.str i, (p.int (byteLength s)).2)) ∨
    (s ∉ p.strings ∧ (p.string s).1 = .str p.strings.length ∧
      (p.string s).2.ints = (p.int (byteLength s)).2.ints ∧
      (p.string s).2.strings = p.strings ++ [s]) := by
  have kept := int_strings p (byteLength s)
  have step := (p.int (byteLength s)).2.inStep.strings s
  cases found : p.strings.idxOf? s with
  | some i =>
    obtain ⟨inside, same, _⟩ := List.idxOf?_eq_some_iff.mp found
    rw [kept, found] at step
    refine .inl ⟨i, List.getElem?_eq_some_iff.mpr ⟨inside, same⟩, ?_⟩
    simp only [int, ask] at step
    simp only [string, ask, Tables.string, step, int]
  | none =>
    rw [kept, found] at step
    refine .inr ⟨List.idxOf?_eq_none_iff.mp found, ?_⟩
    simp only [int, ask] at step kept
    simp only [string, ask, Tables.string, step, int, kept, and_self]

theorem mem_int_ints : w ∈ (p.int v).2.ints ↔ w ∈ p.ints ∨ w = v := by
  rcases int_cases p v with ⟨i, found, same⟩ | ⟨_, _, ints, _⟩
  · rw [same]
    exact ⟨.inl, fun h => h.elim id fun same => same ▸ List.mem_of_getElem? found⟩
  · simp [ints]

theorem mem_string_ints : w ∈ (p.string s).2.ints ↔ w ∈ p.ints ∨ w = byteLength s := by
  rw [← mem_int_ints]
  rcases string_cases p s with ⟨_, _, same⟩ | ⟨_, _, ints, _⟩
  · rw [same]
  · rw [ints]

end Pool

end ClassBackend
