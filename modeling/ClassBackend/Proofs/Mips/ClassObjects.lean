import ClassBackend.Proofs.Mips.Calls
import ClassBackend.Proofs.Mips.DataSymbols

/-! The table of class objects and the code that looks classes up in it. The words for a tag are the
prototype and the initializer of the class with that tag, so an object that is made like `self` is
made like one of the class that `self` has. -/
namespace ClassBackend.Mips

open Machine Lowering

variable {t : ClassTable}

namespace Data

variable {ks : List ClassLayout}

def objectWords (ks : List ClassLayout) : List Datum :=
  ks.flatMap fun k => [.sym (Linkage.prototype k.name), .sym (Linkage.initializer k.name)]

theorem classObjects_words (t : ClassTable) :
    classObjects t = (objectWords t.classes).map .word := by
  unfold classObjects objectWords
  rw [List.map_flatMap]
  rfl

theorem objectWords_entry {n : Nat} {k : ClassLayout} (h : ks[n]? = some k) :
    (objectWords ks)[2 * n]? = some (.sym (Linkage.prototype k.name)) ∧
      (objectWords ks)[2 * n + 1]? = some (.sym (Linkage.initializer k.name)) := by
  induction ks generalizing n with
  | nil => cases h
  | cons q ks ih =>
    cases n with
    | zero =>
      cases h
      exact ⟨rfl, rfl⟩
    | succ n => exact ih h

theorem const_ne_classObjects (c : Const) : c.label ≠ Linkage.classObjects :=
  Const.label_ne (by decide)

/-- The section begins with lines that do not define the table, and then it comes. -/
theorem emit_classObjects {gcTest : Bool} {pool : Pool} {lines : List Line}
    (h : emit gcTest t pool = .ok lines) :
    ∃ before after, lines = before ++ (.label Linkage.classObjects :: classObjects t ++ after) ∧
      Linkage.classObjects ∉ labels before := by
  obtain ⟨int, bool, string, strings, ints, prototypes, _, _, _, stringed, inted, _, rfl⟩ :=
    emit_parts h
  let pool' := complete t pool
  refine ⟨preamble gcTest int bool string ++ strings.flatten ++ ints.flatten ++
    boolObject bool false ++ boolObject bool true ++
    .label Linkage.classNames :: classNames t pool', _,
    by simp only [untilPrototypes, pool', List.append_assoc, List.cons_append]; rfl, ?_⟩
  have texts := objects_labels (fun e => e.1.label) stringed
    fun _ _ made => stringObject_labels made
  have numbers := objects_labels (fun e => e.1.label) inted
    fun _ _ made => intObject_labels made
  have names : labels (.label Linkage.classNames :: classNames t pool') = [Linkage.classNames] :=
    congrArg (_ :: ·) (labels_words _ _)
  have constants {α : Type} (label : α → Const) (xs : List α) :
      Linkage.classObjects ∉ xs.map fun e => (label e).label := by
    intro mem
    obtain ⟨e, _, same⟩ := List.mem_map.mp mem
    exact const_ne_classObjects _ same
  simp only [labels_append, names, texts, numbers, preamble_labels, List.mem_append, not_or]
  refine ⟨⟨⟨⟨⟨by decide, constants _ _⟩, constants _ _⟩, ?_⟩, ?_⟩, by decide⟩
  · exact fun mem => const_ne_classObjects _ (List.mem_singleton.mp mem).symm
  · exact fun mem => const_ne_classObjects _ (List.mem_singleton.mp mem).symm

end Data

/-- Entry number `n` of the table is about the class with the tag `n`. -/
structure Assembly.Describes (a : Assembly) (t : ClassTable) : Prop where
  entry : ∀ (n : Nat) (k : ClassLayout), t.classes[n]? = some k → k.tag = n ∧
    (Data.wordsAt Linkage.classObjects a.data)[2 * n]? =
      some (.sym (Linkage.prototype k.name)) ∧
    (Data.wordsAt Linkage.classObjects a.data)[2 * n + 1]? =
      some (.sym (Linkage.initializer k.name))
  text : ∃ before after, a.text = before ++ String.join
    ((.label Linkage.classObjects :: Data.classObjects t).map fun l => l.text ++ "\n") ++ after

theorem assemble_describes {p : Program} (built : ClassTable.build p = .ok t) {gcTest : Bool}
    {a : Assembly} (h : assemble gcTest t = .ok a) : a.Describes t := by
  obtain ⟨s, data, _, emitted, rfl⟩ := assemble_made h
  obtain ⟨before, after, whole, absent⟩ := Data.emit_classObjects emitted
  have words : Data.wordsAt Linkage.classObjects data =
      Data.objectWords t.classes ++ Data.leading after := by
    rw [whole, Data.wordsAt_skip absent, List.cons_append, Data.wordsAt, if_pos rfl,
      Data.classObjects_words, Data.leading_words]
  constructor
  · intro n k at_
    obtain ⟨first, second⟩ := Data.objectWords_entry at_
    have inside := (List.getElem?_eq_some_iff.mp second).1
    refine ⟨ClassTable.tag_of_getElem? built at_, ?_, ?_⟩
    · rw [words, List.getElem?_append_left (by omega), first]
    · rw [words, List.getElem?_append_left inside, second]
  · simp only [Assembly.text, Assembly.lines, whole, List.map_append, List.map_map,
      String.join_append, String.append_assoc]
    exact ⟨_, _, rfl⟩

/-- What differs from one state of an activation to the next: registers for words in passing, and
the next free word of the stack. -/
structure Cpu.Beside (free : BitVec 32) (s s' : Cpu) : Prop where
  self : s'.get .s0 = s.get .s0
  fp : s'.get .fp = s.get .fp
  mem : ∀ a, a ≠ free → s'.mem a = s.mem a

/-- The run comes to a call of the symbol with this word in the accumulator, and makes no other call
on the way. The stack has at most one word more. -/
structure Site.Comes (u : Site) (free : BitVec 32) (c c' : Config) (name : String)
    (acc : BitVec 32) : Prop where
  runs : u.engine.Runs c [] c'
  beside : c.cpu.Beside free c'.cpu
  calls : u.step c' = u.call c' (u.symbol name)
  acc : c'.cpu.get .a0 = acc
  sp : c'.cpu.get .sp = c.cpu.get .sp ∨
    c'.cpu.get .sp = c.cpu.get .sp + BitVec.ofInt 32 (-wordSize)

/-- What a copying routine promises: the stack pointer, the newest word of the stack and the tables
of the data section are as they were. -/
structure Site.Spares (u : Site) (data : List Line) (s s' : Cpu) : Prop where
  sp : s'.get .sp = s.get .sp
  newest : s'.mem (s.get .sp + BitVec.ofInt 32 wordSize) =
    s.mem (s.get .sp + BitVec.ofInt 32 wordSize)
  loaded : Loaded u.symbol data s'.mem

/-- The code from here to `stop` makes an object of the class: the prototype is copied, and the
initializer is called on the copy; its answer is left in the accumulator, and the stack pointer
where it was. Either call may not come back. -/
def Site.Creates (u : Site) (data : List Line) (k : ClassLayout) (c : Config) (stop : Nat) : Prop :=
  ∃ c₁, u.Comes (c.cpu.get .sp) c c₁ Routine.objectCopy.symbol
      (u.symbol (Linkage.prototype k.name)) ∧
    ∀ s₁, u.outside (u.symbol Routine.objectCopy.symbol) c₁.cpu = some s₁ →
      u.Spares data c₁.cpu s₁ →
      ∃ c₂, u.Comes (c.cpu.get .sp) ⟨c₁.pc + 1, s₁⟩ c₂ (Linkage.initializer k.name)
          (s₁.get .a0) ∧
        ∀ s₂, u.outside (u.symbol (Linkage.initializer k.name)) c₂.cpu = some s₂ →
          s₂.get .sp = c₂.cpu.get .sp →
          ∃ s₃, u.engine.Runs ⟨c₂.pc + 1, s₂⟩ [] ⟨stop, s₃⟩ ∧
            s₂.Beside (c.cpu.get .sp) s₃ ∧ s₃.get .sp = c.cpu.get .sp ∧
            s₃.get .a0 = s₂.get .a0

def Site.Has (u : Site) (n : Nat) (is : List Instr) : Prop :=
  Laid (fun k => u.code[k]?) (fun _ => True) n is

section Runs

variable {u : Site} {c : Config} {n : Nat} {s s' : Cpu} {is js : List Instr}

theorem Site.Has.single {i : Instr} (h : u.Has n (i :: is)) : u.Has n [i] :=
  Laid.take (show u.Has n ([i] ++ is) from h)

theorem Site.Has.step {i : Instr} (h : u.Has n (i :: is)) (s : Cpu) :
    u.step ⟨n, s⟩ = u.perform ⟨n, s⟩ i := by
  have here : u.code[n]? = some i := h.head.1
  simp only [Site.step, here]

theorem exec_load {d b : Reg} {off : Int} {x : BitVec 32}
    (word : s.mem (s.get b + BitVec.ofInt 32 off) = some x) :
    u.exec [.lw d off b] s = some (s.set d x) := by
  simp only [Site.exec, Site.effect, word]
  rfl

end Runs

section New

variable {u : Site} {data : List Line} {k : ClassLayout} {c : Config}

/-- With routines that answer, there is a run to the end, and it shows these two calls. -/
theorem Site.Creates.runs {stop : Nat} {new x : BitVec 32} (h : u.Creates data k c stop)
    (copy : ∀ s : Cpu, (∀ a, a ≠ c.cpu.get .sp → s.mem a = c.cpu.mem a) →
      s.get .a0 = u.symbol (Linkage.prototype k.name) →
      s.get .sp = c.cpu.get .sp ∨ s.get .sp = c.cpu.get .sp + BitVec.ofInt 32 (-wordSize) →
      ∃ s₁, u.outside (u.symbol Routine.objectCopy.symbol) s = some s₁ ∧ u.Spares data s s₁ ∧
        s₁.get .a0 = new ∧ s₁.mem new = some x)
    (init : ∀ s, u.outside (u.symbol (Linkage.initializer k.name)) s = some s)
    (apart : new ≠ c.cpu.get .sp) :
    ∃ k₁ k₂ s', u.engine.Runs c [.call k₁, .call k₂] ⟨stop, s'⟩ ∧
      k₁.target = u.symbol Routine.objectCopy.symbol ∧
      k₁.cpu.get .a0 = u.symbol (Linkage.prototype k.name) ∧
      k₂.target = u.symbol (Linkage.initializer k.name) ∧ k₂.cpu.get .a0 = new ∧
      s'.get .sp = c.cpu.get .sp ∧ s'.get .a0 = new ∧ s'.mem new = some x := by
  obtain ⟨c₁, comes, h⟩ := h
  obtain ⟨s₁, copied, spares, answer, word⟩ := copy c₁.cpu comes.beside.mem comes.acc comes.sp
  obtain ⟨c₂, comes', h⟩ := h s₁ copied spares
  obtain ⟨s₃, runs, beside, sp, acc⟩ := h c₂.cpu (init _) rfl
  have first : u.engine.Runs c [.call ⟨u.symbol Routine.objectCopy.symbol, c₁.cpu⟩]
      ⟨c₁.pc + 1, s₁⟩ :=
    .calls comes.runs (by
      rw [show u.engine.step c₁ = _ from comes.calls, Site.call, copied]
      rfl)
  have second : u.engine.Runs ⟨c₁.pc + 1, s₁⟩
      [.call ⟨u.symbol (Linkage.initializer k.name), c₂.cpu⟩] ⟨c₂.pc + 1, c₂.cpu⟩ :=
    .calls comes'.runs (by
      rw [show u.engine.step c₂ = _ from comes'.calls, Site.call, init]
      rfl)
  refine ⟨_, _, s₃, (first.trans second).trans runs, rfl, comes.acc, rfl,
    comes'.acc.trans answer, sp, acc.trans (comes'.acc.trans answer), ?_⟩
  rw [beside.mem _ apart, comes'.beside.mem _ apart]
  exact word

section Emission

variable {st st₁ st' : State} {obj v : Reg}

end Emission

end New

end ClassBackend.Mips
