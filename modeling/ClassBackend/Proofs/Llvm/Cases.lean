import ClassBackend.Proofs.Cases
import ClassBackend.Proofs.Llvm.Control
import ClassBackend.Proofs.Llvm.Exits

/-! The tests of a case in LLVM IR. A test is a comparison that goes to a temporary of its own, and
a branch on it: the tag, the object and the slots stay as they are from test to test. A branch
begins with the object stored in the slot that was made for it at the head of the function. -/
namespace ClassBackend.Llvm

open Lowering Machine Transcript

section Numbering

@[reducible] def numbering : Ledger where
  World := Nat
  le := (· ≤ ·)
  later := (· ≤ ·)
  idle _ _ _ := True
  inside n _ s := n ≤ s.fresh.next
  shut n _ s := n ≤ s.fresh.next
  frame _ _ _ := True
  const _ _ := True
  has n v := v.Below n
  struct _ := True
  entered n _ m := m ≤ n
  arm n _ a := a.1.Below n
  cls _ := True
  label _ := True

variable {α : Type} {n m : Nat} {s s' : State} {x : Unit} {v : Operand}

theorem body_fresh {g : Body → Except Fault Body} (run : Gen.body g s = .ok (x, s')) :
    s'.fresh = s.fresh := by
  obtain ⟨_, _, _, _, rfl⟩ := body_inv run
  rfl

theorem assign_fresh {rhs : Rhs} (run : Gen.assign rhs s = .ok (v, s')) :
    v = .temp ⟨s.fresh.next⟩ ∧ s'.fresh.next = s.fresh.next + 1 := by
  obtain ⟨same, next, _⟩ := assign_adds run
  exact ⟨same, next⟩

theorem slotFor_fresh {a : Operand} (run : Gen.slotFor v s = .ok (a, s')) :
    a = .temp ⟨s.fresh.next⟩ ∧ s'.fresh.next = s.fresh.next + 1 := by
  simp only [Gen.slotFor, bind_ok, pure_ok] at run
  obtain ⟨_, s₁, drawn, _, s₂, made, _, s₃, stored, rfl, rfl⟩ := run
  cases drawn
  exact ⟨rfl, by rw [body_fresh stored, body_fresh made]⟩

theorem newBlock_fresh {hint : String} {b : BlockName} (run : Gen.newBlock hint s = .ok (b, s')) :
    s'.fresh.next = s.fresh.next + 1 ∧ s'.function = s.function := by
  cases run
  exact ⟨rfl, rfl⟩

theorem jump_fresh {b : BlockName} (run : Gen.jump b s = .ok (x, s')) : s'.fresh = s.fresh :=
  body_fresh (g := fun d => d.terminate (.br (.block b))) run

theorem merge_fresh {arms : List (Operand × Label)} {join : BlockName}
    (run : Gen.merge arms join s = .ok (v, s')) :
    s.fresh.next ≤ s'.fresh.next ∧ v.Below s'.fresh.next := by
  obtain ⟨_, s₁, placed, rest⟩ := bind_ok.mp run
  have same := body_fresh placed
  by_cases none : arms.isEmpty = true
  · rw [if_pos none] at rest
    obtain ⟨rfl, rfl⟩ := pure_ok.mp rest
    exact ⟨Nat.le_of_eq (by rw [same]), trivial⟩
  · rw [if_neg none] at rest
    obtain ⟨rfl, next⟩ := assign_fresh rest
    rw [same] at next ⊢
    exact ⟨by omega, next ▸ Nat.lt_succ_self _⟩

theorem numbering_keeps {m : Gen α} {R : Nat → α → Prop}
    (h : ∀ s a s', m s = .ok (a, s') → s.fresh.next ≤ s'.fresh.next ∧ R s'.fresh.next a) :
    numbering.account.Keeps n m R := by
  intro p s a s' there run
  obtain ⟨more, result⟩ := h s a s' run
  exact ⟨s'.fresh.next, Nat.le_trans there more, Nat.le_refl _, result⟩

theorem body_numbers {g : Body → Except Fault Body} :
    numbering.account.Keeps n (Gen.body g) numbering.account.whatever :=
  numbering_keeps fun _ _ _ run => ⟨Nat.le_of_eq (by rw [body_fresh run]), trivial⟩

theorem assign_numbers {rhs : Rhs} : numbering.account.Keeps n (Gen.assign rhs) numbering.has :=
  numbering_keeps fun s v s' run => by
    obtain ⟨rfl, next⟩ := assign_fresh run
    rw [next]
    exact ⟨Nat.le_succ _, Nat.lt_succ_self _⟩

theorem numbering_balanced : numbering.Balanced where
  refl := Nat.le_refl
  trans := Nat.le_trans
  later_trans := Nat.le_trans
  later h := h
  const _ _ := trivial
  value le h := Operand.Below.mono le h
  raw le h := Operand.Below.mono le h
  slot le h := Operand.Below.mono le h
  saved le h := Operand.Below.mono le h
  frame _ _ := trivial
  entered h k := Nat.le_trans k h
  arm le h := Operand.Below.mono le h
  self := trivial
  null := trivial
  int := trivial
  literal _ := trivial
  bool := trivial
  routine _ := trivial
  objects := trivial
  table _ := trivial
  initializer _ := trivial
  method _ := trivial
  own _ := trivial
  header := trivial
  row := trivial
  pool there _ _ := ⟨_, Nat.le_refl _, there, fun _ _ _ => trivial⟩
  emit _ _ _ _ _ := body_numbers
  assign _ _ _ := assign_numbers
  slotFor _ := numbering_keeps fun s v s' run => by
    obtain ⟨rfl, next⟩ := slotFor_fresh run
    rw [next]
    exact ⟨Nat.le_succ _, Nat.lt_succ_self _⟩
  terminate _ _ _ _ _ := body_numbers
  newBlock _ known := by
    intro p s b s' there run
    have more := (newBlock_fresh run).1
    exact ⟨_, Nat.le_refl _, Nat.le_trans there (by omega), known⟩
  nextBlock _ known there run :=
    ⟨_, Nat.le_refl _, Nat.le_trans there (by have := (newBlock_fresh run).1; omega), known⟩
  switchTo known := by
    intro p s a s' there run
    exact ⟨_, Nat.le_refl _, known, Nat.le_trans there (Nat.le_of_eq (by rw [body_fresh run])),
      trivial⟩
  closeArm hv _ _ := by
    intro p s a s' there run
    obtain ⟨jump, _, _, rfl⟩ := closeArm_ok run
    exact ⟨_, Nat.le_refl _, Nat.le_trans there (Nat.le_of_eq (by rw [jump_fresh jump])), hv⟩
  merge known _ := by
    intro p s a s' there run
    obtain ⟨more, below⟩ := merge_fresh run
    have grown := Nat.le_trans there more
    exact ⟨_, grown, Nat.le_trans known grown, Nat.le_refl _, below⟩

@[reducible] def bounding : Account backend := { numbering.account with slot := fun _ _ => True }

theorem bounding_lawful : bounding.Lawful :=
  have law := numbering_balanced.lawful
  { toOrdered := { law.toOrdered with slot := fun _ _ => trivial }
    toStorage := { law.toStorage with
      allocLocal := fun hv => (law.allocLocal hv).mono fun _ _ _ _ => trivial
      freeLocal := fun _ => .ret law.toOrdered trivial
      loadLocal := fun _ => assign_numbers
      storeLocal := fun {_ a v} _ _ => body_numbers (g := fun b => b.emit (.store .ptr v a)) }
    toWords := { law.toWords with }
    toBlocks := { law.toBlocks with }
    toCalls := { law.toCalls with } }

theorem lowered_below {cx : Context} {vars : Resolved.Vars backend} {e : Expr}
    {s s' : Session backend} (run : Resolved.lower backend cx vars e s = .ok (v, s')) :
    s.target.fresh.next ≤ s'.target.fresh.next ∧ v.Below s'.target.fresh.next := by
  have knows : bounding.Knows cx := ⟨fun _ => trivial, trivial, fun _ _ => trivial⟩
  obtain ⟨n, more, there, below⟩ := Account.lower_fits bounding_lawful knows
    (w := s.target.fresh.next) (fun _ _ => trivial) e _ (Nat.le_refl _) s v s' (Nat.le_refl _) run
  exact ⟨Nat.le_trans more there, below.mono there⟩

end Numbering

section Code

variable {s s₁ s' : State} {fs : List (List CodeLine)} {is js ks : List CodeLine} {v tag : Operand}
variable {cls : ClassLayout} {next onward join : BlockName} {u : Unit} {op : Relop} {w : Int}

/-- One test of a range: a comparison of the tag, the branch on it, and the block behind. -/
def testLines (op : Relop) (t : Temp) (tag : Operand) (w : Int) (next onward : BlockName) :
    List CodeLine :=
  [.instr (.assign t (.compare op .i64 tag (.int w))),
    .instr (.condBr (.temp t) (.block next) (.block onward)), .block (.block onward)]

/-- The tests for a class, and the store to the slot of the variable. -/
def armLines (n : Nat) (tag : Operand) (cls : ClassLayout) (v : Operand)
    (next upper matched : BlockName) : List CodeLine :=
  testLines .lt ⟨n⟩ tag cls.tag next upper ++ testLines .gt ⟨n + 1⟩ tag cls.lastTag next matched ++
    [.instr (.store .ptr v (.temp ⟨n + 2⟩))]

def tagLines (n : Nat) (v : Operand) : List CodeLine :=
  [.instr (.assign ⟨n⟩ (.element Builtin.objectName v 0)),
    .instr (.assign ⟨n + 1⟩ (.load .i64 (.temp ⟨n⟩)))]

theorem assign_line {rhs : Rhs} {r : Operand} (there : transcript.inside fs is s)
    (run : Gen.assign rhs s = .ok (r, s')) : r = .temp ⟨s.fresh.next⟩ ∧
      s'.fresh.next = s.fresh.next + 1 ∧
      transcript.inside fs (is ++ [.instr (.assign ⟨s.fresh.next⟩ rhs)]) s' := by
  obtain ⟨rfl, more⟩ := assign_fresh run
  obtain ⟨a, same, there'⟩ := assign_written there run
  cases same
  exact ⟨rfl, more, there'⟩

theorem newBlock_line {hint : String} {b : BlockName} (there : transcript.inside fs is s)
    (run : Gen.newBlock hint s = .ok (b, s')) :
    s'.fresh.next = s.fresh.next + 1 ∧ transcript.inside fs is s' := by
  cases run
  exact ⟨rfl, there⟩

theorem test_lines {x y : Unit} (there : transcript.inside fs is s)
    (branched : Gen.branchOn op .i64 tag (.int w) next onward s = .ok (x, s₁))
    (opened : Gen.switchTo onward s₁ = .ok (y, s')) : s'.fresh.next = s.fresh.next + 1 ∧
      transcript.inside fs (is ++ testLines op ⟨s.fresh.next⟩ tag w next onward) s' := by
  obtain ⟨c, s₂, compared, jumped⟩ := bind_ok.mp branched
  obtain ⟨rfl, more, there₁⟩ := assign_line there compared
  have there₂ := turned_written there₁ jumped opened
  rw [List.append_assoc] at there₂
  exact ⟨by rw [body_fresh opened, body_fresh jumped, more], there₂⟩

theorem entry_puts (h : transcript.Puts (testsEntry backend v) s (tag, join) is s') :
    tag = .temp ⟨s.fresh.next + 1⟩ ∧ is = tagLines s.fresh.next v ∧
      s'.fresh.next = s.fresh.next + 3 := by
  obtain ⟨run, fs, before, there, there'⟩ := h
  simp only [testsEntry, bind_ok] at run
  obtain ⟨r, s₂, loaded, b, s₃, drawn, last⟩ := run
  obtain ⟨same, rfl⟩ := pure_ok.mp last
  obtain ⟨rfl, rfl⟩ := Prod.mk.inj same
  obtain ⟨p, s₁, address, found⟩ := bind_ok.mp loaded
  obtain ⟨rfl, more, there₁⟩ := assign_line there address
  obtain ⟨rfl, more', there₂⟩ := assign_line there₁ found
  obtain ⟨more'', there₃⟩ := newBlock_line there₂ drawn
  rw [more] at more' there₃
  rw [List.append_assoc] at there₃
  refine ⟨by rw [more], ?_, by omega⟩
  exact List.append_cancel_left (transcript_legible there' there₃)

theorem armEntry_puts {a : Operand}
    (h : transcript.Puts (armEntry backend tag cls v) s (next, a) is s') :
    ∃ n upper matched, s.fresh.next ≤ n ∧ s'.fresh.next = n + 3 ∧ a = .temp ⟨n + 2⟩ ∧
      is = armLines n tag cls v next upper matched := by
  obtain ⟨run, fs, before, there, there'⟩ := h
  simp only [armEntry, bind_ok] at run
  obtain ⟨next', s₁, first, upper, s₂, second, matched, s₃, third, lo, s₄, low, _, s₅, below, _, s₆,
    opened, hi, s₇, high, _, s₈, above, _, s₉, opened', slot, s₁₀, made, last⟩ := run
  obtain ⟨same, rfl⟩ := pure_ok.mp last
  obtain ⟨rfl, rfl⟩ := Prod.mk.inj same
  obtain ⟨rfl, rfl⟩ := pure_ok.mp low
  obtain ⟨rfl, rfl⟩ := pure_ok.mp high
  obtain ⟨more₁, there₁⟩ := newBlock_line there first
  obtain ⟨more₂, there₂⟩ := newBlock_line there₁ second
  obtain ⟨more₃, there₃⟩ := newBlock_line there₂ third
  obtain ⟨more₄, there₄⟩ := test_lines there₃ below opened
  obtain ⟨more₅, there₅⟩ := test_lines there₄ above opened'
  have there₆ := slotFor_written there₅ made
  obtain ⟨rfl, more₆⟩ := slotFor_fresh made
  refine ⟨s₃.fresh.next, upper, matched, by omega, by rw [more₆, more₅, more₄],
    by rw [more₅, more₄], ?_⟩
  rw [more₅, more₄, List.append_assoc, List.append_assoc] at there₆
  rw [armLines, List.append_assoc]
  exact List.append_cancel_left (transcript_legible there' there₆)

theorem armExit_puts {r a : Operand} {arm : Operand × Label}
    (left : transcript.Puts (armExit backend join a r) s arm js s₁)
    (moved : transcript.Puts (Gen.switchTo next) s₁ u ks s') :
    js = [.instr (.br (.block join))] ∧ ks = [.block (.block next)] ∧ s'.fresh = s.fresh := by
  obtain ⟨run, fs, is, there, there'⟩ := left
  obtain ⟨opened, fs', is', before, after⟩ := moved
  obtain ⟨_, s₂, freed, closed⟩ := bind_ok.mp run
  obtain ⟨_, rfl⟩ := pure_ok.mp freed
  obtain ⟨jumped, _, _, rfl⟩ := closeArm_ok closed
  have jump : js = [.instr (.br (.block join))] :=
    List.append_cancel_left (transcript_legible there' (terminate_written there jumped))
  have done : fs = fs' := there'.1.symm.trans before.1
  subst done
  have code : is' = is ++ js := transcript_legible before there'
  have turned := turned_written there jumped opened
  refine ⟨jump, ?_, by rw [body_fresh opened, jump_fresh jumped]⟩
  rw [code, jump, List.append_assoc] at after
  exact (List.cons.inj (List.append_cancel_left (transcript_legible after turned))).2

end Code

/-- A machine for LLVM IR, where slots are addresses. A slot can be written when its word is
there. -/
def monitor : Monitor backend CodeLine where
  width := 64
  Call := Call
  Site := Site
  engine := Site.engine
  runs u code := ∃ f : Function, u.body = f.body ∧ f.listing = code
  behind _ l c := Config.Behind l c
  value u c v x := u.eval (Config.temps c) v = x
  room u c a := (Config.memory c (u.eval (Config.temps c) a)).isSome
  slot u c a x := Config.memory c (u.eval (Config.temps c) a) = some x

section Runs

variable {u : Site} {f : Function} {c d : Config} {before after l l' code : List CodeLine}
variable {op : Relop} {t : Temp} {tag v : Operand} {w g : Int} {next onward : BlockName} {n N : Nat}

/-- Behind a test. -/
def Config.tested (c : Config) (t : Temp) (holds : Bool) (next onward : BlockName) : Config :=
  (c.assign t (if holds then 1 else 0)).enter (.block (if holds then next else onward))

theorem place (distinct : (blockLabels code).Nodup) (hl : l <+: code) (hl' : l' <+: code)
    (here : c.Behind l) (here' : c.Behind l') : l = l' := by
  obtain ⟨front, is, rfl, index⟩ := here
  obtain ⟨front', is', rfl, index'⟩ := here'
  obtain ⟨rest, whole⟩ := id hl
  obtain ⟨rest', whole'⟩ := id hl'
  have twice {front mid rest : List CodeLine}
      (h : code = front ++ .block c.label :: mid ++ .block c.label :: rest) : False := by
    rw [h] at distinct
    simp [blockLabels, List.nodup_append] at distinct
  have same : front = front' := by
    have both : front ++ .block c.label :: (is.map .instr ++ rest) =
        front' ++ .block c.label :: (is'.map .instr ++ rest') := by
      simpa only [List.append_assoc, List.cons_append] using whole.trans whole'.symm
    rcases split_cases both with ⟨same, _⟩ | ⟨mid, late⟩ | ⟨mid, late⟩
    · exact same
    · have again : code = front' ++ .block c.label :: mid ++ .block c.label ::
          (is.map .instr ++ rest) := by
        rw [← whole, late]
        simp only [List.append_assoc, List.cons_append]
      exact (twice again).elim
    · have again : code = front ++ .block c.label :: mid ++ .block c.label ::
          (is'.map .instr ++ rest') := by
        rw [← whole', late]
        simp only [List.append_assoc, List.cons_append]
      exact (twice again).elim
  have lengths : (front ++ CodeLine.block c.label :: is.map .instr).length =
      (front' ++ CodeLine.block c.label :: is'.map .instr).length := by
    simp only [same, List.length_append, List.length_cons, List.length_map, ← index, ← index']
  exact (List.prefix_of_prefix_length_le hl hl' (Nat.le_of_eq lengths)).eq_of_length lengths

theorem arrives_test {within : Config → Prop} (distinct : (blockLabels f.listing).Nodup)
    (same : u.body = f.body)
    (parts : f.listing = before ++ (testLines op t tag w next onward ++ after))
    (here : c.Behind before) (word : (BitVec.ofInt 64 w).toInt = w)
    (known : (u.eval c.temps tag).toInt = g) (first : within c)
    (second : ∀ x, within (c.assign t x)) {holds : Bool} (decided : Meaning.holds op g w = holds)
    (rest : u.engine.Arrives within (c.tested t holds next onward) d) :
    u.engine.Arrives within c d := by
  let test : Instr := .assign t (.compare op .i64 tag (.int w))
  let turn : Instr := .condBr (.temp t) (.block next) (.block onward)
  have code : u.Has c.label c.index [test, turn] := has_of_behind distinct same parts here
  have compares : u.step c = .moves (c.assign t (if holds then 1 else 0)) := by
    have literal : (u.eval c.temps (.int w)).toInt = w := word
    rw [Site.Has.step code]
    simp only [test, Site.perform, Site.define, Site.value, known, literal, decided]
  have turns : u.step (c.assign t (if holds then 1 else 0)) =
      .branches holds (c.tested t holds next onward) := by
    have told : u.eval (c.assign t (if holds then 1 else 0)).temps (.temp t) =
        if holds then 1 else 0 := Function.update_self ..
    have later : u.Has (c.assign t (if holds then 1 else 0)).label
        (c.assign t (if holds then 1 else 0)).index [turn] := code.tail
    rw [Site.Has.step later]
    simp only [turn, Site.perform, told]
    cases holds <;> rfl
  exact .step first (.moves compares) <| .step (second _) (.branches turns) rest

theorem eval_below {temps temps' : Temp → BitVec 64} (below : v.Below n)
    (same : ∀ q : Temp, q.id < n → temps q = temps' q) : u.eval temps v = u.eval temps' v := by
  cases v with
  | temp q => exact same q below
  | self | arg | const | symbol | null | int => rfl

/-- Between tests: the tag and the object are as they were, and so is all that has a number from
there on. -/
structure Site.Selecting (u : Site) (c₀ : Config) (tag v : Operand) (g : Int) (x : BitVec 64)
    (n : Nat) (c : Config) : Prop where
  memory : c.memory = c₀.memory
  later : ∀ q : Temp, n ≤ q.id → c.temps q = c₀.temps q
  known : (u.eval c.temps tag).toInt = g
  value : u.eval c.temps v = x
  tag_below : tag.Below n
  value_below : v.Below n

theorem Site.Selecting.tested {c₀ : Config} {x : BitVec 64} {m : Nat} {holds : Bool}
    (h : u.Selecting c₀ tag v g x n c) (low : n ≤ m) (high : m < N) :
    u.Selecting c₀ tag v g x N (c.tested ⟨m⟩ holds next onward) := by
  have other (q : Temp) (differ : q.id ≠ m) :
      (c.tested ⟨m⟩ holds next onward).temps q = c.temps q :=
    Function.update_of_ne (fun same => differ (congrArg Temp.id same)) ..
  have early (q : Temp) (below : q.id < n) := other q (by omega)
  refine ⟨h.memory, fun q late => ?_, ?_, ?_, h.tag_below.mono (by omega),
    h.value_below.mono (by omega)⟩
  · rw [other q (by omega), h.later q (by omega)]
  · rw [eval_below h.tag_below early, h.known]
  · rw [eval_below h.value_below early, h.value]

theorem tested_true (is : List CodeLine) :
    (c.tested t true next onward).Behind (is ++ [.block (.block next)]) := ⟨is, [], rfl, rfl⟩

theorem tested_false (is : List CodeLine) :
    (c.tested t false next onward).Behind (is ++ testLines op t tag w next onward) := by
  refine ⟨is ++ [.instr (.assign t (.compare op .i64 tag (.int w))),
    .instr (.condBr (.temp t) (.block next) (.block onward))], [], ?_, rfl⟩
  rw [List.append_assoc]
  rfl

end Runs

section Tests

variable {u : Site} {f : Function} {c c₀ : Config} {before ts after : List CodeLine}
variable {qs front back : List (Stretch backend CodeLine)} {q : Stretch backend CodeLine}
variable {tag v : Operand} {cls k : ClassLayout} {next upper matched join : BlockName} {n : Nat}
variable {x : BitVec 64} {cx : Context} {vars : Resolved.Vars backend}

/-- A branch with its tests, in a function that the machine runs. -/
structure Site.Arm (u : Site) (f : Function) (before ts : List CodeLine)
    (qs front : List (Stretch backend CodeLine)) (q : Stretch backend CodeLine) (n : Nat)
    (tag v : Operand) (cls : ClassLayout) (next upper matched : BlockName) : Prop where
  distinct : (blockLabels f.listing).Nodup
  body : u.body = f.body
  parts : ∃ back, qs = front ++ q :: back
  whole : before ++ ts ++ Stretch.codes qs <+: f.listing
  tests : q.tests = armLines n tag cls v next upper matched
  access : q.access = .temp ⟨n + 2⟩
  onward : ∃ is, before ++ ts ++ Stretch.codes (front ++ [q]) = is ++ [.block (.block next)]

theorem arm_at {b : Branch Expr} {s s' : Session backend} {arm : backend.Arm}
    (h : transcript.ArmCode cx vars tag v join cls b s q arm s')
    (distinct : (blockLabels f.listing).Nodup) (body : u.body = f.body)
    (whole : before ++ ts ++ Stretch.codes qs <+: f.listing) (parts : qs = front ++ q :: back) :
    ∃ n next upper matched, s.target.fresh.next ≤ n ∧ n + 3 ≤ s'.target.fresh.next ∧
      u.Arm f before ts qs front q n tag v cls next upper matched := by
  obtain @⟨s₂, t₁, t₃, t₄, next, r, enters, lowered, leave, moves⟩ := h
  obtain ⟨n, upper, matched, low, high, access, tests⟩ := armEntry_puts enters
  obtain ⟨_, label, fresh⟩ := armExit_puts leave moves
  have grown : t₁.fresh.next ≤ s₂.target.fresh.next := (lowered_below lowered.1).1
  refine ⟨n, next, upper, matched, low, ?_, distinct, body, ⟨back, parts⟩, whole, tests, access,
    before ++ ts ++ Stretch.codes front ++ (q.tests ++ (q.body ++ q.leave)), ?_⟩
  · change n + 3 ≤ t₄.fresh.next
    rw [fresh]
    omega
  · simp only [Stretch.codes_append, Stretch.codes_cons, Stretch.codes_nil, Stretch.code, label,
      List.append_assoc, List.append_nil]

section Arms

variable {is js : List CodeLine} {op : Relop} {t : Temp} {w g : Int} {onward : BlockName}
variable {holds : Bool} {d : Config}
variable (h : u.Arm f before ts qs front q n tag v cls next upper matched)

include h

theorem Site.Arm.lines (split : q.tests = is ++ js) : ∃ rest,
    f.listing = before ++ ts ++ Stretch.codes front ++ is ++ (js ++ rest) := by
  obtain ⟨back, parts⟩ := h.parts
  obtain ⟨after, whole⟩ := h.whole
  refine ⟨q.body ++ (q.leave ++ q.next) ++ Stretch.codes back ++ after, ?_⟩
  rw [← whole, parts]
  simp only [Stretch.codes_append, Stretch.codes_cons, Stretch.code, split, List.append_assoc]

theorem Site.Arm.splits :
    q.tests = [] ++ (testLines .lt ⟨n⟩ tag cls.tag next upper ++
      (testLines .gt ⟨n + 1⟩ tag cls.lastTag next matched ++ [.instr (.store .ptr v q.access)])) ∧
    q.tests = testLines .lt ⟨n⟩ tag cls.tag next upper ++
      (testLines .gt ⟨n + 1⟩ tag cls.lastTag next matched ++ [.instr (.store .ptr v q.access)]) ∧
    q.tests = testLines .lt ⟨n⟩ tag cls.tag next upper ++
      testLines .gt ⟨n + 1⟩ tag cls.lastTag next matched ++ [.instr (.store .ptr v q.access)] := by
  have all := h.tests
  rw [armLines, ← h.access] at all
  exact ⟨all.trans (List.append_assoc ..), all.trans (List.append_assoc ..), all⟩

theorem Site.Arm.testing (split : q.tests = is ++ js) (more : js ≠ [])
    (here : c.Behind (before ++ ts ++ Stretch.codes front ++ is)) :
    monitor.Testing u before ts qs c := by
  obtain ⟨back, parts⟩ := h.parts
  exact ⟨_, .inr ⟨front, q, back, parts, .inl ⟨is, js, split, more, rfl⟩⟩, here⟩

theorem Site.Arm.arrives (split : q.tests = is ++ (testLines op t tag w next onward ++ js))
    (here : c.Behind (before ++ ts ++ Stretch.codes front ++ is))
    (word : (BitVec.ofInt 64 w).toInt = w) (known : (u.eval c.temps tag).toInt = g)
    (decided : Meaning.holds op g w = holds)
    (rest : u.engine.Arrives (monitor.Testing u before ts qs) (c.tested t holds next onward) d) :
    u.engine.Arrives (monitor.Testing u before ts qs) c d := by
  let test : CodeLine := .instr (.assign t (.compare op .i64 tag (.int w)))
  let turn : CodeLine := .instr (.condBr (.temp t) (.block next) (.block onward))
  obtain ⟨more, lines⟩ := h.lines split
  rw [List.append_assoc _ js] at lines
  have first : monitor.Testing u before ts qs c := h.testing split (List.cons_ne_nil _ _) here
  have second (y : BitVec 64) : monitor.Testing u before ts qs (c.assign t y) := by
    have after : (c.assign t y).Behind
        (before ++ ts ++ Stretch.codes front ++ (is ++ [test])) := by
      rw [← List.append_assoc]
      exact here.snoc rfl rfl
    have split' : q.tests = is ++ [test] ++ turn :: .block (.block onward) :: js := by
      rw [split, List.append_assoc]
      rfl
    exact h.testing split' (List.cons_ne_nil _ _) after
  exact arrives_test h.distinct h.body lines here word known first second decided rest

theorem Site.Arm.enters (split : q.tests = is ++ [.instr (.store .ptr v q.access)])
    (leaves : ∀ q ∈ qs, q.leave ≠ [])
    (here : c.Behind (before ++ ts ++ Stretch.codes front ++ is)) (value : u.eval c.temps v = x)
    (mapped : (c.memory (u.eval c.temps q.access)).isSome) :
    ∃ d, u.engine.Arrives (monitor.Testing u before ts qs) c d ∧
      monitor.behind u (bodyPlace before ts front q) d ∧ monitor.slot u d q.access x := by
  let stores : Instr := .store .ptr v q.access
  let d := c.write (u.eval c.temps q.access) x
  obtain ⟨rest, lines⟩ := h.lines split
  have code : u.Has c.label c.index [stores] := has_of_behind h.distinct h.body lines here
  have writes : u.step c = .writes (u.eval c.temps q.access) x d := by
    rw [Site.Has.step code]
    simp only [stores, Site.perform, mapped, if_true, value, d]
  have there : d.Behind (bodyPlace before ts front q) := by
    have after : d.Behind (before ++ ts ++ Stretch.codes front ++ is ++ [.instr stores]) :=
      here.snoc rfl rfl
    rwa [bodyPlace, split, ← List.append_assoc]
  obtain ⟨back, parts⟩ := h.parts
  have gone : ¬ monitor.Testing u before ts qs d :=
    monitor.not_testing_body (fun _ _ _ hl hl' => place h.distinct (hl.trans h.whole)
      (hl'.trans h.whole)) leaves parts there
  have within := h.testing split (List.cons_ne_nil _ _) here
  exact ⟨d, .step within (.writes writes) (.here gone), there, Function.update_self ..⟩

end Arms

theorem steps (distinct : (blockLabels f.listing).Nodup) (body : u.body = f.body)
    (whole : before ++ ts ++ Stretch.codes qs <+: f.listing) (leaves : ∀ q ∈ qs, q.leave ≠ [])
    (words : ∀ k ∈ cx.classes.classes, (BitVec.ofInt 64 k.tag).toInt = k.tag ∧
      (BitVec.ofInt 64 k.lastTag).toInt = k.lastTag)
    (room : ∀ q ∈ qs, (c₀.memory (u.eval c₀.temps q.access)).isSome) :
    monitor.Steps u transcript cx vars tag v join before ts qs k x
      fun s c => u.Selecting c₀ tag v k.tag x s.fresh.next c where
  miss := by
    intro front back q cls b s s' arm c parts code known outside held here
    obtain ⟨n, next, upper, matched, low, high, h⟩ := arm_at code distinct body whole parts
    obtain ⟨word, word'⟩ := words cls known
    have start : c.Behind (before ++ ts ++ Stretch.codes front ++ []) := by rwa [List.append_nil]
    obtain ⟨first, second, _⟩ := h.splits
    obtain ⟨is, there⟩ := h.onward
    cases below : Meaning.holds .lt k.tag cls.tag with
    | true =>
      refine ⟨c.tested ⟨n⟩ true next upper, held.tested low (by omega), ?_, fun d rest => ?_⟩
      · exact there ▸ tested_true is
      · exact h.arrives first start word held.known below rest
    | false =>
      have above := (out_of_range outside).resolve_left (by simp [below])
      have held₁ : u.Selecting c₀ tag v k.tag x (n + 1) (c.tested ⟨n⟩ false next upper) :=
        held.tested low (Nat.lt_succ_self n)
      refine ⟨(c.tested ⟨n⟩ false next upper).tested ⟨n + 1⟩ true next matched,
        held₁.tested (Nat.le_refl _) (by omega), ?_, fun d rest => ?_⟩
      · exact there ▸ tested_true is
      · exact h.arrives first start word held.known below <|
          h.arrives second (tested_false _) word' held₁.known above rest
  hit := by
    intro front back q cls b s s' arm c parts code known covered held here
    obtain ⟨n, next, upper, matched, low, high, h⟩ := arm_at code distinct body whole parts
    obtain ⟨word, word'⟩ := words cls known
    obtain ⟨below, above⟩ := in_range covered
    have start : c.Behind (before ++ ts ++ Stretch.codes front ++ []) := by rwa [List.append_nil]
    obtain ⟨first, second, third⟩ := h.splits
    let c₁ := c.tested ⟨n⟩ false next upper
    let c₂ := c₁.tested ⟨n + 1⟩ false next matched
    have held₁ : u.Selecting c₀ tag v k.tag x (n + 1) c₁ := held.tested low (Nat.lt_succ_self n)
    have held₂ : u.Selecting c₀ tag v k.tag x (n + 2) c₂ :=
      held₁.tested (Nat.le_refl _) (Nat.lt_succ_self _)
    have mapped : (c₂.memory (u.eval c₂.temps q.access)).isSome := by
      have slot : u.eval c₂.temps q.access = u.eval c₀.temps q.access := by
        rw [h.access]
        exact held₂.later _ (Nat.le_refl _)
      rw [slot, held₂.memory]
      exact room q (by simp [parts])
    have behind : c₂.Behind (before ++ ts ++ Stretch.codes front ++
        (testLines .lt ⟨n⟩ tag cls.tag next upper ++
          testLines .gt ⟨n + 1⟩ tag cls.lastTag next matched)) := by
      rw [← List.append_assoc]
      exact tested_false _
    obtain ⟨d, rest, there, slot⟩ := h.enters third leaves behind held₂.value mapped
    refine ⟨d, ?_, there, slot⟩
    exact h.arrives first start word held.known below <|
      h.arrives second (tested_false _) word' held₁.known above rest

end Tests

section Selection

variable {p : Program} {t : ClassTable} {k C : ClassLayout} {pool : Pool} {code : List CodeLine}
variable {a : Info} {e : Expr} {bs : List (Branch Expr)}

theorem arm_leaves {cx : Context} {vars : Resolved.Vars backend} {tag v : Operand}
    {join : BlockName} {cls : ClassLayout} {b : Branch Expr} {s s' : Session backend}
    {q : Stretch backend CodeLine} {arm : backend.Arm}
    (h : transcript.ArmCode cx vars tag v join cls b s q arm s') : q.leave ≠ [] := by
  obtain @⟨_, _, _, _, _, _, _, _, leave, moves⟩ := h
  rw [(armExit_puts leave moves).1]
  exact List.cons_ne_nil _ _

theorem guard_fresh {s s' : State} {v : Operand} {hint hint' : String} {kind : AbortKind}
    {file : Const} {line : UInt64} {u : Unit}
    (run : voidGuard backend hint hint' kind v file line s = .ok (u, s')) :
    s.fresh.next ≤ s'.fresh.next := by
  simp only [voidGuard, bind_ok] at run
  obtain ⟨onVoid, s₁, first, onward, s₂, second, _, s₃, branched, _, s₄, opened, _, s₅, aborted,
    closed⟩ := run
  obtain ⟨w, s₆, compared, jumped⟩ := bind_ok.mp branched
  obtain ⟨_, s₇, called, ended⟩ := bind_ok.mp aborted
  have more := (newBlock_fresh first).1
  have more' := (newBlock_fresh second).1
  have more'' := (assign_fresh compared).2
  rw [body_fresh closed, body_fresh ended, body_fresh called, body_fresh opened, body_fresh jumped]
  omega

theorem words_of_table (h : ClassTable.build p = .ok t)
    (words : ∀ k ∈ t.classes, ∃ y : BitVec 64, y.toInt = k.tag) : ∀ k ∈ t.classes,
    (BitVec.ofInt 64 k.tag).toInt = k.tag ∧ (BitVec.ofInt 64 k.lastTag).toInt = k.lastTag := by
  have word {k : ClassLayout} (hk : k ∈ t.classes) : (BitVec.ofInt 64 k.tag).toInt = k.tag := by
    obtain ⟨y, same⟩ := words k hk
    rw [← same, BitVec.ofInt_toInt]
  intro k hk
  obtain ⟨d, hd, last⟩ := ClassTable.last_mem h hk
  exact ⟨word hk, last ▸ word hd⟩

section Tag

variable {u : Site} {f : Function} {c : Config} {before after : List CodeLine} {v : Operand}
variable {x y : BitVec 64} {n : Nat}

theorem loads_tag (distinct : (blockLabels f.listing).Nodup) (body : u.body = f.body)
    (lines : f.listing = before ++ (tagLines n v ++ after)) (here : c.Behind before)
    (held : u.eval c.temps v = x) (found : c.memory x = some y) :
    u.step c = .moves (c.assign ⟨n⟩ x) ∧
      u.step (c.assign ⟨n⟩ x) = .moves ((c.assign ⟨n⟩ x).assign ⟨n + 1⟩ y) := by
  let element : Instr := .assign ⟨n⟩ (.element Builtin.objectName v 0)
  let load : Instr := .assign ⟨n + 1⟩ (.load .i64 (.temp ⟨n⟩))
  have code : u.Has c.label c.index [element, load] := has_of_behind distinct body lines here
  constructor
  · rw [Site.Has.step code]
    simp only [element, Site.perform, Site.define, Site.value, Nat.mul_zero, BitVec.add_zero, held]
  · have address : u.eval (c.assign ⟨n⟩ x).temps (.temp ⟨n⟩) = x := Function.update_self ..
    have word : (c.assign ⟨n⟩ x).memory x = some y := found
    have later : u.Has (c.assign ⟨n⟩ x).label (c.assign ⟨n⟩ x).index [load] := code.tail
    rw [Site.Has.step later]
    simp only [load, Site.perform, Site.define, Site.value, address, word]

theorem selecting_start {g : Int} (below : v.Below n) (held : u.eval c.temps v = x)
    (tagged : y.toInt = g) : u.Selecting c (.temp ⟨n + 1⟩) v g x (n + 3)
      ((c.assign ⟨n⟩ x).assign ⟨n + 1⟩ y) := by
  have other (q : Temp) (low : q.id ≠ n) (high : q.id ≠ n + 1) :
      ((c.assign ⟨n⟩ x).assign ⟨n + 1⟩ y).temps q = c.temps q :=
    (Function.update_of_ne (fun same => high (congrArg Temp.id same)) ..).trans
      (Function.update_of_ne (fun same => low (congrArg Temp.id same)) ..)
  refine ⟨rfl, fun q late => other q (by omega) (by omega), ?_, ?_, ?_, below.mono (by omega)⟩
  · rw [← tagged]
    exact congrArg BitVec.toInt (Function.update_self ..)
  · exact (eval_below below fun q early => other q (by omega) (by omega)).trans held
  · change n + 1 < n + 3
    omega

end Tag

/-- The machine loads the tag, and comes out of the tests where it belongs. -/
theorem tests_chosen {file : Const} {v : Operand} {before es gs ts after : List CodeLine}
    {qs : List (Stretch backend CodeLine)} {cs : Sources} {s : Session backend} {u : Site}
    {c : Config} {x : BitVec 64} (distinct : (blockLabels code).Nodup)
    (h : ClassTable.build p = .ok t)
    (parts : code = before ++ es ++ gs ++ ts ++ Stretch.codes qs ++ after)
    (tests : transcript.TestCode ⟨t, k⟩ pool e bs file v es gs ts qs cs s)
    (start : monitor.Start u t code (before ++ es ++ gs) qs v x C c) :
    ∃ d, u.engine.Arrives (monitor.Testing u (before ++ es ++ gs) ts qs) c d ∧
      monitor.Chosen u (before ++ es ++ gs) ts qs (testOrder cs) C.tag x d := by
  obtain ⟨⟨f, body, rfl⟩, here, held, ⟨y, found, tagged⟩, room, words⟩ := start
  obtain @⟨vars, tag, join, arms, s₀, s₁, s₃, t₂, lowered, _, guard, entry, classed, chain⟩ := tests
  obtain ⟨rfl, rfl, more⟩ := entry_puts entry
  let n := t₂.fresh.next
  let element : CodeLine := .instr (.assign ⟨n⟩ (.element Builtin.objectName v 0))
  let load : CodeLine := .instr (.assign ⟨n + 1⟩ (.load .i64 (.temp ⟨n⟩)))
  let c₁ := c.assign ⟨n⟩ x
  let c₂ := c₁.assign ⟨n + 1⟩ y
  have below : v.Below n := (lowered_below lowered.1).2.mono (guard_fresh guard.1)
  have selecting : u.Selecting c (.temp ⟨n + 1⟩) v C.tag x s₃.target.fresh.next c₂ := by
    rw [more]
    exact selecting_start below held tagged
  have lines : f.listing = before ++ es ++ gs ++ (tagLines n v ++ (Stretch.codes qs ++ after)) := by
    rw [parts]
    simp only [List.append_assoc]
    rfl
  obtain ⟨addresses, loads⟩ := loads_tag distinct body lines here held found
  have here₁ : c₁.Behind (before ++ es ++ gs ++ [element]) := here.snoc rfl rfl
  have here₂ : c₂.Behind (before ++ es ++ gs ++ tagLines n v ++
      Stretch.codes ([] : List (Stretch backend CodeLine))) := by
    have both : c₂.Behind (before ++ es ++ gs ++ [element] ++ [load]) := here₁.snoc rfl rfl
    rw [List.append_assoc] at both
    rwa [Stretch.codes_nil, List.append_nil]
  have within : monitor.Testing u (before ++ es ++ gs) (tagLines n v) qs c :=
    ⟨_, .inl ⟨[], _, rfl, List.cons_ne_nil _ _, rfl⟩, by rwa [List.append_nil]⟩
  have within₁ : monitor.Testing u (before ++ es ++ gs) (tagLines n v) qs c₁ :=
    ⟨_, .inl ⟨[element], [load], rfl, List.cons_ne_nil _ _, rfl⟩, here₁⟩
  have whole : before ++ es ++ gs ++ tagLines n v ++ Stretch.codes qs <+: f.listing :=
    ⟨after, parts.symm⟩
  have tried : monitor.Steps u transcript ⟨t, k⟩ vars (.temp ⟨n + 1⟩) v join (before ++ es ++ gs)
      (tagLines n v) qs C x
      fun s d => u.Selecting c (.temp ⟨n + 1⟩) v C.tag x s.fresh.next d :=
    steps distinct body whole (chain.leaves arm_leaves) (words_of_table h words) room
  obtain ⟨d, out, chosen⟩ := tried.chain
    (fun c there => monitor.not_testing_end (fun _ _ _ hl hl' => place distinct (hl.trans whole)
      (hl'.trans whole)) there) chain
    (fun c hc => classed.known c ((testOrder_perm cs).mem_iff.mp hc)) (List.nil_append qs).symm
    selecting here₂
  exact ⟨d, .step within (.moves addresses) (.step within₁ (.moves loads) out), chosen⟩

theorem selects_of_has (distinct : (blockLabels code).Nodup) (h : ClassTable.build p = .ok t)
    (has : transcript.Has ⟨t, k⟩ pool code (.caseOf a e bs)) :
    transcript.Selects monitor p.classes ⟨t, k⟩ pool code e bs :=
  has.selects transcript_account transcript_legible h arm_leaves (fun _ => place distinct)
    fun parts tests => fun {_ _ _} _ _ start => tests_chosen distinct h parts tests start

end Selection

end ClassBackend.Llvm
