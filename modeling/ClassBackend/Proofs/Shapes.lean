import ClassBackend.Proofs.Layout.Overriding
import ClassBackend.Proofs.Parts
import ClassBackend.Proofs.Scope.Resolution

/-! The pieces of the code of a dispatch and of a case: the evaluation of the receiver or the
scrutinee, the way past void, and in a case one test after another, each with its branch. -/
namespace ClassBackend

open Lowering

section Operations

variable {B : Backend} {α β : Type}

theorem target_bind (x : Emit B.State α) (y : α → Emit B.State β) :
    target (x >>= y) = target x >>= fun a => target (y a) := by
  funext s
  obtain ⟨pool, names, scopes, t⟩ := s
  simp only [target, bind, StateT.bind, Except.bind]
  cases x t <;> rfl

variable (B)

/-- The way past void: a block that gives up, and the one to go on in. -/
def voidGuard (hint hint' : String) (kind : AbortKind) (v : B.Value) (file : Const)
    (line : UInt64) : Emit B.State Unit := do
  let onVoid ← B.newBlock hint
  let onward ← B.newBlock hint'
  B.branchVoid v onVoid onward
  B.switchTo onVoid
  B.abort kind file line
  B.switchTo onward

/-- The tag that the tests are about, and a name for the join behind them. -/
def testsEntry (v : B.Value) : Emit B.State (B.Raw × BlockName) := do
  let tag ← B.loadTag v
  let join ← B.newBlock "case_end"
  pure (tag, join)

/-- The tests for a class, up to where its branch has the scrutinee in a slot. -/
def armEntry (tag : B.Raw) (cls : ClassLayout) (v : B.Value) :
    Emit B.State (BlockName × B.Local) := do
  let next ← B.newBlock "case_next"
  let upper ← B.newBlock "case_upper"
  let matched ← B.newBlock "case_branch"
  let lo ← B.rawWord cls.tag
  B.branchRaw .lt tag lo next upper
  B.switchTo upper
  let hi ← B.rawWord cls.lastTag
  B.branchRaw .gt tag hi next matched
  B.switchTo matched
  let access ← B.allocLocal v
  pure (next, access)

def armExit (join : BlockName) (access : B.Local) (result : B.Value) : Emit B.State B.Arm := do
  B.freeLocal access
  B.closeArm result join

variable {B}

theorem guard_eq (hint hint' : String) (kind : AbortKind) (v : B.Value) (file : Const)
    (line : UInt64) (m : Lowering B α) : (do
      let onVoid ← target (B.newBlock hint)
      let onward ← target (B.newBlock hint')
      target (B.branchVoid v onVoid onward)
      target (B.switchTo onVoid)
      target (B.abort kind file line)
      target (B.switchTo onward)
      m) = target (voidGuard B hint hint' kind v file line) >>= fun _ => m := by
  simp only [voidGuard, target_bind, bind_assoc]

theorem target_pure (a : α) : target (pure a : Emit B.State α) = (pure a : Lowering B α) := rfl

theorem caseArm_eq (tag : B.Raw) (join : BlockName) (cls : ClassLayout) (v : B.Value)
    (b : Branch (B.Local → Lowering B B.Value)) :
    Resolved.caseArm B tag join cls (Resolved.enter B v b) = (do
      let p ← target (armEntry B tag cls v)
      let u ← b.body p.2
      let arm ← target (armExit B join p.2 u)
      target (B.switchTo p.1)
      pure arm) := by
  simp only [Resolved.caseArm, Resolved.enter, Resolved.hold, armEntry, armExit, target_bind,
    target_pure, bind_assoc, pure_bind]

end Operations

namespace Transcript

variable {B : Backend} {ι α β : Type} (T : Transcript B ι)

def Legible : Prop := ∀ {fs is js s}, T.inside fs is s → T.inside fs js s → is = js

/-- An operation, with what it writes in the open function. -/
def Puts (m : Emit B.State α) (s : B.State) (a : α) (is : List ι) (s' : B.State) : Prop :=
  m s = .ok (a, s') ∧ T.Written s is s'

/-- The code of arguments: each of them is evaluated, and its value is kept. -/
inductive ArgumentCode (cx : Context) (vars : Resolved.Vars B) :
    Session B → List Expr → List B.Saved → List ι → Session B → Prop
  | nil {s : Session B} : ArgumentCode cx vars s [] [] [] s
  | cons {s s₁ s' : Session B} {t : B.State} {e : Expr} {es : List Expr} {v : B.Value}
    {x : B.Saved} {saved : List B.Saved} {js ps is : List ι} :
    T.Lowered cx vars e s v js s₁ → T.Puts (B.preserve v) s₁.target x ps t →
    ArgumentCode cx vars { s₁ with target := t } es saved is s' →
    ArgumentCode cx vars s (e :: es) (x :: saved) (js ++ (ps ++ is)) s'

/-- The code of a call of that value with these arguments: through the slot that the static class of
the receiver has for the method, or to the label that the class has which is named. -/
inductive CallCode (cx : Context) (received method : String) (v : B.Value) (saved : List B.Saved)
    (t : B.State) (is : List ι) : Option String → Prop
  | dynamic {c : ClassLayout} {slot : Nat} {r : B.Value} {t' : B.State} :
    cx.classes.resolve received cx.current = .ok c → c.methodSlot method = .ok slot →
    T.Puts (B.callDynamic v c slot saved) t r is t' →
    CallCode cx received method v saved t is none
  | direct {c : ClassLayout} {name label : String} {r : B.Value} {t' : B.State} :
    cx.classes.find name = .ok c → c.methodLabel method = .ok label →
    T.Puts (B.callDirect label v saved) t r is t' →
    CallCode cx received method v saved t is (some name)

/-- The code in front of a call: the arguments, the receiver, and the way past void. -/
inductive EntryCode (cx : Context) (p : Pool) (recv : Expr) (args : List Expr) (file : Const)
    (v : B.Value) (saved : List B.Saved) (as es gs : List ι) (t : B.State) : Prop
  | intro {vars : Resolved.Vars B} {s s₁ s₂ : Session B} :
    T.ArgumentCode cx vars s args saved as s₁ → T.Lowered cx vars recv s₁ v es s₂ →
    PoolLe s₂.pool p →
    T.Puts (voidGuard B "dispatch_void" "dispatch_call" .dispatchOnVoid v file recv.line)
      s₂.target () gs t →
    EntryCode cx p recv args file v saved as es gs t

/-- The code of a dispatch: its arguments, its receiver, the way past void, and the call of the
receiver with the arguments. -/
def DispatchCode (cx : Context) (p : Pool) (recv : Expr) (static : Option String)
    (method : String) (args : List Expr) (file : Const) (v : B.Value) (saved : List B.Saved)
    (as es gs is : List ι) : Prop :=
  ∃ t, T.EntryCode cx p recv args file v saved as es gs t ∧
    T.CallCode cx recv.ty method v saved t is static

/-- A branch in the code of a case: the tests in front of it, which leave the scrutinee in the slot,
its body, the way to the join, and the place where the next tests begin. -/
structure Stretch (B : Backend) (ι : Type) where
  number : Nat
  access : B.Local
  tests : List ι
  body : List ι
  leave : List ι
  next : List ι

namespace Stretch

def code (q : Stretch B ι) : List ι := q.tests ++ (q.body ++ (q.leave ++ q.next))

def codes (qs : List (Stretch B ι)) : List ι := qs.flatMap code

end Stretch

/-- Branches with their classes, each with its number in the source. -/
abbrev Sources := List (ClassLayout × Branch Expr × Nat)

/-- The tests for a class, its branch, and the way on. -/
inductive ArmCode (cx : Context) (vars : Resolved.Vars B) (tag : B.Raw) (v : B.Value)
    (join : BlockName) (cls : ClassLayout) (b : Branch Expr) (s : Session B) (q : Stretch B ι)
    (arm : B.Arm) : Session B → Prop
  | intro {s₂ : Session B} {t₁ t₃ t₄ : B.State} {next : BlockName} {u : B.Value} :
    T.Puts (armEntry B tag cls v) s.target (next, q.access) q.tests t₁ →
    T.Lowered cx ((b.name, q.access) :: vars) b.body { s with target := t₁ } u q.body s₂ →
    T.Puts (armExit B join q.access u) s₂.target arm q.leave t₃ →
    T.Puts (B.switchTo next) t₃ () q.next t₄ →
    ArmCode cx vars tag v join cls b s q arm { s₂ with target := t₄ }

/-- Tests, one after another, each with its branch. -/
inductive Arms (cx : Context) (vars : Resolved.Vars B) (tag : B.Raw) (v : B.Value)
    (join : BlockName) :
    Session B → Sources → List (Stretch B ι) → List B.Arm → Session B → Prop
  | nil {s} : Arms cx vars tag v join s [] [] [] s
  | cons {s s₁ s' : Session B} {cls : ClassLayout} {b : Branch Expr} {cs : Sources}
    {q : Stretch B ι} {qs : List (Stretch B ι)} {arm : B.Arm} {arms : List B.Arm} :
    T.ArmCode cx vars tag v join cls b s q arm s₁ → Arms cx vars tag v join s₁ cs qs arms s' →
    Arms cx vars tag v join s ((cls, b, q.number) :: cs) (q :: qs) (arm :: arms) s'

/-- The branches of a case, numbered from there on, with their classes. -/
def Classed (cx : Context) (n : Nat) (bs : List (Branch Expr)) (cs : Sources) : Prop :=
  cs.map (·.2) = bs.zipIdx n ∧ ∀ c ∈ cs, cx.classes.find c.2.1.ty = .ok c.1

/-- The code of a case up to the end of its tests: the scrutinee, the way past void, the load of the
tag, and the tests with their branches. -/
inductive TestCode (cx : Context) (p : Pool) (e : Expr) (bs : List (Branch Expr)) (file : Const)
    (v : B.Value) (es gs ts : List ι) (qs : List (Stretch B ι)) (cs : Sources) (s' : Session B) :
    Prop
  | intro {vars : Resolved.Vars B} {tag : B.Raw} {join : BlockName} {arms : List B.Arm}
    {s₀ s₁ s₃ : Session B} {t₂ : B.State} :
    T.Lowered cx vars e s₀ v es s₁ → PoolLe s₁.pool p →
    T.Puts (voidGuard B "case_void" "case_dispatch" .caseOnVoid v file e.line) s₁.target () gs t₂ →
    T.Puts (testsEntry B v) t₂ (tag, join) ts s₃.target →
    Classed cx 0 bs cs → T.Arms cx vars tag v join s₃ (testOrder cs) qs arms s' →
    TestCode cx p e bs file v es gs ts qs cs s'

/-- The code of a case: the tests, the end for an object that no branch takes, and the join. -/
inductive CaseCode (cx : Context) (p : Pool) (e : Expr) (bs : List (Branch Expr)) : List ι → Prop
  | intro {file : Const} {v : B.Value} {cs : Sources} {qs : List (Stretch B ι)} {s : Session B}
    {t : B.State} {es gs ts ns ms : List ι} :
    Denotes p file (.str cx.current.fileName) → T.TestCode cx p e bs file v es gs ts qs cs s →
    T.Puts (B.abort .caseNoMatch file e.line) s.target () ns t →
    CaseCode cx p e bs (es ++ (gs ++ (ts ++ (Stretch.codes qs ++ (ns ++ ms)))))

variable {T} {cx : Context} {p : Pool} {is : List ι} {v : B.Value}

section Writing

variable {x : Emit B.State α} {y : α → Emit B.State β} {fs : List (List ι)} {s s' : B.State}

theorem Writes.bind (hx : T.Writes x) (hy : ∀ a, T.Writes (y a)) : T.Writes (x >>= y) := by
  intro fs is s b s' there run
  obtain ⟨a, t, first, second⟩ := bind_ok.mp run
  obtain ⟨js, there₁⟩ := hx fs is s a t there first
  obtain ⟨ks, there₂⟩ := hy a fs _ t b s' there₁ second
  exact ⟨js ++ ks, by rwa [← List.append_assoc]⟩

theorem Writes.ret {a : α} : T.Writes (pure a : Emit B.State α) := by
  intro fs is s b s' there run
  obtain ⟨_, rfl⟩ := pure_ok.mp run
  exact ⟨[], by rwa [List.append_nil]⟩

theorem Writes.puts {a : α} (h : T.Writes x) (there : T.inside fs is s) (run : x s = .ok (a, s')) :
    ∃ js, T.inside fs (is ++ js) s' ∧ T.Puts x s a js s' := by
  obtain ⟨js, there'⟩ := h fs is s a s' there run
  exact ⟨js, there', run, fs, is, there, there'⟩

theorem newBlock_writes (law : T.account.Lawful) {hint : String} (hinted : hint ∈ blockHints) :
    T.Writes (B.newBlock hint) :=
  writes_of_keeps fun w => law.newBlock hinted (law.refl w)

theorem switchTo_writes (law : T.account.Lawful) (b : BlockName) : T.Writes (B.switchTo b) :=
  writes_of_opens fun w => law.switchTo (.refl w)

theorem voidGuard_writes (law : T.account.Lawful) {hint hint' : String} (hinted : hint ∈ blockHints)
    (hinted' : hint' ∈ blockHints) (kind : AbortKind) (v : B.Value) (file : Const)
    (line : UInt64) : T.Writes (voidGuard B hint hint' kind v file line) :=
  (newBlock_writes law hinted).bind fun _ => (newBlock_writes law hinted').bind fun _ =>
    (writes_of_keeps fun w =>
      law.branchVoid trivial (.refl w) (.refl w) (.refl w) (.refl w)).bind fun _ =>
    (switchTo_writes law _).bind fun _ => (writes_of_keeps fun _ => law.abort trivial).bind fun _ =>
    switchTo_writes law _

theorem testsEntry_writes (law : T.account.Lawful) (v : B.Value) : T.Writes (testsEntry B v) :=
  (writes_of_keeps fun _ => law.loadTag trivial).bind fun _ =>
    (newBlock_writes law (by decide)).bind fun _ => .ret

theorem branchRaw_writes (law : T.account.Lawful) (op : Relop) (a b : B.Raw)
    (yes no : BlockName) : T.Writes (B.branchRaw op a b yes no) :=
  writes_of_keeps fun w => law.branchRaw trivial trivial (.refl w) (.refl w) (.refl w) (.refl w)

theorem armEntry_writes (law : T.account.Lawful) (tag : B.Raw) (cls : ClassLayout) (v : B.Value) :
    T.Writes (armEntry B tag cls v) :=
  have word (n : Int) : T.Writes (B.rawWord n) := writes_of_keeps fun _ => law.rawWord
  (newBlock_writes law (by decide)).bind fun _ => (newBlock_writes law (by decide)).bind fun _ =>
    (newBlock_writes law (by decide)).bind fun _ => (word _).bind fun _ =>
    (branchRaw_writes law _ _ _ _ _).bind fun _ => (switchTo_writes law _).bind fun _ =>
    (word _).bind fun _ => (branchRaw_writes law _ _ _ _ _).bind fun _ =>
    (switchTo_writes law _).bind fun _ =>
    (writes_of_keeps fun _ => law.allocLocal trivial).bind fun _ => .ret

theorem armExit_writes (law : T.account.Lawful) (join : BlockName) (access : B.Local)
    (u : B.Value) : T.Writes (armExit B join access u) :=
  (writes_of_keeps fun _ => law.freeLocal trivial).bind fun _ =>
    writes_of_keeps fun w => law.closeArm trivial (.refl w) (.refl w)

theorem Visits.puts {es : List Expr} {m : Lowering B α} (h : T.Visits cx es m) {s s' : Session B}
    {a : α} (there : T.inside fs is s.target) (run : m s = .ok (a, s')) :
    ∃ js, T.inside fs (is ++ js) s'.target ∧ T.Written s.target js s'.target ∧
      PoolLe s.pool s'.pool := by
  obtain ⟨js, there', grown, _⟩ := h fs is s a s' there run
  exact ⟨js, there', ⟨fs, is, there, there'⟩, grown⟩

end Writing

theorem pooled_string {text : String} {file : Const} {s s' : Session B}
    (h : pooled (fun p => p.string text) s = .ok (file, s')) :
    Denotes s'.pool file (.str text) ∧ s'.target = s.target := by
  have denotes := (string_pooled text s.pool).2
  cases h
  exact ⟨denotes, rfl⟩

section Dispatches

theorem callDirect_writes (law : T.account.Lawful) (label : String) (u : B.Value)
    (saved : List B.Saved) : T.Writes (B.callDirect label u saved) :=
  writes_of_keeps fun _ => law.callDirect trivial trivial fun _ _ => trivial

theorem callDynamic_writes (law : T.account.Lawful) (u : B.Value) (cls : ClassLayout) (slot : Nat)
    (saved : List B.Saved) : T.Writes (B.callDynamic u cls slot saved) :=
  writes_of_keeps fun _ => law.callDynamic trivial trivial fun _ _ => trivial

variable {fs : List (List ι)} {s s' : Session B} {saved : List B.Saved}

theorem called_code (law : T.account.Lawful) {received method : String} {static : Option String}
    {r : B.Value} (there : T.inside fs is s.target)
    (run : (match (motive := Option String → Lowering B B.Value) static with
      | some ty => do
        let cls ← Lowering.ofExcept (cx.classes.find ty)
        let label ← Lowering.ofExcept (cls.methodLabel method)
        target (B.callDirect label v saved)
      | none => do
        let cls ← Lowering.ofExcept (cx.classes.resolve received cx.current)
        let slot ← Lowering.ofExcept (cls.methodSlot method)
        target (B.callDynamic v cls slot saved)) s = .ok (r, s')) :
    ∃ js, T.inside fs (is ++ js) s'.target ∧ s'.pool = s.pool ∧
      T.CallCode cx received method v saved s.target js static := by
  cases static with
  | some name =>
    obtain ⟨c, s₁, found, rest⟩ := bind_ok.mp run
    obtain ⟨known, rfl⟩ := ofExcept_ok.mp found
    obtain ⟨label, s₂, named, call⟩ := bind_ok.mp rest
    obtain ⟨has, rfl⟩ := ofExcept_ok.mp named
    obtain ⟨t, op, rfl⟩ := target_ok.mp call
    obtain ⟨js, there', puts⟩ := (callDirect_writes law label v saved).puts there op
    exact ⟨js, there', rfl, .direct known has puts⟩
  | none =>
    obtain ⟨c, s₁, found, rest⟩ := bind_ok.mp run
    obtain ⟨known, rfl⟩ := ofExcept_ok.mp found
    obtain ⟨slot, s₂, named, call⟩ := bind_ok.mp rest
    obtain ⟨has, rfl⟩ := ofExcept_ok.mp named
    obtain ⟨t, op, rfl⟩ := target_ok.mp call
    obtain ⟨js, there', puts⟩ := (callDynamic_writes law v c slot saved).puts there op
    exact ⟨js, there', rfl, .dynamic known has puts⟩

theorem arguments_code (law : T.account.Lawful) {vars : Resolved.Vars B} {args : List Expr}
    (there : T.inside fs is s.target)
    (run : arguments B (Resolved.lowerAll B cx vars args) s = .ok (saved, s')) :
    ∃ js, T.inside fs (is ++ js) s'.target ∧ PoolLe s.pool s'.pool ∧
      T.ArgumentCode cx vars s args saved js s' := by
  induction args generalizing is s saved with
  | nil =>
    obtain ⟨rfl, rfl⟩ := pure_ok.mp run
    exact ⟨[], by rwa [List.append_nil], .refl _, .nil⟩
  | cons e es ih =>
    obtain ⟨u, s₁, first, run⟩ := bind_ok.mp run
    obtain ⟨x, s₂, kept, run⟩ := bind_ok.mp run
    obtain ⟨rest, s₃, others, last⟩ := bind_ok.mp run
    obtain ⟨rfl, rfl⟩ := pure_ok.mp last
    obtain ⟨js, there₁, written, grown₁⟩ := (lower_visits law vars e).puts there first
    obtain ⟨t, op, rfl⟩ := target_ok.mp kept
    have keeps : T.Writes (B.preserve u) := writes_of_keeps fun _ => law.preserve trivial
    obtain ⟨ps, there₂, puts⟩ := keeps.puts there₁ op
    obtain ⟨ks, there₃, grown₂, codes⟩ := ih there₂ others
    refine ⟨js ++ (ps ++ ks), ?_, grown₁.trans grown₂, .cons ⟨first, written⟩ puts codes⟩
    simpa only [List.append_assoc] using there₃

theorem Emits.dispatch (law : T.account.Lawful) (legible : T.Legible) {a : Info} {recv : Expr}
    {static : Option String} {method : String} {args : List Expr}
    (h : T.Emits cx p (.dispatch a recv static method args) v is) :
    ∃ file u saved as es gs ks, is = as ++ (es ++ (gs ++ ks)) ∧
      Denotes p file (.str cx.current.fileName) ∧
      T.DispatchCode cx p recv static method args file u saved as es gs ks := by
  obtain ⟨vars, s, s', ⟨run, fs, before, there, there'⟩, grown⟩ := h
  rw [Resolved.lower] at run
  simp only [Lowering.dispatch, guard_eq] at run
  obtain ⟨file, s₁, taken, run⟩ := bind_ok.mp run
  obtain ⟨named, same⟩ := pooled_string taken
  rw [← same] at there
  obtain ⟨saved, s₂, evaluated, run⟩ := bind_ok.mp run
  obtain ⟨u, s₃, received, run⟩ := bind_ok.mp run
  obtain ⟨_, s₄, guarded, called⟩ := bind_ok.mp run
  obtain ⟨t, op, rfl⟩ := target_ok.mp guarded
  obtain ⟨as, there₁, grown₁, arguments⟩ := arguments_code law there evaluated
  obtain ⟨es, there₂, written, grown₂⟩ := (lower_visits law vars recv).puts there₁ received
  have guard := voidGuard_writes law (by decide : "dispatch_void" ∈ blockHints)
    (by decide : "dispatch_call" ∈ blockHints) .dispatchOnVoid u file recv.line
  obtain ⟨gs, there₃, puts⟩ := guard.puts there₂ op
  obtain ⟨ks, there₄, pool, calls⟩ := called_code law there₃ called
  have whole : is = as ++ (es ++ (gs ++ ks)) := by
    have both := legible there' there₄
    simpa only [List.append_assoc, List.append_cancel_left_eq] using both
  have onward : PoolLe s₃.pool p := pool ▸ grown
  exact ⟨file, u, saved, as, es, gs, ks, whole, named.mono (grown₁.trans (grown₂.trans onward)),
    t, .intro arguments ⟨received, written⟩ onward puts, calls⟩

end Dispatches

section Cases

variable {vars : Resolved.Vars B} {tag : B.Raw} {join : BlockName}

theorem branchClasses_classed {bs : List (Branch Expr)} {n : Nat} {s s' : Session B}
    {cs : List (ClassLayout × Branch (B.Local → Lowering B B.Value))}
    (run : Resolved.branchClasses B cx (bs.map (Resolved.lowerBranch B cx vars)) s = .ok (cs, s')) :
    s' = s ∧ ∃ ds, Classed cx n bs ds ∧
      cs = ds.map fun c => (c.1, Resolved.lowerBranch B cx vars c.2.1) := by
  induction bs generalizing cs n s s' with
  | nil =>
    obtain ⟨rfl, rfl⟩ := pure_ok.mp run
    exact ⟨rfl, [], ⟨rfl, by simp⟩, rfl⟩
  | cons b bs ih =>
    simp only [List.map_cons, Resolved.branchClasses] at run
    obtain ⟨cls, s₁, found, others⟩ := bind_ok.mp run
    obtain ⟨known, rfl⟩ := ofExcept_ok.mp found
    obtain ⟨rest, s₂, below, last⟩ := bind_ok.mp others
    obtain ⟨rfl, rfl⟩ := pure_ok.mp last
    obtain ⟨rfl, ds, ⟨numbered, classes⟩, rfl⟩ := ih (n := n + 1) below
    refine ⟨rfl, (cls, b, n) :: ds, ⟨?_, ?_⟩, rfl⟩
    · rw [List.map_cons, numbered, List.zipIdx_cons]
    · rintro c (_ | ⟨_, hc⟩)
      · exact known
      · exact classes c hc

theorem caseArms_arms (law : T.account.Lawful) {cs : Sources} {fs : List (List ι)}
    {s s' : Session B} {arms : List B.Arm} (there : T.inside fs is s.target)
    (run : Resolved.caseArms B (Resolved.enter B v) tag join
      (cs.map fun c => (c.1, Resolved.lowerBranch B cx vars c.2.1)) s = .ok (arms, s')) :
    ∃ qs, T.inside fs (is ++ Stretch.codes qs) s'.target ∧ PoolLe s.pool s'.pool ∧
      T.Arms cx vars tag v join s cs qs arms s' := by
  induction cs generalizing is s arms with
  | nil =>
    obtain ⟨rfl, rfl⟩ := pure_ok.mp run
    exact ⟨[], by rwa [Stretch.codes, List.flatMap_nil, List.append_nil], .refl _, .nil⟩
  | cons c cs ih =>
    obtain ⟨cls, b, n⟩ := c
    simp only [List.map_cons, Resolved.caseArms, caseArm_eq] at run
    obtain ⟨arm, s₃, first, run⟩ := bind_ok.mp run
    obtain ⟨arms', s₄, rest, last⟩ := bind_ok.mp run
    obtain ⟨rfl, rfl⟩ := pure_ok.mp last
    obtain ⟨⟨next, access⟩, s₁, entered, first⟩ := bind_ok.mp first
    obtain ⟨t₁, entry, rfl⟩ := target_ok.mp entered
    obtain ⟨u, s₂, lowered, first⟩ := bind_ok.mp first
    obtain ⟨made, _, left, first⟩ := bind_ok.mp first
    obtain ⟨t₃, exit, rfl⟩ := target_ok.mp left
    obtain ⟨_, _, opened, last⟩ := bind_ok.mp first
    obtain ⟨t₄, opens, rfl⟩ := target_ok.mp opened
    obtain ⟨rfl, rfl⟩ := pure_ok.mp last
    obtain ⟨es, there₁, enters⟩ := (armEntry_writes law tag cls v).puts there entry
    obtain ⟨ks, there₂, written, grown⟩ := (lower_visits law _ b.body).puts there₁ lowered
    obtain ⟨js, there₃, closes⟩ := (armExit_writes law join access u).puts there₂ exit
    obtain ⟨ls, there₄, moves⟩ := (switchTo_writes law next).puts there₃ opens
    obtain ⟨qs, there₅, grown', tested⟩ := ih there₄ rest
    let q : Stretch B ι := ⟨n, access, es, ks, js, ls⟩
    have code : T.ArmCode cx vars tag v join cls b s q made { s₂ with target := t₄ } :=
      .intro enters ⟨lowered, written⟩ closes moves
    refine ⟨q :: qs, ?_, grown.trans grown', .cons code tested⟩
    simpa only [Stretch.codes, List.flatMap_cons, Stretch.code, List.append_assoc] using there₅

theorem Emits.caseOf (law : T.account.Lawful) (legible : T.Legible) {a : Info} {e : Expr}
    {bs : List (Branch Expr)} (h : T.Emits cx p (.caseOf a e bs) v is) :
    T.CaseCode cx p e bs is := by
  obtain ⟨vars, s, s', ⟨run, fs, before, there, there'⟩, grown⟩ := h
  rw [Resolved.lower, Resolved.lowerBranches_map] at run
  have started : ∀ (v : B.Value) (f : B.Raw → BlockName → Lowering B B.Value),
      (do let tag ← target (B.loadTag v)
          let join ← target (B.newBlock "case_end")
          f tag join) = target (testsEntry B v) >>= fun q => f q.1 q.2 := fun v f => by
    simp only [testsEntry, target_bind, target_pure, bind_assoc, pure_bind]
  simp only [Resolved.caseOf, guard_eq, started] at run
  obtain ⟨file, s₀, taken, run⟩ := bind_ok.mp run
  obtain ⟨named, same⟩ := pooled_string taken
  rw [← same] at there
  obtain ⟨u, s₁, evaluated, run⟩ := bind_ok.mp run
  obtain ⟨_, s₂, guarded, run⟩ := bind_ok.mp run
  obtain ⟨t₂, passes, rfl⟩ := target_ok.mp guarded
  obtain ⟨⟨tag, join⟩, s₃, begun, run⟩ := bind_ok.mp run
  obtain ⟨t₃, begins, rfl⟩ := target_ok.mp begun
  obtain ⟨cs, s₄, classes, run⟩ := bind_ok.mp run
  obtain ⟨rfl, ds, classed, rfl⟩ := branchClasses_classed (n := 0) classes
  rw [Resolved.testOrder_pairs fun c : Branch Expr × Nat =>
    Resolved.lowerBranch B cx vars c.1] at run
  obtain ⟨arms, s₅, tested, run⟩ := bind_ok.mp run
  obtain ⟨_, s₆, refused, joined⟩ := bind_ok.mp run
  obtain ⟨t₆, refuses, rfl⟩ := target_ok.mp refused
  obtain ⟨t₇, joins, rfl⟩ := target_ok.mp joined
  have guard := voidGuard_writes law (by decide : "case_void" ∈ blockHints)
    (by decide : "case_dispatch" ∈ blockHints) .caseOnVoid u file e.line
  have abort : T.Writes (B.abort .caseNoMatch file e.line) :=
    writes_of_keeps fun _ => law.abort trivial
  have merge : T.Writes (B.merge arms join) :=
    writes_of_opens fun w => law.merge (.refl w) fun _ _ => trivial
  obtain ⟨es, there₁, written, grown₁⟩ := (lower_visits law vars e).puts there evaluated
  obtain ⟨gs, there₂, way⟩ := guard.puts there₁ passes
  obtain ⟨ts, there₃, tags⟩ := (testsEntry_writes law u).puts there₂ begins
  obtain ⟨qs, there₄, grown₂, arms⟩ := caseArms_arms law there₃ tested
  obtain ⟨ns, there₅, refusal⟩ := abort.puts there₄ refuses
  obtain ⟨ms, there₆, _⟩ := merge.puts there₅ joins
  have whole : is = es ++ (gs ++ (ts ++ (Stretch.codes qs ++ (ns ++ ms)))) := by
    have both := legible there' there₆
    simpa only [List.append_assoc, List.append_cancel_left_eq] using both
  rw [whole]
  have onward : PoolLe s₁.pool p := grown₂.trans grown
  exact .intro (named.mono (grown₁.trans onward))
    (.intro ⟨evaluated, written⟩ onward way tags classed arms) refusal

end Cases

section Exits

/-- What a machine does where code gives up. The stretch of code stands between other code; the
abort is of that kind, and reports that file and that line. -/
structure Exits (B : Backend) (ι : Type) where
  /-- Where the value is void, the machine gives up in this stretch. -/
  guard : Pool → List ι → List ι → List ι → AbortKind → String → UInt64 → B.Value → Prop
  abort : Pool → List ι → List ι → List ι → AbortKind → String → UInt64 → Prop

/-- In the code, what checks the receiver of the dispatch and the scrutinee of the case stands
directly behind the code that evaluates it, and in front of the call and of the branches. -/
def Reports (T : Transcript B ι) (X : Exits B ι) (cx : Context) (p : Pool) (code : List ι) :
    Expr → Prop
  | .dispatch _ recv static method args => ∃ before file v saved as es gs is after,
    code = before ++ as ++ es ++ gs ++ is ++ after ∧
    T.DispatchCode cx p recv static method args file v saved as es gs is ∧
    X.guard p (before ++ as ++ es) gs (is ++ after) .dispatchOnVoid cx.current.fileName recv.line v
  | .caseOf _ e bs => ∃ before v es gs ts qs ns after,
    code = before ++ es ++ gs ++ (ts ++ Stretch.codes qs) ++ ns ++ after ∧ T.Emits cx p e v es ∧
    (∃ cs vars tag join s arms s', Classed cx 0 bs cs ∧
      T.Arms cx vars tag v join s (testOrder cs) qs arms s') ∧
    X.guard p (before ++ es) gs (ts ++ Stretch.codes qs ++ ns ++ after) .caseOnVoid
      cx.current.fileName e.line v ∧
    X.abort p (before ++ es ++ gs ++ (ts ++ Stretch.codes qs)) ns after .caseNoMatch
      cx.current.fileName e.line
  | _ => True

variable {X : Exits B ι} {code : List ι}

theorem Has.reports (law : T.account.Lawful) (legible : T.Legible) {e : Expr}
    (guards : ∀ {before gs after kind v file name line hint hint' s s'},
      code = before ++ gs ++ after → Denotes p file (.str name) →
      T.Puts (voidGuard B hint hint' kind v file line) s () gs s' →
      X.guard p before gs after kind name line v)
    (aborts : ∀ {before ns after kind file name line s s'},
      code = before ++ ns ++ after → Denotes p file (.str name) →
      T.Puts (B.abort kind file line) s () ns s' → X.abort p before ns after kind name line)
    (h : T.Has cx p code e) : T.Reports X cx p code e := by
  obtain ⟨v, is, ⟨before, after, rfl⟩, emits⟩ := h
  cases e with
  | dispatch a recv static method args =>
    obtain ⟨file, u, saved, as, es, gs, ks, rfl, named, dispatches⟩ := emits.dispatch law legible
    have here : before ++ (as ++ (es ++ (gs ++ ks))) ++ after =
        before ++ as ++ es ++ gs ++ ks ++ after := by simp only [List.append_assoc]
    refine ⟨before, file, u, saved, as, es, gs, ks, after, here, dispatches, ?_⟩
    obtain ⟨_, ⟨_, _, _, way⟩, _⟩ := dispatches
    exact guards (here.trans (List.append_assoc ..)) named way
  | caseOf a e bs =>
    obtain @⟨file, w, cs, qs, s', t, es, gs, ts, ns, ms, named, tests, refused⟩ :=
      emits.caseOf law legible
    obtain @⟨vars, tag, join, arms, s₀, s₁, s₃, _, lowered, grown, way, _, classed, tested⟩ := tests
    have here : before ++ (es ++ (gs ++ (ts ++ (Stretch.codes qs ++ (ns ++ ms))))) ++ after =
        before ++ es ++ gs ++ (ts ++ Stretch.codes qs) ++ ns ++ (ms ++ after) := by
      simp only [List.append_assoc]
    refine ⟨before, w, es, gs, ts, qs, ns, ms ++ after, here, ⟨vars, s₀, s₁, lowered, grown⟩,
      ⟨cs, vars, tag, join, s₃, arms, s', classed, tested⟩, ?_, ?_⟩
    · exact guards (by rw [here]; simp only [List.append_assoc]) named way
    · exact aborts here named refused
  | bool | int | str | ident | new | binary | unary | letIn | block | loop | cond | assign =>
    trivial

end Exits

section Calls

open Hierarchy

/-- What a machine does where code calls a method. The stretch of code with the way past void and
with the call stands between other code; the method has that label. -/
structure Calls (B : Backend) (ι : Type) where
  /-- Where the value is an object of the class, it is called with the arguments. -/
  dynamic : List ι → List ι → List ι → B.Value → List B.Saved → ClassLayout → String → Prop
  /-- Where the value is not void, it is called with the arguments. -/
  direct : List ι → List ι → List ι → B.Value → List B.Saved → String → Prop

/-- Behind the code of its arguments and of its receiver, a dispatch calls the nearest declaration
above the class of the receiver, whatever heir of its static class that is. One that names a class
calls the method in that class's own slot. -/
def Dispatches (T : Transcript B ι) (X : Calls B ι) (ds : List ClassDecl) (cx : Context) (p : Pool)
    (code : List ι) : Expr → Prop
  | .dispatch _ recv static method args => ∃ before file v saved as es gs is after,
    code = before ++ as ++ es ++ (gs ++ is) ++ after ∧
    T.DispatchCode cx p recv static method args file v saved as es gs is ∧
    match static with
    | none => ∃ c, cx.classes.resolve recv.ty cx.current = .ok c ∧
      ∀ d ∈ cx.classes.classes, Descends ds d.name c.name → ∃ o m,
        Declared ds method d.name o m ∧ X.dynamic (before ++ as ++ es) (gs ++ is) after v saved d
          (Linkage.method o.name method)
    | some name => ∃ c slot m, cx.classes.find name = .ok c ∧ c.methodSlot method = .ok slot ∧
      c.methods[slot]? = some m ∧
      X.direct (before ++ as ++ es) (gs ++ is) after v saved m.label
  | _ => True

/-- The machine calls a method that is in the slot of the class of its receiver. -/
structure Calls.Reaches (X : Calls B ι) (T : Transcript B ι) (table : ClassTable)
    (code : List ι) : Prop where
  dynamic : ∀ {cx p recv args file v saved as es gs is before after t},
    code = before ++ as ++ es ++ (gs ++ is) ++ after →
    T.EntryCode cx p recv args file v saved as es gs t →
    ∀ {c slot r t'}, T.Puts (B.callDynamic v c slot saved) t r is t' →
    ∀ {d m}, d ∈ table.classes → d.methods[slot]? = some m →
    X.dynamic (before ++ as ++ es) (gs ++ is) after v saved d m.label
  direct : ∀ {cx p recv args file v saved as es gs is before after t},
    code = before ++ as ++ es ++ (gs ++ is) ++ after →
    T.EntryCode cx p recv args file v saved as es gs t →
    ∀ {label r t'}, T.Puts (B.callDirect label v saved) t r is t' →
    X.direct (before ++ as ++ es) (gs ++ is) after v saved label

theorem Has.dispatches {X : Calls B ι} {q : Program} {t : ClassTable} {k : ClassLayout}
    {code : List ι} {e : Expr} (law : T.account.Lawful) (legible : T.Legible)
    (h : ClassTable.build q = .ok t) (hk : k ∈ t.classes) (reaches : X.Reaches T t code)
    (has : T.Has ⟨t, k⟩ p code e) : T.Dispatches X q.classes ⟨t, k⟩ p code e := by
  obtain ⟨v, is, ⟨before, after, rfl⟩, emits⟩ := has
  cases e with
  | dispatch a recv static method args =>
    obtain ⟨file, u, saved, as, es, gs, ks, rfl, _, dispatches⟩ := emits.dispatch law legible
    have here : before ++ (as ++ (es ++ (gs ++ ks))) ++ after =
        before ++ as ++ es ++ (gs ++ ks) ++ after := by simp only [List.append_assoc]
    refine ⟨before, file, u, saved, as, es, gs, ks, after, here, dispatches, ?_⟩
    obtain ⟨_, entry, call⟩ := dispatches
    cases call with
    | dynamic known found puts =>
      refine ⟨_, known, fun d hd up => ?_⟩
      obtain ⟨o, m, declared, stands⟩ :=
        ClassTable.slot_declared h (ClassTable.resolve_mem hk known) hd up found
      exact ⟨o, m, declared, reaches.dynamic here entry puts hd stands⟩
    | direct known found puts =>
      obtain ⟨slot, m, at_, stands, rfl⟩ :=
        ClassTable.label_of_slot h (ClassTable.mem_of_find known) found
      exact ⟨_, slot, m, known, at_, stands, reaches.direct here entry puts⟩
  | bool | int | str | ident | new | binary | unary | letIn | block | loop | cond | assign
  | caseOf => trivial

end Calls

end Transcript

end ClassBackend
