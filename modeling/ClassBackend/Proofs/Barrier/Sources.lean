import ClassBackend.Proofs.Barrier.Tally
import ClassBackend.Proofs.Initializer.Transcript
import ClassBackend.Proofs.Text.GlobalName

/-! What the functions of a unit are made from, and how many barriers each of them has. An
initializer starts with the defaults of the class's own fields, which need none. -/
namespace ClassBackend

open Lowering

/-- A function of a unit is the initializer of a class or one of its methods. -/
inductive Source where
  | initializer (k : ClassLayout)
  | method (k : ClassLayout) (m : MethodDecl)

namespace Source

def label : Source → String
  | .initializer k => Linkage.initializer k.name
  | .method k m => Linkage.method k.name m.name

def formals : Source → Nat
  | .initializer _ => 0
  | .method _ m => m.formals.length

/-- The assignments in the function whose target is an attribute. -/
def assigns : Source → Nat
  | .initializer k => (k.decl.attributes.map fun a =>
      (a.init.map (Expr.attributeAssigns k [])).getD 0).sum
  | .method k m =>
    (m.body.map (Expr.attributeAssigns k ((m.formals.map (·.name)).reverse))).getD 0

/-- The attributes with an initializer expression, in an initializer. -/
def inits : Source → Nat
  | .initializer k => k.decl.attributes.countP (·.init.isSome)
  | .method .. => 0

/-- The own fields that the function gives a default, in an initializer. -/
def fills : Source → List Nat
  | .initializer k => List.range' k.ownStart k.ownFields.length
  | .method .. => []

def cls : Source → ClassLayout
  | .initializer k | .method k _ => k

end Source

def ClassLayout.sources (k : ClassLayout) : List Source :=
  .initializer k :: if k.isBuiltin then [] else k.decl.methods.map (.method k)

def ClassTable.sources (t : ClassTable) : List Source := t.classes.flatMap ClassLayout.sources

section Names

theorem initializer_unlike (cls : String) {routine : String}
    (h : routine.toList.getLast? ≠ some 't') : Linkage.initializer cls ≠ routine := by
  rintro rfl
  exact h (GlobalName.artifact_last cls .initializer)

theorem methodLabel_unlike {k : ClassLayout} {name label routine : String}
    (h : k.methodLabel name = .ok label) (dotless : '.' ∉ routine.toList) : label ≠ routine := by
  unfold ClassLayout.methodLabel at h
  split at h
  · rename_i m _
    cases h
    intro same
    rw [← same] at dotless
    exact dotless (GlobalName.method_dotted m.owner m.name)
  · cases h

end Names

namespace Tally

variable {B : Backend} {T : Tally B} {cx : Context} {β : Type} {n : Nat}

theorem storeInits_adds (law : T.Lawful) (slot : Nat) (as : List Attribute)
    (inits : ∀ i a, as[i]? = some a → a.init.isSome = true →
      T.Knows cx ∧ T.field cx.current (slot + i)) :
    T.Adds ((as.map fun a => (a.init.map (Expr.attributeAssigns cx.current [])).getD 0).sum +
      as.countP (·.init.isSome)) [] (Resolved.storeInits B cx slot as) := by
  induction as generalizing slot with
  | nil => exact .ret law
  | cons a as ih =>
    have rest := ih (slot + 1) fun i x there => by
      rw [Nat.add_right_comm, Nat.add_assoc]
      exact inits (i + 1) x there
    unfold Resolved.storeInits
    cases init : a.init with
    | none => simpa [init] using rest
    | some e =>
      obtain ⟨knows, field⟩ := inits 0 a rfl (by rw [init]; rfl)
      have value : T.Adds (e.attributeAssigns cx.current []) [] (Resolved.lower B cx [] e) :=
        lower_adds law knows (by simp) e
      have store (v : B.Value) : T.Adds 1 [] (do
          target (B.storeField B.selfObject cx.current slot v)
          target (B.writeBarrier B.selfObject cx.current slot)) := by
        intro s x s' _ run
        obtain ⟨_, s₁, stored, barred⟩ := bind_ok.mp run
        obtain ⟨t₁, first, rfl⟩ := target_ok.mp stored
        obtain ⟨t₂, second, rfl⟩ := target_ok.mp barred
        exact law.storeField field (bind_ok.mpr ⟨_, t₁, first, second⟩)
      have whole := value.bind law fun v => (store v).bind law fun _ => rest
      simp only [bind_assoc] at whole
      simp only [List.map_cons, List.sum_cons, List.countP_cons, init, Option.map_some,
        Option.getD_some, Option.isSome_some, if_true]
      convert whole using 1
      omega

theorem callParent_adds (law : T.Lawful) : T.Adds 0 [] (Transcript.callParent B cx) := by
  unfold Transcript.callParent
  cases cx.current.parent with
  | none => exact .ret law
  | some p => exact .found fun k _ => .step law (law.callInit k _) fun _ => .ret law

theorem formals_add (law : T.Lawful) (formal : ∀ {i n s a s'}, B.formal i n s = .ok (a, s') →
      T.adds 0 s s' ∧ T.slot s' a) (i count : Nat) (vars : Resolved.Vars B) (fs : List Formal)
    {held : List B.Local} (hvars : ∀ v ∈ vars, v.2 ∈ held) {f : Resolved.Vars B → Lowering B β}
    (k : ∀ vars' held', (∀ v ∈ vars', v.2 ∈ held') →
      vars'.map Prod.fst = (fs.map (·.name)).reverse ++ vars.map Prod.fst →
      T.Adds n held' (f vars')) :
    T.Adds n held (Resolved.formals B i count vars fs >>= f) := by
  induction fs generalizing i vars held with
  | nil =>
    rw [Resolved.formals, pure_bind]
    exact k vars held hvars (by simp)
  | cons x fs ih =>
    intro s b s' there run
    simp only [Resolved.formals, bind_assoc] at run
    obtain ⟨a, s₁, made, rest⟩ := bind_ok.mp run
    obtain ⟨t, op, rfl⟩ := target_ok.mp made
    obtain ⟨front, slot⟩ := formal op
    have inside : ∀ y ∈ a :: held, T.slot t y := by
      rintro y (_ | ⟨_, hy⟩)
      · exact slot
      · exact law.kept front (there y hy)
    have more := ih (i + 1) ((x.name, a) :: vars) (held_cons hvars a)
      fun vars' held' slots names => k vars' held' slots (by simp [names])
    have whole := law.trans front (more _ b s' inside rest)
    rwa [Nat.zero_add] at whole

end Tally

/-- A tally with the finished functions `Φ` and the open one, whose code is in items `ι`. -/
structure Watch (B : Backend) (Φ ι : Type) extends Tally B where
  idle : List Φ → B.State → Prop
  begun : List Φ → List ι → B.State → Prop
  /-- The open function has code with so many barriers behind its head. -/
  inside : List Φ → List ι → Nat → B.State → Prop
  opening : String → Nat → List ι
  default : ClassLayout → Nat → List ι → Prop
  /-- The function has that head, and so many barriers behind it. -/
  closed : List ι → Nat → Φ → Prop

namespace Watch

variable {B : Backend} {Φ ι α β : Type}

structure Lawful (W : Watch B Φ ι) : Prop extends W.toTally.Lawful where
  knows : ∀ {cx}, W.Knows cx
  field : ∀ {k i}, W.field k i
  start : W.idle [] B.start
  begin_ : ∀ {fs label n s s'}, W.idle fs s → B.beginFunction label n s = .ok ((), s') →
    W.begun fs (W.opening label n) s'
  native : ∀ {fs is k slot kind s s'}, W.begun fs is s →
    B.storeNative B.selfObject k slot kind s = .ok ((), s') →
    ∃ js, W.begun fs (is ++ js) s' ∧ W.default k slot js
  object : ∀ {fs is k slot c s s'}, W.begun fs is s →
    (B.constant c >>= B.storeField B.selfObject k slot) s = .ok ((), s') →
    ∃ js, W.begun fs (is ++ js) s' ∧ W.default k slot js
  void : ∀ {fs is k slot s s'}, W.begun fs is s →
    B.storeField B.selfObject k slot B.voidValue s = .ok ((), s') →
    ∃ js, W.begun fs (is ++ js) s' ∧ W.default k slot js
  begun_inside : ∀ {fs is s}, W.begun fs is s → W.inside fs is 0 s
  inside_adds : ∀ {fs is n m s s'}, W.inside fs is n s → W.adds m s s' →
    W.inside fs is (n + m) s'
  formal : ∀ {i n s a s'}, B.formal i n s = .ok (a, s') → W.adds 0 s s' ∧ W.slot s' a
  end_ : ∀ {fs is n v m s s'}, W.inside fs is n s → B.endFunction v m s = .ok ((), s') →
    ∃ f, W.idle (fs ++ [f]) s' ∧ W.closed is n f

variable {W : Watch B Φ ι} {cx : Context} {fs : List Φ} {is : List ι} {s s' : Session B}
variable {m : Lowering B α} {a : α} {n i : Nat}

def Filled (W : Watch B Φ ι) (k : ClassLayout) (slots : List Nat) (is : List ι) : Prop :=
  ∃ ps, List.Forall₂ (W.default k) slots ps ∧ is = ps.flatten

/-- The function of a source has the defaults in its head, and behind it a barrier for each
assignment to an attribute and each initializer expression. -/
def Keeps (W : Watch B Φ ι) (src : Source) (f : Φ) : Prop :=
  ∃ ds, W.Filled src.cls src.fills ds ∧
    W.closed (W.opening src.label src.formals ++ ds) (src.assigns + src.inits) f

section Defaults

def Fills (W : Watch B Φ ι) (k : ClassLayout) (slots : List Nat) (m : Lowering B Unit) : Prop :=
  ∀ fs is s s', W.begun fs is s.target → m s = .ok ((), s') →
    ∃ ds, W.Filled k slots ds ∧ W.begun fs (is ++ ds) s'.target

theorem Fills.one {k : ClassLayout} {slot : Nat} {m : Lowering B Unit}
    (h : ∀ fs is s s', W.begun fs is s.target → m s = .ok ((), s') →
      ∃ js, W.begun fs (is ++ js) s'.target ∧ W.default k slot js) : W.Fills k [slot] m := by
  intro fs is s s' there run
  obtain ⟨js, there', default⟩ := h fs is s s' there run
  exact ⟨js, ⟨[js], .cons default .nil, by simp⟩, there'⟩

theorem Fills.seq {k : ClassLayout} {slots slots' : List Nat} {m m' : Lowering B Unit}
    (h : W.Fills k slots m) (h' : W.Fills k slots' m') :
    W.Fills k (slots ++ slots') (m >>= fun _ => m') := by
  intro fs is s s' there run
  obtain ⟨_, s₁, first, second⟩ := bind_ok.mp run
  obtain ⟨ds, ⟨ps, defaults, rfl⟩, there₁⟩ := h fs is s s₁ there first
  obtain ⟨es, ⟨qs, defaults', rfl⟩, there₂⟩ := h' fs _ s₁ s' there₁ second
  refine ⟨ps.flatten ++ qs.flatten, ⟨ps ++ qs, List.rel_append defaults defaults', by simp⟩, ?_⟩
  rwa [← List.append_assoc]

theorem default_fills (law : W.Lawful) (slot : Nat) (f : Field) :
    W.Fills cx.current [slot] (match NativeKind.ofType? f.ty with
      | some kind => target (B.storeNative B.selfObject cx.current slot kind)
      | none => do
        let v ← defaultValue B f.ty
        target (B.storeField B.selfObject cx.current slot v)) := by
  apply Fills.one
  intro fs is s s' there run
  cases kind : NativeKind.ofType? f.ty with
  | some kind =>
    rw [kind] at run
    obtain ⟨t, op, rfl⟩ := target_ok.mp run
    exact law.native there op
  | none =>
    simp only [kind, defaultValue, bind_assoc] at run
    obtain ⟨c, s₁, taken, run⟩ := bind_ok.mp run
    have kept : s₁.target = s.target := by
      cases taken
      rfl
    rw [← kept] at there
    cases c with
    | none =>
      rw [pure_bind] at run
      obtain ⟨t, op, rfl⟩ := target_ok.mp run
      exact law.void there op
    | some c =>
      obtain ⟨v, s₂, loaded, stored⟩ := bind_ok.mp run
      obtain ⟨t₁, first, rfl⟩ := target_ok.mp loaded
      obtain ⟨t₂, second, rfl⟩ := target_ok.mp stored
      exact law.object there (bind_ok.mpr ⟨v, t₁, first, second⟩)

theorem storeDefaults_fills (law : W.Lawful) (slot : Nat) (fs : List Field) :
    W.Fills cx.current (List.range' slot fs.length) (storeDefaults B cx slot fs) := by
  induction fs generalizing slot with
  | nil =>
    intro gs is s s' there run
    obtain ⟨_, rfl⟩ := pure_ok.mp run
    exact ⟨[], ⟨[], .nil, rfl⟩, by simpa using there⟩
  | cons f fs ih =>
    have both := Fills.seq (default_fills law slot f) (ih (slot + 1))
    rw [List.length_cons, List.range'_succ]
    unfold storeDefaults
    cases kind : NativeKind.ofType? f.ty <;> simpa [kind] using both

end Defaults

section Functions

theorem inside_of_adds (law : W.Lawful) (h : W.Adds i [] m) (there : W.inside fs is n s.target)
    (run : m s = .ok (a, s')) : W.inside fs is (n + i) s'.target :=
  law.inside_adds there (h s a s' (by simp) run)

theorem initializer_keeps (law : W.Lawful) (there : W.idle fs s.target)
    (run : Resolved.initializer B cx s = .ok ((), s')) :
    ∃ f, W.idle (fs ++ [f]) s'.target ∧ W.Keeps (.initializer cx.current) f := by
  rw [Transcript.initializer_eq] at run
  obtain ⟨_, s₁, began, run⟩ := bind_ok.mp run
  obtain ⟨t₁, op, rfl⟩ := target_ok.mp began
  obtain ⟨_, s₂, body, ended⟩ := bind_ok.mp run
  obtain ⟨t₂, last, rfl⟩ := target_ok.mp ended
  obtain ⟨_, s₃, stored, rest⟩ := bind_ok.mp body
  obtain ⟨ds, filled, begun⟩ := storeDefaults_fills law _ _ _ _ _ _ (law.begin_ there op) stored
  have tail : W.Adds _ [] (do
      Transcript.callParent B cx
      Resolved.storeInits B cx cx.current.ownStart cx.current.decl.attributes) :=
    .then law.toLawful (Tally.callParent_adds law.toLawful) fun _ =>
      Tally.storeInits_adds law.toLawful _ _ fun _ _ _ _ => ⟨law.knows, law.field⟩
  have inside := inside_of_adds law tail (law.begun_inside begun) rest
  rw [Nat.zero_add] at inside
  obtain ⟨f, idle, closed⟩ := law.end_ inside last
  exact ⟨f, idle, ds, filled, closed⟩

theorem method_keeps (law : W.Lawful) (m : MethodDecl) {body : Expr} (present : m.body = some body)
    (there : W.idle fs s.target)
    (run : Resolved.method B cx m.name m.formals body s = .ok ((), s')) :
    ∃ f, W.idle (fs ++ [f]) s'.target ∧ W.Keeps (.method cx.current m) f := by
  obtain ⟨_, s₁, began, run⟩ := bind_ok.mp run
  obtain ⟨t₁, op, rfl⟩ := target_ok.mp began
  have code : W.Adds (body.attributeAssigns cx.current (m.formals.map (·.name)).reverse) [] (do
      let vars ← Resolved.formals B 0 m.formals.length [] m.formals
      Resolved.lower B cx vars body) := by
    refine Tally.formals_add law.toLawful law.formal 0 _ [] m.formals (by simp)
      fun vars held slots names => ?_
    rw [List.map_nil, List.append_nil] at names
    rw [← names]
    exact Tally.lower_adds law.toLawful law.knows slots body
  have split : (do
      let vars ← Resolved.formals B 0 m.formals.length [] m.formals
      let v ← Resolved.lower B cx vars body
      target (B.endFunction v m.formals.length)) = (do
      let v ← (do
        let vars ← Resolved.formals B 0 m.formals.length [] m.formals
        Resolved.lower B cx vars body)
      target (B.endFunction v m.formals.length)) := by
    rw [bind_assoc]
  rw [split] at run
  obtain ⟨v, s₂, lowered, ended⟩ := bind_ok.mp run
  obtain ⟨t₂, last, rfl⟩ := target_ok.mp ended
  have inside := inside_of_adds law code (law.begun_inside (law.begin_ there op)) lowered
  obtain ⟨f, idle, closed⟩ := law.end_ inside last
  refine ⟨f, idle, [], ⟨[], .nil, rfl⟩, ?_⟩
  rw [Nat.zero_add] at closed
  simpa [Source.assigns, Source.inits, Source.label, Source.formals, present] using closed

end Functions

section Unit

def Makes (W : Watch B Φ ι) (srcs : List Source) (m : Lowering B Unit) : Prop :=
  ∀ fs s s', W.idle fs s.target → m s = .ok ((), s') →
    ∃ gs, W.idle (fs ++ gs) s'.target ∧ List.Forall₂ W.Keeps srcs gs

theorem Makes.nothing : W.Makes [] (pure ()) := by
  intro fs s s' there run
  obtain ⟨_, rfl⟩ := pure_ok.mp run
  exact ⟨[], by simpa using there, .nil⟩

theorem Makes.seq {srcs srcs' : List Source} {m m' : Lowering B Unit} (h : W.Makes srcs m)
    (h' : W.Makes srcs' m') : W.Makes (srcs ++ srcs') (m >>= fun _ => m') := by
  intro fs s s' there run
  obtain ⟨_, s₁, first, second⟩ := bind_ok.mp run
  obtain ⟨gs, there₁, keeps⟩ := h fs s s₁ there first
  obtain ⟨hs, there₂, keeps'⟩ := h' _ s₁ s' there₁ second
  exact ⟨gs ++ hs, by rwa [← List.append_assoc], List.rel_append keeps keeps'⟩

theorem Makes.one {src : Source} {m : Lowering B Unit} (h : ∀ fs s s', W.idle fs s.target →
    m s = .ok ((), s') → ∃ f, W.idle (fs ++ [f]) s'.target ∧ W.Keeps src f) :
    W.Makes [src] m := by
  intro fs s s' there run
  obtain ⟨f, there', keeps⟩ := h fs s s' there run
  exact ⟨[f], there', .cons keeps .nil⟩

theorem methods_make (law : W.Lawful) (ms : List MethodDecl) :
    W.Makes (ms.map (.method cx.current)) (Resolved.methods B cx ms) := by
  induction ms with
  | nil => exact .nothing
  | cons m ms ih =>
    unfold Resolved.methods
    cases body : m.body with
    | none =>
      intro _ _ _ _ run
      cases run
    | some e =>
      have first : W.Makes [.method cx.current m]
          (Resolved.method B cx m.name m.formals e) :=
        .one fun _ _ _ there run => method_keeps law m body there run
      exact first.seq ih

theorem classCode_makes (law : W.Lawful) :
    W.Makes cx.current.sources (Resolved.classCode B cx) := by
  have first : W.Makes [.initializer cx.current] (Resolved.initializer B cx) :=
    .one fun _ _ _ there run => initializer_keeps law there run
  refine first.seq ?_
  cases cx.current.isBuiltin with
  | true => exact .nothing
  | false => exact methods_make law _

theorem classCodes_make (law : W.Lawful) {t : ClassTable} (ks : List ClassLayout) :
    W.Makes (ks.flatMap ClassLayout.sources) (Resolved.classCodes B t ks) := by
  induction ks with
  | nil => exact .nothing
  | cons k ks ih =>
    have first : W.Makes k.sources (Resolved.classCode B ⟨t, k⟩) := classCode_makes law
    exact first.seq ih

/-- The functions of a unit, one for each source. -/
theorem emitUnit_keeps (law : W.Lawful) {p : Program} {t : ClassTable}
    (h : ClassTable.build p = .ok t) (emitted : Lowering.emitUnit B t = .ok s) :
    ∃ fs, W.idle fs s.target ∧ List.Forall₂ W.Keeps t.sources fs := by
  have resolved := Resolved.emitUnit_of_ok h emitted
  unfold Resolved.emitUnit at resolved
  obtain ⟨⟨_, s'⟩, run, same⟩ := except_bind_ok.mp resolved
  obtain ⟨fs, idle, keeps⟩ := classCodes_make law t.classes [] _ s' law.start run
  obtain ⟨-, state⟩ := Prod.mk.inj (except_pure_ok.mp same)
  rw [← state]
  exact ⟨fs, by simpa using idle, keeps⟩

end Unit

end Watch

end ClassBackend
