import ClassBackend.Proofs.Account.Unit
import ClassBackend.Proofs.Initializer.Plan

/-! Functions as rows of code. A transcript reads off the state of a backend which functions are
finished and what the open one has so far; emission only ever writes on. With it the code of an
initializer falls into the pieces of its steps. -/
namespace ClassBackend

open Lowering

structure Transcript (B : Backend) (ι : Type) where
  /-- Between functions: those that are finished. -/
  idle : List (List ι) → B.State → Prop
  /-- The finished functions, and the code of the open one. -/
  inside : List (List ι) → List ι → B.State → Prop

namespace Transcript

variable {B : Backend} {ι α : Type}

structure Place (ι : Type) where
  done : List (List ι)
  code : List ι
  pool : Pool

structure Place.Le (w w' : Place ι) : Prop where
  done : w'.done = w.done
  code : w.code <+: w'.code
  pool : PoolLe w.pool w'.pool

theorem Place.Le.refl (w : Place ι) : w.Le w := ⟨rfl, List.prefix_refl _, .refl _⟩

theorem Place.Le.trans {u w w' : Place ι} (h : u.Le w) (h' : w.Le w') : u.Le w' :=
  ⟨h'.done.trans h.done, h.code.trans h'.code, h.pool.trans h'.pool⟩

variable (T : Transcript B ι)

/-- The account of how much is written. It lets code use all that there is. -/
@[reducible] def account : Account B where
  World := Place ι
  le := Place.Le
  later := Place.Le
  idle _ _ t := ∃ fs, T.idle fs t
  inside w p t := w.pool = p ∧ T.inside w.done w.code t
  shut w p t := w.pool = p ∧ T.inside w.done w.code t
  frame _ _ _ := True
  const _ _ := True
  value _ _ := True
  raw _ _ := True
  slot _ _ := True
  saved _ _ := True
  entered w _ u := u.Le w
  arm _ _ _ := True
  cls _ := True
  label _ := True

def Writes (m : Emit B.State α) : Prop :=
  ∀ fs is s a s', T.inside fs is s → m s = .ok (a, s') → ∃ js, T.inside fs (is ++ js) s'

/-- Code that the lowering writes for an expression of the class, where its fields are in scope and
nothing else is. -/
def Lowers (cx : Context) (e : Expr) (v : B.Value) (is : List ι) : Prop :=
  ∃ s s' fs before, (∀ name, name ≠ selfName →
      (binding name s).toOption.map Prod.fst = (cx.current.fieldSlot name).toOption.map .field) ∧
    lower B cx e s = .ok (v, s') ∧ T.inside fs before s.target ∧
    T.inside fs (before ++ is) s'.target

open Initializer

/-- What the steps of an initializer are written as, for constants of the pool. -/
abbrev Script (ι : Type) := Context → Pool → Step → List ι → Prop

variable (script : Script ι)

/-- The operations that make up an initializer write the code of its steps. -/
structure Follows : Prop where
  enter : ∀ {cx p fs s s'}, T.idle fs s →
    B.beginFunction (Linkage.initializer cx.current.name) 0 s = .ok ((), s') →
    ∃ is, T.inside fs is s' ∧ script cx p .enter is
  native : ∀ {cx p fs is s slot kind s'}, T.inside fs is s →
    B.storeNative B.selfObject cx.current slot kind s = .ok ((), s') →
    ∃ js, T.inside fs (is ++ js) s' ∧ script cx p (.default slot (.native kind)) js
  object : ∀ {cx p fs is s slot c l s'}, T.inside fs is s → Denotes p c l →
    (B.constant c >>= B.storeField B.selfObject cx.current slot) s = .ok ((), s') →
    ∃ js, T.inside fs (is ++ js) s' ∧ script cx p (.default slot (.object l)) js
  void : ∀ {cx p fs is s slot s'}, T.inside fs is s →
    B.storeField B.selfObject cx.current slot B.voidValue s = .ok ((), s') →
    ∃ js, T.inside fs (is ++ js) s' ∧ script cx p (.default slot .void) js
  parent : ∀ {cx p fs is s k v s'}, T.inside fs is s → B.callInit k B.selfObject s = .ok (v, s') →
    ∃ js, T.inside fs (is ++ js) s' ∧ script cx p (.parent k.name) js
  init : ∀ {cx p fs is s e v es slot s'}, T.inside fs is s → T.Lowers cx e v es →
    (do B.storeField B.selfObject cx.current slot v
        B.writeBarrier B.selfObject cx.current slot) s = .ok ((), s') →
    ∃ js, T.inside fs (is ++ js) s' ∧ script cx p (.init slot e) (es ++ js)
  leave : ∀ {cx p fs is s s'}, T.inside fs is s →
    B.endFunction B.selfObject 0 s = .ok ((), s') →
    ∃ js, T.idle (fs ++ [is ++ js]) s' ∧ script cx p .leave js

structure Bounds : Prop where
  start : T.idle [] B.start
  begin_ : ∀ {fs s label n s'}, T.idle fs s → B.beginFunction label n s = .ok ((), s') →
    ∃ is, T.inside fs is s'
  formal : ∀ {i n}, T.Writes (B.formal i n)
  end_ : ∀ {fs is s v n s'}, T.inside fs is s → B.endFunction v n s = .ok ((), s') →
    ∃ js, T.idle (fs ++ [is ++ js]) s'

structure Lawful : Prop extends T.Bounds, T.Follows script where
  account : T.account.Lawful
  grows : ∀ {cx p q step is}, PoolLe p q → script cx p step is → script cx q step is

variable {T script} {cx : Context} {m m' : Lowering B Unit} {steps steps' : List Step}
variable {p q : Pool} {ps ps' : List (Piece ι)}

section Growth

theorem Writes.keeps {m : Emit B.State α} (h : T.Writes m) {w : Place ι} :
    T.account.Keeps w m fun _ _ => True := by
  intro p t a t' ⟨pool, there⟩ run
  obtain ⟨js, there'⟩ := h _ _ _ _ _ there run
  exact ⟨⟨w.done, w.code ++ js, w.pool⟩, ⟨rfl, List.prefix_append .., .refl _⟩, ⟨pool, there'⟩,
    trivial⟩

theorem Writes.opens {m : Emit B.State α} (h : T.Writes m) {u w : Place ι} (entered : u.Le w) :
    T.account.Opens w u m fun _ _ => True := by
  intro p t a t' there run
  obtain ⟨w', grown, there', ha⟩ := h.keeps (w := w) p t a t' there run
  exact ⟨w', grown, entered.trans grown, there', ha⟩

theorem ordered (T : Transcript B ι) : T.account.Ordered where
  refl := Place.Le.refl
  trans := Place.Le.trans
  later_trans := Place.Le.trans
  later := id
  const _ _ := trivial
  value _ _ := trivial
  raw _ _ := trivial
  slot _ _ := trivial
  saved _ _ := trivial
  frame _ _ := trivial
  entered known entered := entered.trans known
  arm _ _ := trivial

theorem pool_grows {w : Place ι} {t : B.State} (there : T.account.inside w p t)
    (grown : PoolLe p q) : ∃ w', w.Le w' ∧ T.account.inside w' q t ∧
      ∀ c l, Denotes q c l → T.account.const w' c := by
  obtain ⟨rfl, there⟩ := there
  exact ⟨⟨w.done, w.code, q⟩, ⟨rfl, List.prefix_refl _, grown⟩, ⟨rfl, there⟩, fun _ _ _ => trivial⟩

theorem does_writes {m : Lowering B α} {R : Place ι → α → Prop} {fs : List (List ι)} {is : List ι}
    {s s' : Session B} {a : α} (h : ∀ w, T.account.Does w m R) (there : T.inside fs is s.target)
    (run : m s = .ok (a, s')) :
    ∃ js, T.inside fs (is ++ js) s'.target ∧ PoolLe s.pool s'.pool := by
  obtain ⟨⟨done, _, pool⟩, ⟨same, ⟨js, rfl⟩, grown⟩, ⟨now, there'⟩, _⟩ :=
    h ⟨fs, is, s.pool⟩ s a s' ⟨rfl, there⟩ run
  cases same
  cases now
  exact ⟨js, there', grown⟩

theorem framed (bounds : T.Bounds) : T.account.Framed where
  start := ⟨[], bounds.start⟩
  beginFunction := by
    intro _ p _ _ _ _ ⟨fs, there⟩ run
    obtain ⟨is, there'⟩ := bounds.begin_ there run
    exact ⟨⟨fs, is, p⟩, ⟨rfl, there'⟩, trivial⟩
  formal _ _ := bounds.formal.keeps
  endFunction := by
    intro _ _ _ _ _ _ _ ⟨_, there⟩ _ _ run
    obtain ⟨js, there'⟩ := bounds.end_ there run
    exact ⟨_, there'⟩

theorem knows (cx : Context) : T.account.Knows cx := ⟨fun _ => trivial, trivial, fun _ _ => trivial⟩

theorem lower_writes (law : T.Lawful script) (e : Expr) {fs : List (List ι)} {is : List ι}
    {s s' : Session B} {v : B.Value} (there : T.inside fs is s.target)
    (run : Resolved.lower B cx [] e s = .ok (v, s')) :
    ∃ js, T.inside fs (is ++ js) s'.target ∧ PoolLe s.pool s'.pool :=
  does_writes (fun _ => (Account.lower_fits law.account (knows cx) (fun _ _ => trivial)
    e).does law.account) there run

end Growth

section Pieces

def Recorded (script : Script ι) (cx : Context) (p : Pool) (steps : List Step)
    (ps : List (Piece ι)) : Prop :=
  ps.map Prod.fst = steps ∧ ∀ x ∈ ps, script cx p x.1 x.2

theorem Recorded.grow (law : T.Lawful script) (h : Recorded script cx p steps ps)
    (grown : PoolLe p q) : Recorded script cx q steps ps :=
  ⟨h.1, fun x hx => law.grows grown (h.2 x hx)⟩

theorem Recorded.append (h : Recorded script cx p steps ps)
    (h' : Recorded script cx p steps' ps') :
    Recorded script cx p (steps ++ steps') (ps ++ ps') := by
  refine ⟨by rw [List.map_append, h.1, h'.1], fun x hx => ?_⟩
  exact (List.mem_append.mp hx).elim (h.2 x) (h'.2 x)

theorem Recorded.one {step : Step} {is : List ι} (h : script cx p step is) :
    Recorded script cx p [step] [(step, is)] :=
  ⟨rfl, by simpa using h⟩

def Traces (T : Transcript B ι) (script : Script ι) (cx : Context) (steps : List Step)
    (m : Lowering B Unit) : Prop :=
  ∀ fs is s s', T.inside fs is s.target → m s = .ok ((), s') → ∃ ps,
    T.inside fs (is ++ ps.flatMap Prod.snd) s'.target ∧ PoolLe s.pool s'.pool ∧
    Recorded script cx s'.pool steps ps

theorem Traces.nothing : Traces T script cx [] (pure ()) := by
  intro fs is s s' there run
  obtain ⟨_, rfl⟩ := pure_ok.mp run
  exact ⟨[], by simpa using there, .refl _, rfl, by simp⟩

theorem Traces.seq (law : T.Lawful script) (h : Traces T script cx steps m)
    (h' : Traces T script cx steps' m') :
    Traces T script cx (steps ++ steps') (m >>= fun _ => m') := by
  intro fs is s s' there run
  obtain ⟨_, s₁, first, second⟩ := bind_ok.mp run
  obtain ⟨ps, there₁, grown₁, recorded₁⟩ := h _ _ _ _ there first
  obtain ⟨qs, there₂, grown₂, recorded₂⟩ := h' _ _ _ _ there₁ second
  refine ⟨ps ++ qs, ?_, grown₁.trans grown₂, (recorded₁.grow law grown₂).append recorded₂⟩
  rw [List.flatMap_append, ← List.append_assoc]
  exact there₂

theorem Traces.one {step : Step}
    (h : ∀ fs is s s', T.inside fs is s.target → m s = .ok ((), s') → ∃ js,
      T.inside fs (is ++ js) s'.target ∧ PoolLe s.pool s'.pool ∧ script cx s'.pool step js) :
    Traces T script cx [step] m := by
  intro fs is s s' there run
  obtain ⟨js, there', grown, written⟩ := h _ _ _ _ there run
  exact ⟨[(step, js)], by simpa using there', grown, .one written⟩

theorem Traces.step {step : Step} {x : Emit B.State Unit}
    (h : ∀ p fs is s s', T.inside fs is s → x s = .ok ((), s') → ∃ js,
      T.inside fs (is ++ js) s' ∧ script cx p step js) :
    Traces T script cx [step] (target x) := by
  apply Traces.one
  intro fs is s s' there run
  obtain ⟨t, op, rfl⟩ := target_ok.mp run
  obtain ⟨js, there', written⟩ := h s.pool _ _ _ _ there op
  exact ⟨js, there', .refl _, written⟩

end Pieces

section Defaults

theorem literal_traces (law : T.Lawful script) {slot : Nat} {g : Pool → Const × Pool}
    {l : Meaning.Literal} (pools : ∀ p, PoolLe p (g p).2 ∧ Denotes (g p).2 (g p).1 l) :
    Traces T script cx [.default slot (.object l)] (do
      let c ← pooled g
      let v ← target (B.constant c)
      target (B.storeField B.selfObject cx.current slot v)) := by
  apply Traces.one
  intro fs is s s' there run
  obtain ⟨c, s₁, taken, run⟩ := bind_ok.mp run
  cases taken
  obtain ⟨grown, denotes⟩ := pools s.pool
  obtain ⟨v, s₂, loaded, stored⟩ := bind_ok.mp run
  obtain ⟨t₁, first, rfl⟩ := target_ok.mp loaded
  obtain ⟨t₂, second, rfl⟩ := target_ok.mp stored
  obtain ⟨js, there', written⟩ :=
    law.object there denotes (bind_ok.mpr ⟨v, t₁, first, second⟩)
  exact ⟨js, there', grown, written⟩

theorem void_traces (law : T.Lawful script) {slot : Nat} :
    Traces T script cx [.default slot .void] (do
      let v ← (pure B.voidValue : Lowering B B.Value)
      target (B.storeField B.selfObject cx.current slot v)) := by
  rw [pure_bind]
  exact .step fun _ _ _ _ _ there run => law.void there run

theorem default_traces (law : T.Lawful script) (slot : Nat) (f : Field) :
    Traces T script cx [.default slot (.ofType f.ty)]
      (match NativeKind.ofType? f.ty with
      | some kind => target (B.storeNative B.selfObject cx.current slot kind)
      | none => do
        let v ← defaultValue B f.ty
        target (B.storeField B.selfObject cx.current slot v)) := by
  unfold Default.ofType
  cases NativeKind.ofType? f.ty with
  | some kind => exact .step fun _ _ _ _ _ there run => law.native there run
  | none =>
    rw [defaultValue_eq]
    dsimp only
    split
    · simp only [intLiteral, bind_assoc]
      exact literal_traces law (int_pooled 0)
    · split
      · apply Traces.one
        intro fs is s s' there run
        obtain ⟨v, s₁, loaded, stored⟩ := bind_ok.mp run
        obtain ⟨t₁, first, rfl⟩ := target_ok.mp loaded
        obtain ⟨t₂, second, rfl⟩ := target_ok.mp stored
        obtain ⟨js, there', written⟩ := law.object (p := s.pool) (c := .bool false)
          (l := .bool false) there rfl (bind_ok.mpr ⟨v, t₁, first, second⟩)
        exact ⟨js, there', .refl _, written⟩
      · split
        · simp only [stringLiteral, bind_assoc]
          exact literal_traces law (string_pooled "")
        · exact void_traces law

theorem storeDefaults_traces (law : T.Lawful script) (slot : Nat) (fs : List Field) :
    Traces T script cx (defaultsFrom slot fs) (storeDefaults B cx slot fs) := by
  induction fs generalizing slot with
  | nil => exact .nothing
  | cons f fs ih =>
    rw [defaultsFrom_cons]
    have first : Traces T script cx _ _ := default_traces law slot f
    have both := first.seq law (ih (slot + 1))
    unfold storeDefaults
    cases kind : NativeKind.ofType? f.ty with
    | some n =>
      simp only [kind] at both
      exact both
    | none =>
      simp only [kind, bind_assoc] at both
      exact both

end Defaults

section Initializers

/-- The code that stands for initializer expressions without a symbol table is that of the lowering,
in a session where the fields of the class are in scope. -/
def Shown (B : Backend) (cx : Context) : Prop :=
  ∀ e s v s', Resolved.lower B cx [] e s = .ok (v, s') → ∃ σ σ' : Session B,
    (∀ name, name ≠ selfName →
      (binding name σ).toOption.map Prod.fst = (cx.current.fieldSlot name).toOption.map .field) ∧
    lower B cx e σ = .ok (v, σ') ∧ σ.target = s.target ∧ σ'.target = s'.target

theorem init_traces (law : T.Lawful script) (shown : Shown B cx) (slot : Nat) (e : Expr) :
    Traces T script cx [.init slot e] (do
      let v ← Resolved.lower B cx [] e
      target (B.storeField B.selfObject cx.current slot v)
      target (B.writeBarrier B.selfObject cx.current slot)) := by
  apply Traces.one
  intro fs is s s' there run
  obtain ⟨v, s₁, lowered, run⟩ := bind_ok.mp run
  obtain ⟨_, s₂, stored, barred⟩ := bind_ok.mp run
  obtain ⟨t₁, first, rfl⟩ := target_ok.mp stored
  obtain ⟨t₂, second, rfl⟩ := target_ok.mp barred
  obtain ⟨es, there₁, grown⟩ := lower_writes law e there lowered
  obtain ⟨σ, σ', inScope, same, before, after⟩ := shown e s v s₁ lowered
  have code : T.Lowers cx e v es :=
    ⟨σ, σ', fs, is, inScope, same, before ▸ there, after ▸ there₁⟩
  obtain ⟨js, there₂, written⟩ :=
    law.init (p := s₁.pool) there₁ code (bind_ok.mpr ⟨_, t₁, first, second⟩)
  exact ⟨es ++ js, by rwa [← List.append_assoc], grown, written⟩

theorem storeInits_traces (law : T.Lawful script) (shown : Shown B cx) (slot : Nat)
    (as : List Attribute) :
    Traces T script cx (initsFrom slot as) (Resolved.storeInits B cx slot as) := by
  induction as generalizing slot with
  | nil => exact .nothing
  | cons a as ih =>
    rw [initsFrom_cons]
    unfold Resolved.storeInits
    cases a.init with
    | none => exact ih (slot + 1)
    | some e =>
      have both := (init_traces law shown slot e).seq law (ih (slot + 1))
      simp only [bind_assoc] at both
      exact both

/-- The call of the parent's initializer, where there is a parent. -/
def callParent (B : Backend) (cx : Context) : Lowering B Unit :=
  match cx.current.parent with
  | some p => do
    let parent ← Lowering.ofExcept (cx.classes.find p)
    let _ ← target (B.callInit parent B.selfObject)
    pure ()
  | none => pure ()

theorem callParent_traces (law : T.Lawful script) :
    Traces T script cx (calls cx.current) (callParent B cx) := by
  unfold calls callParent
  cases cx.current.parent with
  | none => exact .nothing
  | some p =>
    apply Traces.one
    intro fs is s s' there run
    obtain ⟨k, s₁, found, rest⟩ := bind_ok.mp run
    obtain ⟨known, rfl⟩ := ofExcept_ok.mp found
    obtain ⟨v, s₂, called, last⟩ := bind_ok.mp rest
    obtain ⟨t, op, rfl⟩ := target_ok.mp called
    obtain ⟨_, rfl⟩ := pure_ok.mp last
    obtain ⟨js, there', written⟩ := law.parent (p := s₁.pool) there op
    rw [ClassTable.name_of_find known] at written
    exact ⟨js, there', .refl _, written⟩

/-- What stands between the beginning of the function and its end. -/
def initBody (B : Backend) (cx : Context) : Lowering B Unit := do
  storeDefaults B cx cx.current.ownStart cx.current.ownFields
  callParent B cx
  Resolved.storeInits B cx cx.current.ownStart cx.current.decl.attributes

theorem initializer_eq (B : Backend) (cx : Context) : Resolved.initializer B cx = (do
    target (B.beginFunction (Linkage.initializer cx.current.name) 0)
    initBody B cx
    target (B.endFunction B.selfObject 0)) := by
  unfold Resolved.initializer initBody callParent
  cases parent : cx.current.parent <;> simp [parent]

theorem initBody_traces (law : T.Lawful script) (shown : Shown B cx) :
    Traces T script cx (defaults cx.current ++ (calls cx.current ++ inits cx.current))
      (initBody B cx) :=
  (storeDefaults_traces law _ _).seq law
    ((callParent_traces law).seq law (storeInits_traces law shown _ _))

theorem initializer_traces (law : T.Lawful script) (shown : Shown B cx) {fs : List (List ι)}
    {s s' : Session B} (there : T.idle fs s.target)
    (run : Resolved.initializer B cx s = .ok ((), s')) : ∃ ps,
      T.idle (fs ++ [ps.flatMap Prod.snd]) s'.target ∧ PoolLe s.pool s'.pool ∧
      Recorded script cx s'.pool (plan cx.current) ps := by
  rw [initializer_eq] at run
  obtain ⟨_, s₁, began, run⟩ := bind_ok.mp run
  obtain ⟨t₁, first, rfl⟩ := target_ok.mp began
  obtain ⟨_, s₂, walked, ended⟩ := bind_ok.mp run
  obtain ⟨t₂, last, rfl⟩ := target_ok.mp ended
  obtain ⟨is, there₁, entered⟩ := law.enter (p := s.pool) there first
  obtain ⟨ps, there₂, grown, recorded⟩ := initBody_traces law shown _ _ _ _ there₁ walked
  obtain ⟨js, there₃, left⟩ := law.leave (p := s₂.pool) there₂ last
  have enter := (Recorded.one entered).grow law grown
  have whole := enter.append (recorded.append (.one left))
  refine ⟨_, ?_, grown, by simpa [plan] using whole⟩
  simpa using there₃

end Initializers

section Unit

variable {fs : List (List ι)} {s s' : Session B}

theorem method_writes (law : T.Lawful script) (name : String) (formals : List Formal)
    (body : Expr) (there : T.idle fs s.target)
    (run : Resolved.method B cx name formals body s = .ok ((), s')) :
    ∃ f, T.idle (fs ++ [f]) s'.target ∧ PoolLe s.pool s'.pool := by
  obtain ⟨_, s₁, began, run⟩ := bind_ok.mp run
  obtain ⟨t₁, first, rfl⟩ := target_ok.mp began
  obtain ⟨vars, s₂, bound, run⟩ := bind_ok.mp run
  obtain ⟨v, s₃, lowered, ended⟩ := bind_ok.mp run
  obtain ⟨t₂, last, rfl⟩ := target_ok.mp ended
  obtain ⟨is, there₁⟩ := law.begin_ there first
  have formal (w : Place ι) : T.account.Does w (Resolved.formals B 0 formals.length [] formals) _ :=
    Account.formals_does (L := []) (framed law.toBounds) law.account trivial (by omega) (by simp)
  obtain ⟨js, there₂, grown⟩ := does_writes formal there₁ bound
  have code (w : Place ι) : T.account.Does w (Resolved.lower B cx vars body) _ :=
    (Account.lower_fits law.account (knows cx) (fun _ _ => trivial) body).does law.account
  obtain ⟨es, there₃, grown'⟩ := does_writes code there₂ lowered
  obtain ⟨_, there₄⟩ := law.end_ there₃ last
  exact ⟨_, there₄, grown.trans grown'⟩

theorem methods_write (law : T.Lawful script) (ms : List MethodDecl) (there : T.idle fs s.target)
    (run : Resolved.methods B cx ms s = .ok ((), s')) :
    ∃ gs, T.idle (fs ++ gs) s'.target ∧ PoolLe s.pool s'.pool := by
  induction ms generalizing fs s with
  | nil =>
    obtain ⟨_, rfl⟩ := pure_ok.mp run
    exact ⟨[], by simpa using there, .refl _⟩
  | cons m ms ih =>
    unfold Resolved.methods at run
    cases body : m.body with
    | none =>
      rw [body] at run
      cases run
    | some e =>
      simp only [body] at run
      obtain ⟨_, s₁, first, rest⟩ := bind_ok.mp run
      obtain ⟨f, there₁, grown⟩ := method_writes law _ _ _ there first
      obtain ⟨gs, there₂, grown'⟩ := ih there₁ rest
      exact ⟨f :: gs, by simpa using there₂, grown.trans grown'⟩

theorem classCode_writes (law : T.Lawful script) (shown : Shown B cx) (there : T.idle fs s.target)
    (run : Resolved.classCode B cx s = .ok ((), s')) : ∃ ps gs,
      T.idle (fs ++ ps.flatMap Prod.snd :: gs) s'.target ∧ PoolLe s.pool s'.pool ∧
      Recorded script cx s'.pool (plan cx.current) ps := by
  obtain ⟨_, s₁, first, rest⟩ := bind_ok.mp run
  obtain ⟨ps, there₁, grown, recorded⟩ := initializer_traces law shown there first
  obtain ⟨gs, there₂, grown'⟩ : ∃ gs, T.idle (fs ++ [ps.flatMap Prod.snd] ++ gs) s'.target ∧
      PoolLe s₁.pool s'.pool := by
    split at rest
    · obtain ⟨_, rfl⟩ := pure_ok.mp rest
      exact ⟨[], by simpa using there₁, .refl _⟩
    · exact methods_write law _ there₁ rest
  exact ⟨ps, gs, by simpa using there₂, grown.trans grown', recorded.grow law grown'⟩

/-- The functions of the classes stand one class after the other, the initializer in front. -/
theorem classCodes_write (law : T.Lawful script) {t : ClassTable} {ks : List ClassLayout}
    (nodup : (ks.map (·.name)).Nodup) (shown : ∀ k ∈ ks, Shown B ⟨t, k⟩)
    (there : T.idle fs s.target) (run : Resolved.classCodes B t ks s = .ok ((), s')) :
    ∃ (code : Listing ι) (methods : String → List (List ι)),
      T.idle (fs ++ ks.flatMap fun k => (code k.name).flatMap Prod.snd :: methods k.name)
        s'.target ∧
      PoolLe s.pool s'.pool ∧ ∀ k ∈ ks, Recorded script ⟨t, k⟩ s'.pool (plan k) (code k.name) := by
  induction ks generalizing fs s with
  | nil =>
    obtain ⟨_, rfl⟩ := pure_ok.mp run
    exact ⟨fun _ => [], fun _ => [], by simpa using there, .refl _, by simp⟩
  | cons k ks ih =>
    obtain ⟨fresh, nodup⟩ := List.nodup_cons.mp nodup
    obtain ⟨_, s₁, first, rest⟩ := bind_ok.mp run
    obtain ⟨ps, gs, there₁, grown, recorded⟩ := classCode_writes law (shown k (by simp)) there first
    obtain ⟨code, methods, there₂, grown', below⟩ :=
      ih nodup (fun j hj => shown j (List.mem_cons_of_mem _ hj)) there₁ rest
    have other {j : ClassLayout} (hj : j ∈ ks) : j.name ≠ k.name :=
      fun same => fresh (List.mem_map.mpr ⟨j, hj, same⟩)
    refine ⟨fun n => if n = k.name then ps else code n,
      fun n => if n = k.name then gs else methods n, ?_, grown.trans grown', ?_⟩
    · have rest : (ks.flatMap fun j => ((if j.name = k.name then ps else code j.name).flatMap
            Prod.snd :: if j.name = k.name then gs else methods j.name)) =
          ks.flatMap fun j => (code j.name).flatMap Prod.snd :: methods j.name :=
        List.flatMap_congr fun j hj => by rw [if_neg (other hj), if_neg (other hj)]
      simp only [List.flatMap_cons, if_true, rest]
      simpa using there₂
    · rintro j (_ | ⟨_, hj⟩)
      · simpa using recorded.grow law grown'
      · simpa only [if_neg (other hj)] using below j hj

theorem shown_of_emitted {p : Program} {t : ClassTable} (h : ClassTable.build p = .ok t)
    {u : Session B} (emitted : Lowering.emitUnit B t = .ok u) {k : ClassLayout}
    (hk : k ∈ t.classes) : Shown B ⟨t, k⟩ := by
  intro e s v s' lowered
  obtain ⟨⟨_, u'⟩, run, _⟩ := except_bind_ok.mp emitted
  rw [t.classes_eq] at hk
  obtain ⟨r, comes⟩ := Resolved.exists_comes t.tree run hk
  obtain ⟨marks, shows⟩ := comes.shows (Emission.nested_build h) (Resolved.start_shows h)
  have fields : Resolved.ShowsFields k (Emission.fieldScope (B := B) 0 k.fields) :=
    Resolved.showsFields k
  have agrees : Resolved.Agrees _ _ (lower B ⟨t, k⟩ e) (Resolved.lower B ⟨t, k⟩ [] e) :=
    Resolved.lower_agrees fields [] marks e
  have both := agrees { r with pool := s.pool, target := s.target } s shows rfl rfl
  rw [lowered] at both
  refine ⟨{ r with pool := s.pool, target := s.target }, ?_⟩
  generalize outcome : lower B ⟨t, k⟩ e { r with pool := s.pool, target := s.target } = x at both
  cases both with
  | @ok _ σ' _ _ _ same =>
    refine ⟨σ', fun name other => ?_, rfl, rfl, same.symm⟩
    have found := Resolved.binding_value (s := { r with pool := s.pool, target := s.target })
      shows name
    rw [found, if_neg other, fields name]

/-- A whole unit, class by class: its functions, and the steps of each initializer. -/
theorem emitUnit_writes (law : T.Lawful script) {p : Program} {t : ClassTable}
    (h : ClassTable.build p = .ok t) (emitted : Lowering.emitUnit B t = .ok s) :
    ∃ (code : Listing ι) (methods : String → List (List ι)),
      T.idle (t.classes.flatMap fun k => (code k.name).flatMap Prod.snd :: methods k.name)
        s.target ∧
      ∀ k ∈ t.classes, Recorded script ⟨t, k⟩ s.pool (plan k) (code k.name) := by
  have resolved := Resolved.emitUnit_of_ok h emitted
  unfold Resolved.emitUnit at resolved
  obtain ⟨⟨_, s'⟩, run, same⟩ := except_bind_ok.mp resolved
  obtain ⟨code, methods, there, _, recorded⟩ := classCodes_write law (ClassTable.names_nodup h)
    (fun k hk => shown_of_emitted h emitted hk) law.start run
  obtain ⟨pool, state⟩ := Prod.mk.inj (except_pure_ok.mp same)
  rw [pool] at recorded
  rw [state, List.nil_append] at there
  exact ⟨code, methods, there, recorded⟩

end Unit

end Transcript

end ClassBackend
