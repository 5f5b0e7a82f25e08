import ClassBackend.Compile
import ClassBackend.Proofs.Lowering.Laws
import ClassBackend.Proofs.Scope.Visible

/-! Lowering and evaluation side by side. A judgement says what a lowering does to the session, and
what the machine does with the code while an evaluation goes on; the rules follow the two
monads. -/
namespace ClassBackend.Lowering

open Meaning

variable {B : Backend} {α β γ : Type}

theorem except_bind_ok {α β : Type} {x : Except Fault α} {f : α → Except Fault β} {b : β} :
    (x >>= f) = .ok b ↔ ∃ a, x = .ok a ∧ f a = .ok b := by
  cases x <;> simp [bind, Except.bind]

theorem except_pure_ok {α : Type} {a b : α} : (pure a : Except Fault α) = .ok b ↔ a = b := by
  simp [pure, Except.pure]

theorem except_mapM_ok {α β : Type} {f : α → Except Fault β} {xs : List α} {ys : List β} :
    xs.mapM f = .ok ys ↔ List.Forall₂ (fun x y => f x = .ok y) xs ys := by
  induction xs generalizing ys with
  | nil => simp [pure, Except.pure, eq_comm]
  | cons x xs ih =>
    simp only [List.mapM_cons, except_bind_ok, except_pure_ok, ih, List.forall₂_cons_left_iff]
    constructor
    · rintro ⟨y, first, rest, others, rfl⟩
      exact ⟨y, rest, first, others, rfl⟩
    · rintro ⟨y, rest, first, others, rfl⟩
      exact ⟨y, first, rest, others, rfl⟩

section Checks

theorem ok_of_check {x : Except Fault α} {c : α → Bool}
    (h : x.toOption.any c = true) : ∃ a, x = .ok a ∧ c a = true := by
  cases x with
  | error f => cases h
  | ok a => exact ⟨a, rfl, h⟩

variable {p : Program} {f : ClassTable → Except Fault α} {g : ClassTable → Except Fault β}

/-- What is made of the table of a program, where a check of both succeeds. -/
theorem built_of_check {c : ClassTable → α → Bool}
    (h : ((ClassTable.build p).toOption.any fun t => (f t).toOption.any (c t)) = true) :
    ∃ t a, ClassTable.build p = .ok t ∧ f t = .ok a ∧ c t a = true := by
  obtain ⟨t, built, h⟩ := ok_of_check h
  obtain ⟨a, made, h⟩ := ok_of_check h
  exact ⟨t, a, built, made, h⟩

theorem bothBuilt_of_check {c : ClassTable → α → β → Bool}
    (h : ((ClassTable.build p).toOption.any fun t => (f t).toOption.any fun a =>
      (g t).toOption.any (c t a)) = true) :
    ∃ t a b, ClassTable.build p = .ok t ∧ f t = .ok a ∧ g t = .ok b ∧ c t a b = true := by
  obtain ⟨t, a, built, made, h⟩ := built_of_check h
  obtain ⟨b, made', h⟩ := ok_of_check h
  exact ⟨t, a, b, built, made, made', h⟩

end Checks

section Compilation

variable {q : Program} {gcTest : Bool} {source text : String}

theorem compile_mips_ok : compile q .mips gcTest source = .ok text ↔ ∃ t a,
    ClassTable.build q.withBuiltins = .ok t ∧ Mips.assemble gcTest t = .ok a ∧ a.text = text := by
  simp only [compile, except_bind_ok, except_pure_ok]
  exact ⟨fun ⟨t, built, a, rest⟩ => ⟨t, a, built, rest⟩,
    fun ⟨t, a, built, rest⟩ => ⟨t, built, a, rest⟩⟩

theorem compile_llvm_ok : compile q .llvm gcTest source = .ok text ↔ ∃ t m,
    ClassTable.build q.withBuiltins = .ok t ∧ Llvm.Module.assemble source t = .ok m ∧
      m.text = text := by
  simp only [compile, except_bind_ok, except_pure_ok]
  exact ⟨fun ⟨t, built, m, rest⟩ => ⟨t, m, built, rest⟩,
    fun ⟨t, m, built, rest⟩ => ⟨t, built, m, rest⟩⟩

end Compilation

theorem bind_ok {σ : Type} {m : Emit σ α} {f : α → Emit σ β} {s : σ} {r : β × σ} :
    (m >>= f) s = .ok r ↔ ∃ a s', m s = .ok (a, s') ∧ f a s' = .ok r := by
  cases hm : m s with
  | ok p =>
    have : (m >>= f) s = f p.1 p.2 := by simp [bind, StateT.bind, Except.bind, hm]
    rw [this]
    exact ⟨fun h => ⟨p.1, p.2, rfl, h⟩, fun ⟨_, _, hp, h⟩ => by cases hp; exact h⟩
  | error e => simp [bind, StateT.bind, Except.bind, hm]

theorem pure_ok {σ : Type} {a b : α} {s s' : σ} :
    (pure a : Emit σ α) s = .ok (b, s') ↔ a = b ∧ s = s' := by
  change Except.ok (a, s) = _ ↔ _
  simp

theorem target_ok {m : Emit B.State α} {s s' : Session B} {a : α} :
    target m s = .ok (a, s') ↔ ∃ t, m s.target = .ok (a, t) ∧ s' = { s with target := t } := by
  obtain ⟨pool, names, scopes, t⟩ := s
  simp only [target]
  cases m t with
  | ok p =>
    obtain ⟨b, t'⟩ := p
    constructor
    · intro h
      cases h
      exact ⟨t', rfl, rfl⟩
    · rintro ⟨t, h, rfl⟩
      cases h
      rfl
  | error e => simp

theorem ofExcept_ok {x : Except Fault α} {s s' : Session B} {a : α} :
    ofExcept x s = .ok (a, s') ↔ x = .ok a ∧ s' = s := by
  unfold ofExcept
  cases x <;> simp [eq_comm]

/-- One pool is an initial part of another. -/
def PoolLe (p q : Pool) : Prop := p.ints <+: q.ints ∧ p.strings <+: q.strings

theorem PoolLe.refl (p : Pool) : PoolLe p p := ⟨List.prefix_refl _, List.prefix_refl _⟩

theorem PoolLe.trans {p q r : Pool} (h : PoolLe p q) (k : PoolLe q r) : PoolLe p r :=
  ⟨h.1.trans k.1, h.2.trans k.2⟩

theorem Denotes.mono {p q : Pool} {k : Const} {l : Literal} (h : PoolLe p q)
    (hk : Denotes p k l) : Denotes q k l := by
  have longer : ∀ {γ : Type} {l l' : List γ} {i : Nat} {x : γ}, l <+: l' → l[i]? = some x →
      l'[i]? = some x := by
    rintro γ l _ i x ⟨rest, rfl⟩ hx
    rw [List.getElem?_append_left (List.getElem?_eq_some_iff.mp hx).1, hx]
  cases k with
  | int i =>
    cases l with
    | int v => exact longer h.1 hk
    | str s => exact hk
    | bool b => exact hk
  | str i =>
    cases l with
    | int v => exact hk
    | str s => exact longer h.2 hk
    | bool b => exact hk
  | bool a =>
    cases l with
    | int v => exact hk
    | str s => exact hk
    | bool b => exact hk

variable (M : Model B) (S : Setting)

namespace Model

def Grows (s s' : Session B) : Prop := M.le s.target s'.target ∧ PoolLe s.pool s'.pool

/-- What was emitted between the sessions is part of the finished unit. -/
def Placed (s s' : Session B) : Prop := M.placed s.target s'.target ∧ PoolLe s'.pool M.pool

end Model

/-- What is in place between two operations: names in scope, live slots, marks of the open scopes,
blocks to be placed, pooled literals, and arms that have left for a join. -/
structure Scene (B : Backend) where
  names : List (String × Binding B.Local)
  slots : List (Slot B)
  marks : List (Option String)
  opened : List BlockName
  pooled : List (Const × Literal)
  arms : List B.Arm

def locals (names : List (String × Binding B.Local)) : List B.Local :=
  names.filterMap fun
    | (_, .stack a) => some a
    | (_, .field _) => none

/-- Variables and saved values have live slots, and no two variables have one. -/
structure Live (names : List (String × Binding B.Local)) (slots : List (Slot B))
    (saved : List (B.Saved × Val)) : Prop where
  locals : ∀ a ∈ locals names, .inl a ∈ slots
  distinct : (Lowering.locals names).Nodup
  saved : ∀ e ∈ saved, .inr e.1 ∈ slots

namespace Model

structure Sets (Z : Scene B) (s : Session B) : Prop where
  shows : s.scopes.Shows s.names Z.names Z.marks
  shape : M.shape s.target Z.slots Z.opened
  pooled : ∀ e ∈ Z.pooled, Denotes s.pool e.1 e.2
  shut : ∀ a ∈ Z.arms, M.shut s.target a
  apart : Z.arms.Pairwise M.apart

def Means (c : M.Config) : String × Binding B.Local → String × Var → Prop
  | (n, .field i), (m, .field j) => n = m ∧ i = j
  | (n, .stack a), (m, .stack x) => n = m ∧ M.slot c (.inl a) x
  | _, _ => False

/-- The machine in step with the evaluation: at a spot, with the variables and the saved values
in their slots, room for `spare` more, and these values and words at hand. -/
structure Stands (spare : Nat) (names : List (String × Binding B.Local)) (slots : List (Slot B))
    (saved : List (B.Saved × Val)) (p : Spot B) (values : List (B.Value × Val))
    (raws : List (B.Raw × Int)) (s : Session B) (w : World) (c : M.Config) : Prop where
  located : M.located p s.target slots w.store c
  room : slots.length + spare ≤ M.capacity
  env : List.Forall₂ (M.Means c) names w.env
  saved : ∀ e ∈ saved, M.slot c (.inr e.1) e.2
  values : ∀ e ∈ values, M.value s.target c e.1 e.2
  raws : ∀ e ∈ raws, M.raw s.target c e.1 e.2

end Model

/-- What an evaluation comes to: a value, or an end that the machine meets as well. -/
def Outcome (ends : Stop → Prop) (r : Except Stop (β × World)) (Q : β → World → Prop) : Prop :=
  match r with
  | .ok (x, w) => Q x w
  | .error e => ends e

def Lays (pre : Session B → Prop) (m : Lowering B α) (post : α → Session B → Prop) : Prop :=
  ∀ ⦃s a s'⦄, m s = .ok (a, s') → pre s → M.Grows s s' ∧ post a s'

structure Sim (pre : Session B → Prop) (P : Session B → World → M.Config → Prop)
    (m : Lowering B α) (ε : Eval β) (post : α → Session B → Prop)
    (Q : α → β → Session B → World → M.Config → Prop) : Prop where
  lays : Lays M pre m post
  runs : ∀ ⦃s a s'⦄, m s = .ok (a, s') → pre s → M.Placed s s' → ∀ ⦃w c⦄, P s w c →
    Outcome M.ends (ε w) fun x w' => ∃ c', Q a x s' w' c'

variable {M} {S}

section Rules

variable {pre pre' : Session B → Prop} {P P' : Session B → World → M.Config → Prop}
variable {m : Lowering B α} {f : α → Lowering B γ} {ε : Eval β}
variable {mid : α → Session B → Prop} {post : γ → Session B → Prop}

theorem Outcome.mono {ends : Stop → Prop} {r : Except Stop (β × World)}
    {Q Q' : β → World → Prop} (h : Outcome ends r Q) (k : ∀ x w, Q x w → Q' x w) :
    Outcome ends r Q' := by
  match r, h with
  | .ok _, h => exact k _ _ h
  | .error _, h => exact h

theorem Outcome.bind {δ : Type} {ends : Stop → Prop} {ε : Eval β} {g : β → Eval δ} {w : World}
    {Q : δ → World → Prop}
    (h : Outcome ends (ε w) fun x w' => Outcome ends (g x w') Q) :
    Outcome ends ((ε >>= g) w) Q := by
  cases hε : ε w with
  | ok p =>
    have step : (ε >>= g) w = g p.1 p.2 := by simp [Bind.bind, StateT.bind, Except.bind, hε]
    rw [hε] at h
    rw [step]
    exact h
  | error e =>
    have step : (ε >>= g) w = .error e := by simp [Bind.bind, StateT.bind, Except.bind, hε]
    rw [hε] at h
    rw [step]
    exact h

theorem Lays.bind (ho : M.Ordered S) {post : γ → Session B → Prop} (h : Lays M pre m mid)
    (k : ∀ a, Lays M (mid a) (f a) post) : Lays M pre (m >>= f) post := by
  intro s c s'' run hs
  obtain ⟨a, s', first, second⟩ := bind_ok.mp run
  obtain ⟨grown, ha⟩ := h first hs
  obtain ⟨more, hc⟩ := k a second ha
  exact ⟨⟨ho.trans grown.1 more.1, grown.2.trans more.2⟩, hc⟩

theorem Sim.bind {δ : Type} [Nonempty β] (ho : M.Ordered S) {g : β → Eval δ}
    {Q : α → β → Session B → World → M.Config → Prop}
    {R : γ → δ → Session B → World → M.Config → Prop} (h : Sim M pre P m ε mid Q)
    (k : ∀ a x, Sim M (mid a) (Q a x) (f a) (g x) post R) :
    Sim M pre P (m >>= f) (ε >>= g) post R := by
  obtain ⟨any⟩ := ‹Nonempty β›
  refine ⟨h.lays.bind ho fun a => (k a any).lays, ?_⟩
  intro s c s'' run hs placed w c hP
  obtain ⟨a, s', first, second⟩ := bind_ok.mp run
  obtain ⟨grown, ha⟩ := h.lays first hs
  obtain ⟨more, _⟩ := (k a any).lays second ha
  obtain ⟨placed₁, placed₂⟩ := ho.split placed.1 grown.1 more.1
  refine Outcome.bind ((h.runs first hs ⟨placed₁, more.2.trans placed.2⟩ hP).mono ?_)
  rintro x w' ⟨c', hc'⟩
  exact (k a x).runs second ha ⟨placed₂, placed.2⟩ hc'

theorem Sim.first {δ : Type} (ho : M.Ordered S) {ε : Eval δ}
    {Q : α → Unit → Session B → World → M.Config → Prop}
    {R : γ → δ → Session B → World → M.Config → Prop} (h : Sim M pre P m (pure ()) mid Q)
    (k : ∀ a, Sim M (mid a) (Q a ()) (f a) ε post R) : Sim M pre P (m >>= f) ε post R :=
  Sim.bind ho (g := fun _ => ε) h fun a _ => k a

theorem Sim.last {δ : Type} (ho : M.Ordered S) {ε : Eval δ}
    {R : γ → δ → Session B → World → M.Config → Prop}
    (h : Sim M pre P m ε mid fun _ _ _ _ _ => False)
    (k : ∀ a, Lays M (mid a) (f a) post) : Sim M pre P (m >>= f) ε post R := by
  refine ⟨h.lays.bind ho k, ?_⟩
  intro s c s'' run hs placed w c hP
  obtain ⟨a, s', first, second⟩ := bind_ok.mp run
  obtain ⟨grown, ha⟩ := h.lays first hs
  obtain ⟨more, _⟩ := k a second ha
  obtain ⟨placed₁, _⟩ := ho.split placed.1 grown.1 more.1
  refine (h.runs first hs ⟨placed₁, more.2.trans placed.2⟩ hP).mono ?_
  rintro x w' ⟨_, hc'⟩
  exact hc'.elim

theorem Sim.weaken {Q Q' : α → β → Session B → World → M.Config → Prop}
    {mid' : α → Session B → Prop} (h : Sim M pre P m ε mid Q)
    (hpre : ∀ s, pre' s → pre s) (hP : ∀ s w c, P' s w c → P s w c)
    (hmid : ∀ a s, mid a s → mid' a s) (hQ : ∀ a x s w c, Q a x s w c → Q' a x s w c) :
    Sim M pre' P' m ε mid' Q' := by
  refine ⟨fun s a s' run hs => ?_, fun s a s' run hs placed w c hw => ?_⟩
  · obtain ⟨grown, ha⟩ := h.lays run (hpre _ hs)
    exact ⟨grown, hmid _ _ ha⟩
  · refine (h.runs run (hpre _ hs) placed (hP _ _ _ hw)).mono ?_
    rintro x w' ⟨c', hc'⟩
    exact ⟨c', hQ _ _ _ _ _ hc'⟩

theorem Sim.given {p : Prop} {Q : α → β → Session B → World → M.Config → Prop}
    (h : p → Sim M pre P m ε mid Q) : Sim M (fun s => pre s ∧ p) P m ε mid Q :=
  ⟨fun _ _ _ run hs => (h hs.2).lays run hs.1, fun _ _ _ run hs placed _ _ hw =>
    (h hs.2).runs run hs.1 placed hw⟩

theorem Sim.ret {a : α} {x : β} {Q : α → β → Session B → World → M.Config → Prop}
    (ho : M.Ordered S) (hmid : ∀ s, pre s → mid a s) (hQ : ∀ s w c, P s w c → Q a x s w c) :
    Sim M pre P (pure a) (pure x) mid Q := by
  refine ⟨fun s a s' run hs => ?_, fun s a s' run hs _ w c hw => ?_⟩
  · obtain ⟨rfl, rfl⟩ := pure_ok.mp run
    exact ⟨⟨ho.refl, PoolLe.refl _⟩, hmid _ hs⟩
  · obtain ⟨rfl, rfl⟩ := pure_ok.mp run
    exact ⟨c, hQ _ _ _ hw⟩

theorem Sim.yields {m : Lowering B B.Value} {mid : B.Value → Session B → Prop} {n : Nat}
    {names : List (String × Binding B.Local)} {slots : List (Slot B)}
    {H : List (B.Saved × Val)} {x : Val}
    (h : Sim M pre P m (pure ()) mid fun v _ => M.Stands n names slots H .here [(v, x)] []) :
    Sim M pre P m (pure x) mid fun v y => M.Stands n names slots H .here [(v, y)] [] :=
  ⟨h.lays, fun _ _ _ run hs placed _ _ hw => h.runs run hs placed hw⟩

theorem Sim.find {δ κ : Type} {x : Except Fault κ} {f : κ → Lowering B γ}
    {g : κ → Eval δ} {R : γ → δ → Session B → World → M.Config → Prop}
    (h : ∀ k, x = .ok k → Sim M pre P (f k) (g k) post R) :
    Sim M pre P (ofExcept x >>= f) (Meaning.ofExcept x >>= g) post R := by
  cases x with
  | ok k => exact h k rfl
  | error e =>
    refine ⟨fun _ _ _ run => ?_, fun _ _ _ run => ?_⟩ <;>
    · obtain ⟨_, _, first, _⟩ := bind_ok.mp run
      cases (ofExcept_ok.mp first).1

end Rules

end ClassBackend.Lowering
