import ClassBackend.Proofs.Layout.SubtypeTest
import ClassBackend.Proofs.Llvm.Motion

/-! Constants, slots and fields on the machine for LLVM IR. -/
namespace ClassBackend.Llvm

open Meaning Machine Lowering

variable {t t' : State} {K K' : List (Slot backend)} {O : List BlockName} {n N : Nat}

theorem Shape.sub (h : Shape t K O) (less : K' ⊆ K) : Shape t K' O := by
  obtain ⟨b, open_, formed, slots, absent⟩ := h.body
  exact ⟨⟨b, open_, formed, fun a ha => slots a (less ha), absent⟩, h.opened, h.nodup⟩

theorem slotFor_adds {v a : Operand} (h : Gen.slotFor v t = .ok (a, t')) :
    ∃ b t₁, t.body? = some b ∧ a = .temp ⟨t.fresh.next⟩ ∧
      t₁.body? = some (b.alloca ⟨t.fresh.next⟩) ∧ t₁.fresh.next = t.fresh.next + 1 ∧
      Adds t₁ [.store .ptr v a] false t' := by
  simp only [Gen.slotFor, bind_ok, pure_ok] at h
  obtain ⟨q, t₀, drawn, _, t₁, added, _, t₂, stored, rfl, rfl⟩ := h
  obtain ⟨rfl, open₀, next₀⟩ := temp_ok drawn
  obtain ⟨b, d, open_, run, there, fresh⟩ := body_ok added
  cases run
  refine ⟨b, t₁, open₀ ▸ open_, rfl, there, by rw [fresh, next₀], ?_⟩
  exact (emit_adds (by simp [Plain]) stored).1

/-- The address of a word of an object, and what is there. -/
def fetch (n : Nat) (ty : Ty) (name : String) (obj : Operand) (j : Nat) : List Instr :=
  [.assign ⟨n⟩ (.element name obj j), .assign ⟨n + 1⟩ (.load ty (.temp ⟨n⟩))]

structure Fetches (ty : Ty) (name : String) (obj : Operand) (j : Nat) (t : State) (v : Operand)
    (t' : State) : Prop where
  value : v = .temp ⟨t.fresh.next + 1⟩
  next : t'.fresh.next = t.fresh.next + 2
  adds : Adds t (fetch t.fresh.next ty name obj j) false t'

theorem fetch_adds {ty : Ty} {name : String} {obj p v : Operand} {j : Nat} {t₁ : State}
    (first : Gen.assign (.element name obj j) t = .ok (p, t₁))
    (second : Gen.assign (.load ty p) t₁ = .ok (v, t')) : Fetches ty name obj j t v t' := by
  obtain ⟨rfl, next₁, adds₁⟩ := assign_adds first
  obtain ⟨rfl, next₂, adds₂⟩ := assign_adds second
  rw [next₁] at next₂ adds₂ ⊢
  exact ⟨rfl, next₂, adds₁.trans adds₂⟩

theorem fieldAddress_ok {obj : Operand} {cls : ClassLayout} {slot : Nat} {p : Operand}
    (h : Gen.fieldAddress obj cls slot t = .ok (p, t')) :
    Gen.assign (.element cls.name obj (headerWords + slot)) t = .ok (p, t') := by
  unfold Gen.fieldAddress at h
  cases known : fieldIndex slot with
  | ok index =>
    rw [known, fieldIndex_ok known] at h
    exact h
  | error e =>
    rw [known] at h
    cases h

namespace Scenario

variable {X : Scenario} {σ : Store} {c : Point}

theorem Placed.split {t t' t'' : State} (placed : X.Placed t t'') (first : State.Le t t')
    (second : State.Le t' t'') : X.Placed t t' ∧ X.Placed t' t'' := by
  obtain ⟨b, b'', open_, open'', within, allowed⟩ := placed
  obtain ⟨b', open', grown⟩ := first.2 b open_
  obtain ⟨d, there, grown'⟩ := second.2 b' open'
  cases open''.symm.trans there
  refine ⟨⟨b, b', open_, open', grown'.trans second.1 within, fun l k new old => ?_⟩,
    b', b'', open', open'', within, fun l k new old => ?_⟩
  · obtain ⟨i, hi⟩ := Option.isSome_iff_exists.mp new
    exact allowed l k (by rw [grown'.code l k i hi]; rfl) old
  · refine allowed l k new (Option.eq_none_iff_forall_ne_some.mpr fun i hi => ?_)
    rw [grown.code l k i hi] at old
    contradiction

theorem ordered (tables : X.Tables) (built : X.setting.Built) :
    (X.model N).Ordered X.setting where
  refl := .refl _
  trans := .trans
  split := Placed.split
  perm := by
    intro t K O O' perm h
    obtain ⟨b, open_, formed, slots, absent⟩ := h.body
    refine ⟨⟨b, open_, formed, slots, fun d hd => absent d (perm.symm.subset hd)⟩, ?_, ?_⟩
    · exact fun d hd => h.opened d (perm.symm.subset hd)
    · exact perm.nodup_iff.mp h.nodup
  waits := by
    intro p t t' K σ c elsewhere le h
    refine ⟨h.toReady, h.store, fun v hv => (h.firm v hv).mono le.1, ?_⟩
    cases p with
    | here => contradiction
    | block b => exact h.at_
    | arm join arm x =>
      obtain ⟨there, before, below, rep⟩ := h.at_
      exact ⟨there, before, below.mono le.1, rep⟩
  firm h := h.firm
  block firm h := ⟨h.toReady, h.store, firm, h.at_⟩
  value le h := ⟨h.1.mono le.1, h.2⟩
  raw le h := ⟨h.1.mono le.1, h.2⟩
  shut := by
    rintro t t' a le ⟨b, open_, shut⟩
    obtain ⟨b', open', grown⟩ := le.2 b open_
    exact ⟨b', open', grown.shut _ shut⟩
  self h := ⟨trivial, h.held.self, h.self⟩
  void _ := ⟨trivial, rfl⟩
  selfResult := trivial
  voidResult := trivial
  pause h := ⟨_, _, _, h.along, by rw [h.store]⟩
  wrong := trivial
  tags := by
    obtain ⟨p, program⟩ := built.program
    have fits : ∀ k ∈ X.setting.classes.classes,
        -9223372036854775808 ≤ (k.tag : Int) ∧ (k.tag : Int) < 9223372036854775808 := by
      intro k hk
      obtain ⟨x, _, same⟩ := tables.tag k hk
      have low := x.le_toInt
      have high := x.toInt_lt
      omega
    intro k hk
    refine ⟨fits k hk, ?_⟩
    obtain ⟨d, hd, same⟩ := ClassTable.last_mem program hk
    rw [← same]
    exact fits d hd
  falsity := show (-9223372036854775808 : Int) ≤ 0 ∧ (0 : Int) < 9223372036854775808 by decide
  truth := show (-9223372036854775808 : Int) ≤ 1 ∧ (1 : Int) < 9223372036854775808 by decide

theorem stays (h : X.Located .here t K σ c) (less : K' ⊆ K) :
    X.Located .here t K' σ c ∧ (X.model N).Kept K' c c :=
  ⟨⟨h.toReady, h.store, fun v hv => h.firm v (less hv), h.at_⟩, fun _ _ _ hx => hx⟩

theorem kept_slot (framed : X.Framed) (shape : Shape t K O) (le : State.Le t t')
    (placed : X.Placed t t') (h : X.Located .here t K σ c) {q : Temp}
    (mem : q ∈ X.site.body.allocas) {x : BitVec 64} {s : Slot backend} (hs : s ∈ K)
    (other : s ≠ .inl (.temp q)) {y : Val} (slot : X.SlotHas c s y) :
    X.SlotHas ⟨c.seen, c.config.write (X.slotAt q) x, c.view⟩ s y := by
  cases s with
  | inl a =>
    obtain ⟨r, hr, rfl, _⟩ := slot_alloca shape le placed hs
    obtain ⟨z, hz, rep⟩ := slot
    refine ⟨z, ?_, rep⟩
    have address : X.eval c (.temp r) = X.slotAt r := h.allocas r hr
    have differ : X.eval c (.temp r) ≠ X.slotAt q := by
      intro same
      rw [address] at same
      exact other (by rw [framed.distinct r hr q mem same])
    exact (Function.update_of_ne differ _ _).trans hz
  | inr v => exact slot

section Alloca

variable {b : Body} {t₁ : State}

theorem alloca_le (open_ : t.body? = some b) (there : t₁.body? = some (b.alloca ⟨t.fresh.next⟩))
    (next : t₁.fresh.next = t.fresh.next + 1) : State.Le t t₁ := by
  refine ⟨by omega, fun d open' => ⟨_, there, ?_⟩⟩
  cases open_.symm.trans open'
  refine ⟨fun _ _ _ h => h, fun _ h => h, fun q hq => ?_, fun q hq => ?_⟩
  · simp only [Builder.alloca, Array.mem_push]
    exact .inl hq
  · simp only [Builder.alloca, Array.mem_push] at hq
    rcases hq with hq | rfl
    · exact .inl hq
    · exact .inr (Nat.le_refl _)

theorem alloca_shape (open_ : t.body? = some b)
    (there : t₁.body? = some (b.alloca ⟨t.fresh.next⟩))
    (next : t₁.fresh.next = t.fresh.next + 1) (shape : Shape t K O) :
    .inl (.temp ⟨t.fresh.next⟩) ∉ K ∧ Shape t₁ (.inl (.temp ⟨t.fresh.next⟩) :: K) O := by
  obtain ⟨d, open', formed, slots, absent⟩ := shape.body
  cases open_.symm.trans open'
  have grown := formed.mono (m := t₁.fresh.next) (by omega)
  refine ⟨fun mem => ?_, ⟨_, there, ⟨grown.labels, grown.nodup, fun q hq => ?_⟩, fun a ha => ?_,
    absent⟩, fun d hd => ?_, shape.nodup⟩
  · obtain ⟨q, hq, same⟩ := slots _ mem
    cases same
    exact Nat.lt_irrefl _ (formed.allocas _ hq)
  · simp only [Builder.alloca, Array.mem_push] at hq
    rcases hq with hq | rfl
    · exact grown.allocas q hq
    · rw [next]
      exact Nat.lt_succ_self _
  · simp only [Builder.alloca, Array.mem_push]
    rcases List.mem_cons.mp ha with same | old
    · cases same
      exact ⟨_, .inr rfl, rfl⟩
    · obtain ⟨q, hq, rfl⟩ := slots a old
      exact ⟨q, .inl hq, rfl⟩
  · have := shape.opened d hd
    omega

theorem alloca_located (open_ : t.body? = some b)
    (there : t₁.body? = some (b.alloca ⟨t.fresh.next⟩))
    (next : t₁.fresh.next = t.fresh.next + 1) (h : X.Located .here t K σ c) :
    X.Located .here t₁ K σ c := by
  obtain ⟨d, open', label, index⟩ := h.at_
  cases open_.symm.trans open'
  exact ⟨h.toReady, h.store, fun v hv => (h.firm v hv).mono (by omega), _, there, label, index⟩

end Alloca

theorem slot_moves (framed : X.Framed) {v : Operand} {q : Temp} (placed : X.Placed t t')
    (adds : Adds t [.store .ptr v (.temp q)] false t') (shape : Shape t K O)
    (mem : .inl (.temp q) ∈ K) (h : X.Located .here t K σ c) {x : Val}
    (rep : c.view.Rep x (X.eval c v)) :
    ∃ c', X.Located .here t' K σ c' ∧
      (∀ s ∈ K, s ≠ .inl (.temp q) → ∀ y, X.SlotHas c s y → X.SlotHas c' s y) ∧
      X.SlotHas c' (.inl (.temp q)) x ∧ c'.config.temps = c.config.temps ∧ c'.view = c.view := by
  obtain ⟨r, hr, same, _⟩ := slot_alloca shape adds.le placed mem
  cases same
  have address : X.eval c (.temp q) = X.slotAt q := h.allocas q hr
  have ready := h.toReady.slot framed (h.code placed adds shape) hr address
  refine ⟨_, h.arrive adds ready rfl rfl h.store, ?_, ?_, rfl, rfl⟩
  · exact fun s hs other y slot => kept_slot framed shape adds.le placed h hr hs other slot
  · refine ⟨X.eval c v, ?_, rep⟩
    change Function.update c.config.memory (X.slotAt q) _ (X.eval c (.temp q)) = _
    rw [address, Function.update_self]

theorem slotFor_law (framed : X.Framed) {v a : Operand} (h : Gen.slotFor v t = .ok (a, t')) :
    State.Le t t' ∧ (∀ {K O}, Shape t K O → .inl a ∉ K ∧ Shape t' (.inl a :: K) O) ∧
    (X.Placed t t' → ∀ {K O σ c x}, Shape t K O → X.Located .here t K σ c →
      (v.Below t.fresh.next ∧ c.view.Rep x (X.eval c v)) →
      ∃ c', X.Located .here t' (.inl a :: K) σ c' ∧ (X.model N).Kept K c c' ∧
        X.SlotHas c' (.inl a) x) := by
  obtain ⟨b, t₁, open_, rfl, there, next, adds⟩ := slotFor_adds h
  have first := alloca_le open_ there next
  refine ⟨first.trans adds.le, fun shape => ?_, fun placed K O σ c x shape h value => ?_⟩
  · obtain ⟨absent, grown⟩ := alloca_shape open_ there next shape
    exact ⟨absent, adds.shape grown⟩
  · obtain ⟨absent, grown⟩ := alloca_shape open_ there next shape
    obtain ⟨_, placed₁⟩ := placed.split first adds.le
    have h₁ := alloca_located open_ there next h
    have wide : X.Located .here t₁ (.inl (.temp ⟨t.fresh.next⟩) :: K) σ c := by
      refine ⟨h₁.toReady, h₁.store, fun v hv => h₁.firm v ?_, h₁.at_⟩
      simpa using hv
    obtain ⟨c', there', others, slot, _⟩ :=
      slot_moves framed placed₁ adds grown List.mem_cons_self wide value.2
    refine ⟨c', there', fun s hs y hy => ?_, slot⟩
    refine others s (List.mem_cons_of_mem _ hs) ?_ y hy
    rintro rfl
    exact absent hs

theorem eval_assign {q : Temp} {v : Operand} (below : v.Below n) (fresh : n ≤ q.id)
    (s : Config) (x : BitVec 64) :
    X.site.eval (s.assign q x).temps v = X.site.eval s.temps v := by
  cases v with
  | temp r =>
    refine Function.update_of_ne ?_ _ _
    rintro rfl
    exact Nat.not_lt_of_le fresh below
  | self | arg | const | symbol | null | int => rfl

@[simp] theorem eval_assign_self (q : Temp) (s : Config) (x : BitVec 64) :
    X.site.eval (s.assign q x).temps (.temp q) = x := Function.update_self _ _ _

theorem exec_fetch {s : Config} {ty : Ty} {name : String} {obj : Operand} {j : Nat}
    {y : BitVec 64} (there : s.memory (X.geometry.word (X.site.eval s.temps obj) j) = some y) :
    X.site.exec (fetch n ty name obj j) s =
      some ((s.assign ⟨n⟩ (X.geometry.word (X.site.eval s.temps obj) j)).assign ⟨n + 1⟩ y) := by
  simp only [fetch, Site.exec, Option.bind_some, Site.value, eval_assign_self]
  change (s.memory (X.geometry.word (X.site.eval s.temps obj) j)).bind _ = _
  rw [there]
  rfl

theorem fetch_goes {ty : Ty} {name : String} {obj v : Operand} {j : Nat} {y : BitVec 64}
    (fetches : Fetches ty name obj j t v t') (placed : X.Placed t t') (shape : Shape t K O)
    (h : X.Located .here t K σ c)
    (there : c.config.memory (X.geometry.word (X.eval c obj) j) = some y) :
    X.Goes t t' K σ c fun c' => v.Below t'.fresh.next ∧ X.eval c' v = y ∧ c'.view = c.view := by
  refine goes_quiet h placed fetches.adds shape (exec_fetch there) ⟨?_, ?_, rfl⟩
  · rw [fetches.value, fetches.next]
    exact Nat.lt_succ_self _
  · rw [fetches.value]
    exact eval_assign_self _ _ _

theorem Located.address {is : List Instr} {last : Bool} {name : String} {obj : Operand} {j : Nat}
    (h : X.Located .here t K σ c) (placed : X.Placed t t')
    (adds : Adds t ([.assign ⟨t.fresh.next⟩ (.element name obj j)] ++ is) last t')
    (shape : Shape t K O) :
    ∃ s : Config, X.Ready ⟨c.seen, s, c.view⟩ ∧ X.Later t c ⟨c.seen, s, c.view⟩ ∧
      X.Code s.label s.index is ∧ s.label = c.config.label ∧ s.index = c.config.index + 1 ∧
      s.memory = c.config.memory ∧
      X.site.eval s.temps (.temp ⟨t.fresh.next⟩) = X.geometry.word (X.eval c obj) j := by
  have code := h.code placed adds shape
  have run : X.site.exec [.assign ⟨t.fresh.next⟩ (.element name obj j)] c.config =
      some (c.config.assign ⟨t.fresh.next⟩ (X.geometry.word (X.eval c obj) j)) := rfl
  have ready := h.toReady.quiet code.take run fun q hq rhs mem =>
    spared placed adds shape q hq rhs (List.mem_append_left _ mem)
  exact ⟨_, ready, .quiet run (by simp), code.drop, rfl, rfl, rfl, eval_assign_self _ _ _⟩

theorem loadField_law {obj v : Operand} {cls : ClassLayout} {i : Nat}
    (h : Gen.loadField obj cls i t = .ok (v, t')) :
    (X.model N).Same t t' ∧ (X.Placed t t' → ∀ {K O σ c r x}, Shape t K O →
      X.Located .here t K σ c → (X.model N).value t c obj (.obj r) →
      (σ.heap[r]?).bind (·.cells[i]?) = some (.ref x) →
      (X.model N).Moves K t' σ c fun c' => (X.model N).value t' c' v x) := by
  simp only [Gen.loadField, bind_ok] at h
  obtain ⟨p, t₁, first, second⟩ := h
  have fetches := fetch_adds (fieldAddress_ok first) second
  refine ⟨⟨fetches.adds.le, fetches.adds.shape⟩, fun placed K O σ c r x shape h object found => ?_⟩
  obtain ⟨o, ho, hd⟩ := Option.bind_eq_some_iff.mp found
  rw [← h.store] at ho
  obtain ⟨y, hy, rep⟩ := h.held.cell r o i _ ho hd
  have there : c.config.memory (X.geometry.word (X.eval c obj) (headerWords + i)) = some y := by
    rw [object.2.2]
    exact hy
  refine (fetch_goes fetches placed shape h there).moves shape fetches.adds.le placed h ?_
  rintro c' later ⟨below, value, view⟩
  refine ⟨below, ?_⟩
  rw [value, view]
  exact rep

theorem storeField_law {obj v : Operand} {cls : ClassLayout} {i : Nat} {u : Unit}
    (h : Gen.storeField obj cls i v t = .ok (u, t')) :
    (X.model N).Same t t' ∧ (X.Placed t t' → ∀ {K O σ c r x d}, Shape t K O →
      X.Located .here t K σ c → (X.model N).value t c obj (.obj r) →
      (X.model N).value t c v x → (σ.heap[r]?).bind (·.cells[i]?) = some d →
      d.isPointer → (X.model N).Moves K t' (σ.setField r i x) c fun c' =>
        (X.model N).Values t t' c c') := by
  simp only [Gen.storeField, bind_ok] at h
  obtain ⟨p, t₁, first, second⟩ := h
  obtain ⟨rfl, next₁, adds₁⟩ := assign_adds (fieldAddress_ok first)
  have adds := adds₁.trans (emit_adds (by simp [Plain]) second).1
  refine ⟨⟨adds.le, adds.shape⟩, fun placed K O σ c r x d shape h object value found pointer => ?_⟩
  obtain ⟨o, ho, hd⟩ := Option.bind_eq_some_iff.mp found
  rw [← h.store] at ho
  obtain ⟨s, ready, later, code, label, index, _, address⟩ := h.address placed adds shape
  rw [object.2.2] at address
  obtain ⟨stored, after⟩ := ready.field (t := t) code address ho hd pointer
    (later.value value).2
  have whole := later.trans after
  refine ⟨_, h.arrive adds stored label (congrArg (· + 1) index) ?_,
    whole.kept shape adds.le placed h, whole.values adds.le⟩
  rw [← h.store]
  rfl

theorem writeBarrier_law (conv : X.Conventions) {obj : Operand} {cls : ClassLayout} {i : Nat}
    {u : Unit} (h : Gen.writeBarrier obj cls i t = .ok (u, t')) :
    (X.model N).Same t t' ∧ (X.Placed t t' → ∀ {K O σ c r}, Shape t K O →
      X.Located .here t K σ c → (X.model N).value t c obj (.obj r) →
      (X.model N).Moves K t' (σ.log (.barrier (.obj r) i)) c fun c' =>
        (X.model N).Results t t' c c') := by
  simp only [Gen.writeBarrier, bind_ok] at h
  obtain ⟨p, t₁, first, second⟩ := h
  obtain ⟨rfl, next₁, adds₁⟩ := assign_adds (fieldAddress_ok first)
  have adds := adds₁.trans (emit_adds (by simp [Plain]) second).1
  refine ⟨⟨adds.le, adds.shape⟩, fun placed K O σ c r shape h object => ?_⟩
  obtain ⟨s, ready, later, code, label, index, _, address⟩ := h.address placed adds shape
  rw [object.2.2] at address
  have asks := X.site.asks_void s (.symbol Routine.writeBarrier.symbol)
    (Gen.objects [.temp ⟨t.fresh.next⟩])
  let k := X.site.callee s (.symbol Routine.writeBarrier.symbol)
    (Gen.objects [.temp ⟨t.fresh.next⟩])
  have args : k.args = [X.geometry.word (c.view.place r) (headerWords + i)] := by
    rw [← address]
    rfl
  have means : X.means c.view k (.barrier (.obj r) i) := ⟨rfl, r, rfl, object.2.1, args⟩
  obtain ⟨y, answer⟩ := conv.barrier _ _ _ _ (calling code asks ready.along) means
  have called := ready.call (W := c.view.log (.barrier (.obj r) i)) code asks answer means
    rfl (View.extends_log ..) (ready.held.log _) (fun _ _ => rfl) rfl fun _ _ => rfl
  have after : X.Later t ⟨c.seen, s, c.view⟩
      ⟨c.seen ++ [.call k], { s.next with memory := s.memory }, c.view.log (.barrier (.obj r) i)⟩ :=
    ⟨View.extends_log .., fun _ _ => rfl, fun _ _ => rfl⟩
  have whole := later.trans after
  refine ⟨_, h.arrive adds called label (congrArg (· + 1) index) ?_,
    whole.kept shape adds.le placed h,
    fun v x _ hv => whole.values (N := N) adds.le v x hv⟩
  rw [← h.store]
  rfl

theorem storage (framed : X.Framed) (conv : X.Conventions) :
    (X.model N).Storage X.setting where
  constant := by
    intro k t v t' h
    obtain ⟨rfl, rfl⟩ := pure_ok.mp h
    refine ⟨⟨.refl _, fun h => h⟩, trivial, fun _ K O σ c l _ h denotes => ?_⟩
    obtain ⟨live, place⟩ := h.held.literal k l denotes
    exact ⟨c, h, fun _ _ _ hx => hx, trivial, live, place.symm⟩
  allocLocal := by
    intro v t a t' h
    obtain ⟨le, shape, run⟩ := slotFor_law (X := X) (N := N) framed h
    exact ⟨le, shape, fun placed K O σ c x hs _ located value => run placed hs located value⟩
  freeLocal := by
    intro a t t' h
    obtain ⟨-, rfl⟩ := pure_ok.mp h
    refine ⟨.refl _, fun shape => shape.sub (List.subset_cons_self ..), fun _ K O σ c _ h => ?_⟩
    obtain ⟨located, kept⟩ := stays (N := N) h (List.subset_cons_self ..)
    exact ⟨c, located, kept, fun _ _ hv => hv⟩
  loadLocal := by
    intro a t v t' h
    obtain ⟨rfl, next, adds⟩ := assign_adds h
    refine ⟨⟨adds.le, adds.shape⟩, trivial, fun placed K O σ c x shape mem h slot => ?_⟩
    obtain ⟨y, hy, rep⟩ := slot
    have run : X.site.exec [.assign ⟨t.fresh.next⟩ (.load .ptr a)] c.config =
        some (c.config.assign ⟨t.fresh.next⟩ y) := by
      change (c.config.memory _).bind _ = _
      rw [show c.config.memory (X.site.eval c.config.temps a) = some y from hy]
      rfl
    refine (goes_quiet (Q := fun c' => X.eval c' (.temp ⟨t.fresh.next⟩) = y ∧ c'.view = c.view)
      h placed adds shape run ⟨eval_assign_self _ _ _, rfl⟩).moves shape adds.le placed h ?_
    rintro c' later ⟨value, view⟩
    refine ⟨?_, ?_⟩
    · rw [next]
      exact Nat.lt_succ_self _
    · rw [value, view]
      exact rep
  storeLocal := by
    intro a v t t' stored
    have adds := (emit_adds (by simp [Plain]) stored).1
    refine ⟨⟨adds.le, adds.shape⟩, fun placed K O σ c x shape mem h value => ?_⟩
    obtain ⟨q, hq, rfl, _⟩ := slot_alloca shape adds.le placed mem
    obtain ⟨c', there, others, slot, temps, view⟩ :=
      slot_moves framed placed adds shape mem h value.2
    refine ⟨c', there, others, slot, fun r y hr => ⟨hr.1.mono adds.next, ?_⟩⟩
    have same : X.eval c' r = X.eval c r := congrArg (X.site.eval · r) temps
    rw [view, same]
    exact hr.2
  loadField := by
    intro obj cls i t v t' h
    obtain ⟨same, run⟩ := loadField_law (X := X) (N := N) h
    exact ⟨same, trivial, run⟩
  storeField h := storeField_law h
  writeBarrier h := writeBarrier_law conv h
  preserve := by
    intro v t s t' h
    obtain ⟨rfl, rfl⟩ := pure_ok.mp h
    refine ⟨.refl _, fun {K O} shape => ?_, fun _ K O σ c x shape _ h value => ?_⟩
    · obtain ⟨b, open_, formed, slots, absent⟩ := shape.body
      exact ⟨⟨b, open_, formed, fun a ha => slots a (by simpa using ha), absent⟩, shape.opened,
        shape.nodup⟩
    · refine ⟨c, ⟨h.toReady, h.store, fun r hr => ?_, h.at_⟩, fun _ _ _ hx => hx, value.2⟩
      rcases List.mem_cons.mp hr with same | old
      · cases same
        exact value.1
      · exact h.firm r old
  restore := by
    intro s t v t' h
    obtain ⟨rfl, rfl⟩ := pure_ok.mp h
    refine ⟨.refl _, fun shape => shape.sub (List.subset_cons_self ..),
      fun _ K O σ c x _ h slot => ?_⟩
    obtain ⟨located, kept⟩ := stays (N := N) h (List.subset_cons_self ..)
    exact ⟨c, located, kept, ⟨h.firm s List.mem_cons_self, slot⟩, fun _ _ _ hv => hv⟩

end Scenario

end ClassBackend.Llvm
