import ClassBackend.Proofs.Llvm.Control

/-! Calls and aborts on the machine for LLVM IR. -/
namespace ClassBackend.Llvm

open Meaning Machine Lowering

variable {t t' : State} {K K' : List (Slot backend)} {O : List BlockName} {N : Nat}

theorem row_word (g : Geometry 64) (stride : g.stride = slotSize) (base x : BitVec 64) {n : Nat}
    (number : x.toInt = n) (j : Nat) :
    g.word (base + BitVec.ofNat 64 (slotSize * classObjectTypes.length) * x) j =
      g.word base (4 * n + j) := by
  have same : x = BitVec.ofNat 64 n := by
    rw [← BitVec.ofInt_natCast, ← number, BitVec.ofInt_toInt]
  have length : classObjectTypes.length = 4 := rfl
  unfold Geometry.word
  rw [stride, same, length, ← BitVec.ofNat_mul, BitVec.add_assoc, ← BitVec.ofNat_add]
  congr 2
  rw [Nat.mul_add, Nat.mul_assoc]

namespace Scenario

variable {X : Scenario} {σ : Store} {c : Point}

/-- A method or an initializer is called, and its answer goes to a new temporary. -/
theorem call_law (conv : X.Conventions) {f v : Operand} {args : List (Ty × Operand)}
    (h : Gen.assign (.call .ptr f args) t = .ok (v, t')) (placed : X.Placed t t')
    (shape : Shape t K O) (located : X.Located .here t K σ c) {label : String} {recv : Val}
    {xs : List Val} (target : X.eval c f = X.site.symbol label)
    (passed : List.Forall₂ c.view.Rep (recv :: xs) (args.map fun a => X.eval c a.2)) :
    (X.model N).Answered X.setting K t' σ c label recv xs v := by
  obtain ⟨rfl, next, adds⟩ := assign_adds h
  have code := located.code placed adds shape
  have asks := X.site.asks_call c.config ⟨t.fresh.next⟩ .ptr f args
  intro takes
  have means : X.means c.view (X.site.callee c.config f args) (.call label recv xs) :=
    ⟨takes, target, passed⟩
  have answer := conv.call _ _ label recv xs (calling code asks located.along) means
  rw [← located.store]
  dsimp only
  split
  · rename_i x heap asked
    rw [asked] at answer
    obtain ⟨y, mem, W, back, reserved, grown, store, held, rep⟩ := answer
    have after : X.setting.after (.call label recv xs) c.view.store = some W.store := by
      rw [store]
      simp only [Setting.after, asked, Option.map_some]
    have ready := located.toReady.call code asks back means after grown held reserved rfl
      fun r hr => Function.update_of_ne
        (unassigned placed adds shape (List.mem_singleton_self _) r hr) _ _
    have later : X.Later t c ⟨c.seen ++ [.call (X.site.callee c.config f args)],
        { c.config.assign ⟨t.fresh.next⟩ y with memory := mem }, W⟩ :=
      .called (Nat.le_refl _) grown reserved
    refine ⟨_, located.arrive adds ready rfl rfl store, later.kept shape adds.le placed located,
      ?_, ?_⟩
    · rw [next]
      exact Nat.lt_succ_self _
    · change W.Rep x (X.site.eval (c.config.assign ⟨t.fresh.next⟩ y).temps _)
      rw [eval_assign_self]
      exact rep
  · rename_i asked
    rw [asked] at answer
    exact run_halt code asks answer means located.along

theorem objects_eval (vs : List Operand) :
    ((Gen.objects vs).map fun a => X.eval c a.2) = vs.map (X.eval c) := by
  rw [Gen.objects, List.map_map]
  rfl

theorem passed_objects {recv : Operand} {x : Val} {args : List Operand} {xs : List Val}
    (object : c.view.Rep x (X.eval c recv))
    (values : List.Forall₂ (fun a x => X.SlotHas c (.inr a) x) args xs) :
    List.Forall₂ c.view.Rep (x :: xs)
      ((Gen.objects (recv :: args)).map fun a => X.eval c a.2) := by
  rw [objects_eval]
  apply List.Forall₂.cons object
  rw [List.forall₂_map_right_iff]
  exact values.flip

theorem passed_object {recv : Operand} {x : Val} (object : c.view.Rep x (X.eval c recv)) :
    List.Forall₂ c.view.Rep [x] ((Gen.objects [recv]).map fun a => X.eval c a.2) :=
  passed_objects object .nil

theorem callDirect_law (conv : X.Conventions) {label : String} {recv v : Operand}
    {args : List Operand} (h : Gen.callDirect label recv args t = .ok (v, t')) :
    State.Le t t' ∧ (∀ {K O}, Shape t ((args.map .inr).reverse ++ K) O → Shape t' K O) ∧
    (X.Placed t t' → ∀ {K O σ c r xs}, Shape t ((args.map .inr).reverse ++ K) O →
      X.Located .here t ((args.map .inr).reverse ++ K) σ c →
      (X.model N).value t c recv (.obj r) →
      List.Forall₂ (fun a x => X.SlotHas c (.inr a) x) args xs →
      (X.model N).Answered X.setting K t' σ c label (.obj r) xs v) := by
  obtain ⟨-, -, adds⟩ := assign_adds h
  refine ⟨adds.le, fun shape => adds.shape (shape.sub (List.subset_append_right ..)),
    fun placed K O σ c r xs shape located object passed => ?_⟩
  have less : K ⊆ (args.map .inr).reverse ++ K := List.subset_append_right ..
  exact call_law conv h placed (shape.sub less) (stays (N := N) located less).1 rfl
    (passed_objects object.2 passed)

theorem callInit_law (conv : X.Conventions) {cls : ClassLayout} {obj v : Operand}
    (h : Gen.callInit cls obj t = .ok (v, t')) :
    (X.model N).Same t t' ∧ (X.Placed t t' → ∀ {K O σ c x}, Shape t K O →
      X.Located .here t K σ c → (X.model N).value t c obj x →
      (X.model N).Answered X.setting K t' σ c (Linkage.initializer cls.name) x [] v) := by
  obtain ⟨-, -, adds⟩ := assign_adds h
  refine ⟨⟨adds.le, adds.shape⟩, fun placed K O σ c x shape located object => ?_⟩
  exact call_law conv h placed shape located rfl (passed_object object.2)

theorem entry_goes {t₁ : State} {b p v : Operand} {i : Nat} {y : BitVec 64}
    (first : Gen.assign (.entry b i) t = .ok (p, t₁))
    (second : Gen.assign (.load .ptr p) t₁ = .ok (v, t')) (placed : X.Placed t t')
    (shape : Shape t K O) (h : X.Located .here t K σ c)
    (there : c.config.memory (X.geometry.word (X.eval c b) i) = some y) :
    Shape t' K O ∧ X.Goes t t' K σ c fun c' => X.eval c' v = y ∧ c'.view = c.view := by
  obtain ⟨rfl, next₁, adds₁⟩ := assign_adds first
  obtain ⟨rfl, _, adds₂⟩ := assign_adds second
  have adds := adds₁.trans adds₂
  let c₁ := c.config.assign ⟨t.fresh.next⟩ (X.geometry.word (X.eval c b) i)
  have run : X.site.exec ([.assign ⟨t.fresh.next⟩ (.entry b i)] ++
      [.assign ⟨t₁.fresh.next⟩ (.load .ptr (.temp ⟨t.fresh.next⟩))]) c.config =
      some (c₁.assign ⟨t₁.fresh.next⟩ y) := by
    change (c₁.memory (X.site.eval c₁.temps _)).bind _ = _
    rw [eval_assign_self]
    change (c.config.memory _).bind _ = _
    rw [there]
    rfl
  exact ⟨adds.shape shape, goes_quiet h placed adds shape run ⟨eval_assign_self _ _ _, rfl⟩⟩

theorem callDynamic_law (tables : X.Tables) (conv : X.Conventions) {recv v : Operand} {i : Nat}
    {args : List Operand} (h : Gen.callDynamic recv i args t = .ok (v, t')) :
    State.Le t t' ∧ (∀ {K O}, Shape t ((args.map .inr).reverse ++ K) O → Shape t' K O) ∧
    (X.Placed t t' → ∀ {k m}, k ∈ X.setting.classes.classes → k.methods[i]? = some m →
      ∀ {K O σ c r o xs}, Shape t ((args.map .inr).reverse ++ K) O →
      X.Located .here t ((args.map .inr).reverse ++ K) σ c →
      (X.model N).value t c recv (.obj r) → σ.heap[r]? = some o → o.tag = k.tag →
      List.Forall₂ (fun a x => X.SlotHas c (.inr a) x) args xs →
      (X.model N).Answered X.setting K t' σ c m.label (.obj r) xs v) := by
  simp only [Gen.callDynamic, Gen.headerAddress, bind_ok] at h
  obtain ⟨p, s₁, h₁, b, t₁, h₂, e, s₂, h₃, f, t₂, h₄, h₅⟩ := h
  have fetches := fetch_adds h₁ h₂
  have adds₂ := (assign_adds h₃).2.2.trans (assign_adds h₄).2.2
  have adds₃ := (assign_adds h₅).2.2
  have rest := adds₂.le.trans adds₃.le
  have adds := (fetches.adds.trans adds₂).trans adds₃
  refine ⟨adds.le, fun shape => adds.shape (shape.sub (List.subset_append_right ..)),
    fun placed k m class_ method K O σ c r o xs shape located object found tag passed => ?_⟩
  obtain ⟨placed₁, later⟩ := placed.split fetches.adds.le rest
  obtain ⟨placed₂, placed₃⟩ := later.split adds₂.le adds₃.le
  rw [← located.store] at found
  have table := located.held.table r o found k class_ tag.symm
  rw [show c.view.place r = X.eval c recv from object.2.2.symm] at table
  obtain ⟨c₁, located₁, later₁, _, word₁, view₁⟩ :=
    fetch_goes fetches placed₁ shape located table
  have entry : c₁.config.memory (X.geometry.word (X.eval c₁ b) i) =
      some (X.site.symbol m.label) := by
    rw [word₁]
    exact located₁.image _ _ (tables.method k class_ i m method)
  obtain ⟨shape₂, c₂, located₂, later₂, word₂, view₂⟩ :=
    entry_goes h₃ h₄ placed₂ (fetches.adds.shape shape) located₁ entry
  have whole := later₁.trans (later₂.since fetches.adds.next)
  have object₂ := whole.value object
  have kept := whole.kept (N := N) shape adds.le placed located
  have passed₂ : List.Forall₂ (fun a x => X.SlotHas c₂ (.inr a) x) args xs := by
    have saved := (List.forall₂_and_left _ _).mpr ⟨fun a (ha : a ∈ args) => ha, passed⟩
    exact saved.imp fun a x h => kept (.inr a) (List.mem_append_left _ (by simpa using h.1)) x h.2
  have less : K ⊆ (args.map .inr).reverse ++ K := List.subset_append_right ..
  have answer : (X.model N).Answered X.setting K t' σ c₂ m.label (.obj r) xs v :=
    call_law conv h₅ placed₃ (shape₂.sub less) (stays (N := N) located₂ less).1 word₂
      (passed_objects object₂.2 passed₂)
  exact answer.from fun s hs => kept s (less hs)

/-- The operand has this word, and new code does not change it. -/
def Fixed (X : Scenario) (t : State) (c : Point) (v : Operand) (y : BitVec 64) : Prop :=
  v.Below t.fresh.next ∧ X.eval c v = y

theorem Fixed.later {c' : Point} {v : Operand} {y : BitVec 64} (h : X.Fixed t c v y)
    (le : State.Le t t') (later : X.Later t c c') : X.Fixed t' c' v y :=
  ⟨h.1.mono le.1, (later.eval h.1).trans h.2⟩

theorem fetch_fixed {ty : Ty} {name : String} {obj v : Operand} {j : Nat} {y : BitVec 64}
    (fetches : Fetches ty name obj j t v t') (placed : X.Placed t t') (shape : Shape t K O)
    (h : X.Located .here t K σ c)
    (there : c.config.memory (X.geometry.word (X.eval c obj) j) = some y) :
    ∃ c', X.Located .here t' K σ c' ∧ X.Later t c c' ∧ X.Fixed t' c' v y ∧
      c'.view = c.view := by
  obtain ⟨c', located, later, below, value, view⟩ := fetch_goes fetches placed shape h there
  exact ⟨c', located, later, ⟨below, value⟩, view⟩

theorem classElement_fetches {row v : Operand} {j : Nat} {ty : Ty}
    (h : Gen.classElement row j ty t = .ok (v, t')) : Fetches ty classObject row j t v t' := by
  simp only [Gen.classElement, bind_ok] at h
  obtain ⟨p, t₁, first, second⟩ := h
  exact fetch_adds first second

theorem row_goes (tables : X.Tables) {tag row : Operand} {x : BitVec 64}
    (h : Gen.assign (.row classObject (.symbol Linkage.classObjects) tag) t = .ok (row, t'))
    (placed : X.Placed t t') (shape : Shape t K O) (located : X.Located .here t K σ c)
    (value : X.eval c tag = x) :
    ∃ c', X.Located .here t' K σ c' ∧ X.Later t c c' ∧ X.Fixed t' c' row
      (X.site.symbol Linkage.classObjects +
        BitVec.ofNat 64 (slotSize * classObjectTypes.length) * x) ∧ c'.view = c.view := by
  obtain ⟨rfl, next, adds⟩ := assign_adds h
  have run : X.site.exec [.assign ⟨t.fresh.next⟩
      (.row classObject (.symbol Linkage.classObjects) tag)] c.config = some (c.config.assign
        ⟨t.fresh.next⟩ (X.site.symbol Linkage.classObjects +
          BitVec.ofNat 64 (slotSize * classObjectTypes.length) * x)) := by
    simp only [Site.exec, Site.value, tables.rows, Option.map_some, Option.bind_some]
    rw [← value]
    rfl
  obtain ⟨c', there, later, value, view⟩ := goes_quiet (Q := fun c' =>
    X.eval c' (.temp ⟨t.fresh.next⟩) = _ ∧ c'.view = c.view) located placed adds shape run
    ⟨eval_assign_self _ _ _, rfl⟩
  refine ⟨c', there, later, ⟨?_, value⟩, view⟩
  rw [next]
  exact Nat.lt_succ_self _

/-- What the code of `new SELF_TYPE` has at hand before it allocates. -/
structure Entry (X : Scenario) (t : State) (c : Point) (k : ClassLayout)
    (tag size table init : Operand) : Prop where
  tag : ∃ x, X.Fixed t c tag x ∧ x.toInt = k.tag
  size : ∃ y, X.Fixed t c size y ∧ y.toInt = objectSize k
  table : X.Fixed t c table (X.site.symbol (Linkage.dispatchTable k.name))
  init : X.Fixed t c init (X.site.symbol (Linkage.initializer k.name))

theorem entry_run (tables : X.Tables) {tag row size table init : Operand} {t₁ t₂ t₃ t₄ t₅ : State}
    (h₁ : Gen.loadTag .self t = .ok (tag, t₁))
    (h₂ : Gen.assign (.row classObject (.symbol Linkage.classObjects) tag) t₁ = .ok (row, t₂))
    (h₃ : Gen.classElement row 1 .i64 t₂ = .ok (size, t₃))
    (h₄ : Gen.classElement row 2 .ptr t₃ = .ok (table, t₄))
    (h₅ : Gen.classElement row 3 .ptr t₄ = .ok (init, t₅)) :
    (∃ is, Adds t is false t₅) ∧ (X.Placed t t₅ → ∀ {k}, k ∈ X.setting.classes.classes →
      ∀ {K O σ c o}, Shape t K O → X.Located .here t K σ c → σ.heap[X.setting.self]? = some o →
      o.tag = k.tag → ∃ c', X.Located .here t₅ K σ c' ∧ X.Later t c c' ∧ c'.view = c.view ∧
        X.Entry t₅ c' k tag size table init) := by
  simp only [Gen.loadTag, Gen.headerAddress, bind_ok] at h₁
  obtain ⟨p, s, first, second⟩ := h₁
  have f₁ := fetch_adds first second
  have a₂ := (assign_adds h₂).2.2
  have f₃ := classElement_fetches h₃
  have f₄ := classElement_fetches h₄
  have f₅ := classElement_fetches h₅
  have r₄ := f₄.adds.le.trans f₅.adds.le
  have r₃ := f₃.adds.le.trans r₄
  have r₂ := a₂.le.trans r₃
  refine ⟨⟨_, (((f₁.adds.trans a₂).trans f₃.adds).trans f₄.adds).trans f₅.adds⟩,
    fun placed k known K O σ c o shape located found tagged => ?_⟩
  obtain ⟨p₁, placed⟩ := placed.split f₁.adds.le r₂
  obtain ⟨p₂, placed⟩ := placed.split a₂.le r₃
  obtain ⟨p₃, placed⟩ := placed.split f₃.adds.le r₄
  obtain ⟨p₄, p₅⟩ := placed.split f₄.adds.le f₅.adds.le
  rw [← located.store] at found
  obtain ⟨x, hx, number⟩ := located.held.tag X.setting.self o found
  rw [tagged] at number
  have self : c.config.memory (X.geometry.word (X.eval c .self) 0) = some x := by
    rw [Geometry.word_zero, show X.eval c .self = _ from located.self]
    exact hx
  obtain ⟨c₁, located₁, later₁, tag₁, view₁⟩ := fetch_fixed f₁ p₁ shape located self
  have shape₁ := f₁.adds.shape shape
  obtain ⟨c₂, located₂, later₂, row₂, view₂⟩ :=
    row_goes tables h₂ p₂ shape₁ located₁ tag₁.2
  have shape₂ := a₂.shape shape₁
  obtain ⟨y, hy, sized⟩ := tables.size k known
  have word (j : Nat) : X.geometry.word (X.site.symbol Linkage.classObjects +
      BitVec.ofNat 64 (slotSize * classObjectTypes.length) * x) j =
      X.geometry.word (X.site.symbol Linkage.classObjects) (4 * k.tag + j) :=
    row_word X.geometry rfl _ _ number j
  obtain ⟨c₃, located₃, later₃, size₃, view₃⟩ := fetch_fixed (y := y) f₃ p₃ shape₂ located₂ (by
    rw [row₂.2, word]
    exact located₂.image _ _ hy)
  have shape₃ := f₃.adds.shape shape₂
  have row₃ := row₂.later f₃.adds.le later₃
  obtain ⟨c₄, located₄, later₄, table₄, view₄⟩ := fetch_fixed f₄ p₄ shape₃ located₃ (by
    rw [row₃.2, word]
    exact located₃.image _ _ (tables.table k known))
  have shape₄ := f₄.adds.shape shape₃
  have row₄ := row₃.later f₄.adds.le later₄
  obtain ⟨c₅, located₅, later₅, init₅, view₅⟩ := fetch_fixed f₅ p₅ shape₄ located₄ (by
    rw [row₄.2, word]
    exact located₄.image _ _ (tables.initializer k known))
  have after₃ := later₄.trans (later₅.since f₄.adds.next)
  have after₂ := later₃.trans (after₃.since f₃.adds.next)
  have after₁ := later₂.trans (after₂.since a₂.next)
  refine ⟨c₅, located₅, later₁.trans (after₁.since f₁.adds.next), ?_, ?_, ?_, ?_, init₅⟩
  · rw [view₅, view₄, view₃, view₂, view₁]
  · exact ⟨x, tag₁.later r₂ after₁, number⟩
  · exact ⟨y, size₃.later r₄ after₃, sized⟩
  · exact table₄.later f₅.adds.le later₅

theorem newSelfType_law (tables : X.Tables) (conv : X.Conventions) (built : X.setting.Built)
    {v : Operand} (h : Gen.newSelfType t = .ok (v, t')) :
    (X.model N).Same t t' ∧ (X.Placed t t' → ∀ {k}, k ∈ X.setting.classes.classes →
      ∀ {K O σ c o}, Shape t K O → X.Located .here t K σ c → σ.heap[X.setting.self]? = some o →
      o.tag = k.tag → (X.model N).Answered X.setting K t' ((σ.log (.allocate k.tag)).add
          ⟨k.tag, List.replicate k.fields.length .unset⟩) c
        (Linkage.initializer k.name) (.obj σ.heap.length) [] v) := by
  simp only [Gen.newSelfType, bind_ok] at h
  obtain ⟨tag, t₁, h₁, row, t₂, h₂, size, t₃, h₃, table, t₄, h₄, init, t₅, h₅, obj, t₆, h₆, h₇⟩ := h
  obtain ⟨⟨is, a₅⟩, run⟩ := entry_run tables h₁ h₂ h₃ h₄ h₅
  obtain ⟨rfl, next₆, a₆⟩ := assign_adds h₆
  obtain ⟨-, -, a₇⟩ := assign_adds h₇
  have adds := (a₅.trans a₆).trans a₇
  refine ⟨⟨adds.le, adds.shape⟩, fun placed k known K O σ c o shape located found tagged => ?_⟩
  obtain ⟨p₅, rest⟩ := placed.split a₅.le (a₆.le.trans a₇.le)
  obtain ⟨p₆, p₇⟩ := rest.split a₆.le a₇.le
  obtain ⟨c₅, located₅, later₅, view₅, entry⟩ := run p₅ known shape located found tagged
  have shape₅ := a₅.shape shape
  obtain ⟨x, hx, number⟩ := entry.tag
  obtain ⟨y, hy, sized⟩ := entry.size
  have headed : X.Headed k ([(Ty.i64, tag), (.i64, size), (.ptr, table)].map fun a =>
      X.eval c₅ a.2) := by
    refine ⟨x, y, ?_, number, sized⟩
    simp only [List.map_cons, List.map_nil, hx.2, hy.2, entry.table.2]
  obtain ⟨seen, q, mem, ready₆, later₆⟩ := located₅.toReady.allocate conv built known
    (located₅.code p₆ a₆ shape₅) headed (Nat.le_refl _)
    (unassigned p₆ a₆ shape₅ (List.mem_singleton_self _))
  have located₆ := located₅.arrive a₆ ready₆ rfl rfl rfl
  have init₆ := entry.init.later a₆.le later₆
  have object : View.Rep ((c₅.view.log (.allocate k.tag)).add
      ⟨k.tag, List.replicate k.fields.length .unset⟩ q) (.obj c₅.view.store.heap.length)
      (X.site.eval (c₅.config.assign ⟨t₅.fresh.next⟩ q).temps (.temp ⟨t₅.fresh.next⟩)) := by
    rw [eval_assign_self]
    exact View.rep_new (c₅.view.log (.allocate k.tag)) _ q
  have answer := call_law (N := N) conv h₇ p₇ (a₆.shape shape₅) located₆ init₆.2
    (passed_object object)
  have store : ((c₅.view.log (.allocate k.tag)).add
      ⟨k.tag, List.replicate k.fields.length .unset⟩ q).store =
      (σ.log (.allocate k.tag)).add ⟨k.tag, List.replicate k.fields.length .unset⟩ := by
    rw [← located₅.store]
    rfl
  rw [store, located₅.store] at answer
  have whole := later₅.trans (later₆.since a₅.next)
  exact answer.from (whole.kept shape adds.le placed located)

theorem callEquality_law (conv : X.Conventions) {a b r : Operand}
    (h : Gen.callEquality a b t = .ok (r, t')) :
    (X.model N).Same t t' ∧ (X.Placed t t' → ∀ {K O σ c x y}, Shape t K O →
      X.Located .here t K σ c → (X.model N).value t c a x → (X.model N).value t c b y →
      let σ' := σ.log (.equality x y)
      (X.model N).Moves K t' σ' c fun c' =>
        (X.model N).raw t' c' r (if X.setting.oracle.equal x y σ' then 1 else 0)) := by
  obtain ⟨rfl, next, adds⟩ := assign_adds h
  refine ⟨⟨adds.le, adds.shape⟩, fun placed K O σ c x y shape located left right => ?_⟩
  have code := located.code placed adds shape
  have asks := X.site.asks_call c.config ⟨t.fresh.next⟩ .i64 (.symbol Routine.equals.symbol)
    (Gen.objects [a, b])
  let k := X.site.callee c.config (.symbol Routine.equals.symbol) (Gen.objects [a, b])
  have means : X.means c.view k (.equality x y) := ⟨rfl, .cons left.2 (.cons right.2 .nil)⟩
  have answer := conv.equality _ _ x y (calling code asks located.along) means
  have grown := c.view.extends_log (.equality x y)
  have ready := located.toReady.call (W := c.view.log (.equality x y)) code asks answer means rfl
    grown (located.held.log _) (fun _ _ => rfl) rfl fun r hr => Function.update_of_ne
      (unassigned placed adds shape (List.mem_singleton_self _) r hr) _ _
  have later := Later.called (X := X) (c := c) (k := k) (q := ⟨t.fresh.next⟩)
    (x := if X.setting.oracle.equal x y (c.view.store.log (.equality x y)) then 1 else 0)
    (Nat.le_refl _) grown fun _ _ => rfl
  refine ⟨_, located.arrive adds ready rfl rfl ?_, later.kept shape adds.le placed located, ?_, ?_⟩
  · rw [← located.store]
    rfl
  · rw [next]
    exact Nat.lt_succ_self _
  · change (X.site.eval (c.config.assign ⟨t.fresh.next⟩ _).temps _).toInt = _
    rw [eval_assign_self, ← located.store]
    change (if X.setting.oracle.equal x y (c.view.store.log (.equality x y)) then (1 : BitVec 64)
      else 0).toInt = _
    split <;> rfl

theorem abort_law (conv : X.Conventions) {kind : AbortKind} {file : Const} {line : UInt64}
    {u : Unit} (h : Gen.abort kind file line t = .ok (u, t')) :
    (X.model N).Same t t' ∧ (X.Placed t t' → ∀ {K O σ c name}, Shape t K O →
      X.Located .here t K σ c → Denotes X.pool file (.str name) →
      X.course.ends (.halted (σ.log (.abort kind name line)).trace)) := by
  simp only [Gen.abort, bind_ok] at h
  obtain ⟨_, t₁, first, second⟩ := h
  have adds := (emit_adds (by simp [Plain]) first).1.trans
    (terminate_adds (by simp [Plain]) second).1
  refine ⟨⟨adds.le, adds.shape⟩, fun placed K O σ c name shape located denotes => ?_⟩
  have code := located.code placed adds shape
  have asks := X.site.asks_void c.config (.symbol (Routine.ofAbort kind).symbol)
    [(.ptr, .const file), (.i64, .int line.toNat)]
  have means : X.means c.view (X.site.callee c.config (.symbol (Routine.ofAbort kind).symbol)
      [(.ptr, .const file), (.i64, .int line.toNat)]) (.abort kind name line) := by
    refine ⟨rfl, file, denotes, ?_⟩
    change [_, BitVec.ofInt 64 line.toNat] = _
    rw [BitVec.ofInt_natCast]
    rfl
  have answer := conv.abort _ _ kind name line (calling code asks located.along) means
  rw [← located.store]
  exact run_halt code asks answer means located.along

theorem calls (tables : X.Tables) (conv : X.Conventions) (built : X.setting.Built) :
    (X.model N).Calls X.setting where
  allocate h := allocate_law tables conv built h
  callInit := by
    intro cls obj t v t' h
    obtain ⟨same, run⟩ := callInit_law (X := X) (N := N) conv h
    exact ⟨same, trivial, run⟩
  newSelfType := by
    intro t v t' h
    obtain ⟨same, run⟩ := newSelfType_law (X := X) (N := N) tables conv built h
    exact ⟨same, trivial, fun placed k known K O σ c o shape _ => run placed known shape⟩
  callEquality := by
    intro a b t r t' h
    obtain ⟨same, run⟩ := callEquality_law (X := X) (N := N) conv h
    exact ⟨same, trivial, fun placed K O σ c x y shape located left right _ =>
      run placed shape located left right⟩
  callDirect := by
    intro label recv args t v t' h
    obtain ⟨le, shape, run⟩ := callDirect_law (X := X) (N := N) conv h
    exact ⟨le, trivial, shape, run⟩
  callDynamic := by
    intro recv cls i args t v t' h
    obtain ⟨le, shape, run⟩ := callDynamic_law (X := X) (N := N) tables conv h
    exact ⟨le, trivial, shape, run⟩
  abort h := abort_law conv h

theorem lawful (framed : X.Framed) (tables : X.Tables) (conv : X.Conventions)
    (built : X.setting.Built) (calculates : X.Calculates) : (X.model N).Lawful X.setting where
  toOrdered := ordered tables built
  toStorage := storage framed conv
  toWords := words tables conv built calculates
  toControl := control
  toCalls := calls tables conv built

end Scenario

end ClassBackend.Llvm
