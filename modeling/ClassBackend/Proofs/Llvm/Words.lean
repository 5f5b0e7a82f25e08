import ClassBackend.Proofs.Llvm.Storage

/-! Unboxed words and new objects on the machine for LLVM IR. -/
namespace ClassBackend.Llvm

open Meaning Machine Lowering

variable {t t' : State} {K : List (Slot backend)} {O : List BlockName} {N : Nat}
variable {is : List Instr} {last : Bool}

theorem fits_toInt {n : Int} (low : -9223372036854775808 ≤ n) (high : n < 9223372036854775808) :
    (BitVec.ofInt 64 n).toInt = n := by
  rw [BitVec.toInt_ofInt]
  exact Int.bmod_eq_of_le (by omega) (by omega)

theorem compute_toInt {op : ArithOp} {a : BitVec 64} {b n : Int}
    (h : compute op a.toInt b = .result n) : (BitVec.ofInt 64 n).toInt = n := by
  cases op with
  | add | sub | mul =>
    cases h
    rw [BitVec.toInt_ofInt]
    exact Int.bmod_bmod
  | div =>
    unfold compute at h
    dsimp only at h
    split at h
    · contradiction
    · rename_i defined
      cases h
      have low := a.le_toInt
      have high := a.toInt_lt
      have smaller : (a.toInt.tdiv b).natAbs ≤ a.toInt.natAbs := by
        rw [Int.natAbs_tdiv]
        exact Nat.div_le_self ..
      apply fits_toInt <;> omega

namespace Scenario

variable {X : Scenario} {σ : Store} {c : Point}

theorem unbox_law {v r : Operand} {cls : ClassLayout} (h : Gen.unbox v cls t = .ok (r, t')) :
    (X.model N).Same t t' ∧ (X.Placed t t' → cls.ownStart = 0 → ∀ {K O σ c p o n}, Shape t K O →
      X.Located .here t K σ c → (X.model N).value t c v (.obj p) → σ.heap[p]? = some o →
      o.cells[0]? = some (.word n) →
      (X.model N).Moves K t' σ c fun c' => (X.model N).raw t' c' r n ∧
        (X.model N).Values t t' c c' ∧ (X.model N).Raws t t' c c') := by
  simp only [Gen.unbox, bind_ok] at h
  obtain ⟨p, t₁, first, second⟩ := h
  have fetches := fetch_adds (fieldAddress_ok first) second
  refine ⟨⟨fetches.adds.le, fetches.adds.shape⟩, fun placed start K O σ c p o n shape h object
    found hd => ?_⟩
  rw [← h.store] at found
  obtain ⟨y, hy, number⟩ := h.held.cell p o 0 _ found hd
  have there : c.config.memory (X.geometry.word (X.eval c v) (headerWords + cls.ownStart)) =
      some y := by
    rw [object.2.2, start]
    exact hy
  apply (fetch_goes fetches placed shape h there).moves shape fetches.adds.le placed h
  rintro c' later ⟨below, value, _⟩
  refine ⟨⟨below, ?_⟩, later.values fetches.adds.le, later.raws fetches.adds.le⟩
  rw [value]
  exact number

theorem loadTag_law {obj r : Operand} (h : Gen.loadTag obj t = .ok (r, t')) :
    (X.model N).Same t t' ∧ (X.Placed t t' → ∀ {K O σ c p o}, Shape t K O →
      X.Located .here t K σ c → (X.model N).value t c obj (.obj p) → σ.heap[p]? = some o →
      (X.model N).Moves K t' σ c fun c' =>
        (X.model N).raw t' c' r o.tag ∧ (X.model N).Values t t' c c') := by
  simp only [Gen.loadTag, Gen.headerAddress, bind_ok] at h
  obtain ⟨p, t₁, first, second⟩ := h
  have fetches := fetch_adds first second
  refine ⟨⟨fetches.adds.le, fetches.adds.shape⟩, fun placed K O σ c p o shape h object found => ?_⟩
  rw [← h.store] at found
  obtain ⟨y, hy, number⟩ := h.held.tag p o found
  have there : c.config.memory (X.geometry.word (X.eval c obj) 0) = some y := by
    rw [object.2.2, Geometry.word_zero]
    exact hy
  apply (fetch_goes fetches placed shape h there).moves shape fetches.adds.le placed h
  rintro c' later ⟨below, value, _⟩
  refine ⟨⟨below, ?_⟩, later.values fetches.adds.le⟩
  rw [value]
  exact number

/-- The numbers that the language computes with are those of the machine, as far as it says. -/
def Calculates (X : Scenario) : Prop :=
  ∀ op a b, X.setting.compute op a b ≠ .undefined → X.setting.compute op a b = compute op a b

theorem Ready.assigned (h : X.Ready c) {q : Temp} {x : BitVec 64}
    (along : X.course.Along c.seen (c.config.assign q x) c.view)
    (spared : ∀ r ∈ X.site.body.allocas, r ≠ q) :
    X.Ready ⟨c.seen, c.config.assign q x, c.view⟩ := by
  refine ⟨along, h.held, h.image, fun r hr => ?_, h.self⟩
  exact (Function.update_of_ne (spared r hr) _ _).trans (h.allocas r hr)

theorem unassigned {q : Temp} {rhs : Rhs} (placed : X.Placed t t') (adds : Adds t is last t')
    (shape : Shape t K O) (mem : .assign q rhs ∈ is) : ∀ r ∈ X.site.body.allocas, r ≠ q := by
  rintro r hr rfl
  exact spared placed adds shape r hr rhs mem

theorem computed {rhs : Rhs} {v : Operand} {k k' : Calc} (h : Gen.assign rhs t = .ok (v, t'))
    (placed : X.Placed t t') (shape : Shape t K O) (located : X.Located .here t K σ c)
    (performs : ∀ q, X.site.define c.config q rhs = Site.settle c.config q k)
    (agrees : k' ≠ .undefined → k' = k)
    (fits : ∀ m, k = .result m → (BitVec.ofInt 64 m).toInt = m) :
    (X.model N).Computed K t' σ c v k' := by
  obtain ⟨rfl, next, adds⟩ := assign_adds h
  have code := located.code placed adds shape
  cases k' with
  | undefined => trivial
  | trap =>
    have trap : k = .trap := (agrees (by simp)).symm
    change X.course.ends (.trapped σ.trace)
    rw [← located.store]
    refine ⟨_, _, _, located.along, code.head.2, ?_, rfl⟩
    rw [step_of_head code]
    change X.site.define c.config _ rhs = _
    rw [performs, trap]
    rfl
  | result m =>
    have result : k = .result m := (agrees (by simp)).symm
    have along := run_settle code (performs _) result located.along
    have ready := located.toReady.assigned along
      (unassigned placed adds shape (List.mem_singleton_self _))
    have later : X.Later t c ⟨c.seen, c.config.assign ⟨t.fresh.next⟩ (BitVec.ofInt 64 m),
        c.view⟩ := by
      refine ⟨.refl, fun q hq => Function.update_of_ne ?_ _ _, fun _ _ => rfl⟩
      rintro rfl
      exact Nat.lt_irrefl _ hq
    refine ⟨_, located.arrive adds ready rfl rfl located.store,
      later.kept shape adds.le placed located, ?_, ?_⟩
    · rw [next]
      exact Nat.lt_succ_self _
    · change (X.site.eval _ (.temp _)).toInt = m
      rw [eval_assign_self]
      exact fits m result

theorem arith_law (calculates : X.Calculates) {op : ArithOp} {a b r : Operand}
    (h : Gen.arith op a b t = .ok (r, t')) :
    (X.model N).Same t t' ∧ (X.Placed t t' → ∀ {K O σ c n m}, Shape t K O →
      X.Located .here t K σ c → (X.model N).raw t c a n → (X.model N).raw t c b m →
      (X.model N).Computed K t' σ c r (X.setting.compute op n m)) := by
  obtain ⟨-, -, adds⟩ := assign_adds h
  refine ⟨⟨adds.le, adds.shape⟩, fun placed K O σ c n m shape located left right => ?_⟩
  apply computed h placed shape located (k := compute op n m) _ (calculates op n m)
  · intro k result
    rw [← left.2] at result
    exact compute_toInt result
  · intro q
    rw [← left.2, ← right.2]
    rfl

theorem negate_law (calculates : X.Calculates) {a r : Operand}
    (h : Gen.negate a t = .ok (r, t')) :
    (X.model N).Same t t' ∧ (X.Placed t t' → ∀ {K O σ c n}, Shape t K O →
      X.Located .here t K σ c → (X.model N).raw t c a n →
      (X.model N).Computed K t' σ c r (X.setting.compute .sub 0 n)) := by
  obtain ⟨-, -, adds⟩ := assign_adds h
  refine ⟨⟨adds.le, adds.shape⟩, fun placed K O σ c n shape located value => ?_⟩
  apply computed h placed shape located (k := compute .sub 0 n) _ (calculates .sub 0 n)
  · exact fun k result => compute_toInt (a := 0) result
  · intro q
    rw [← value.2]
    rfl

theorem Later.called {q : Temp} {k : Call} {x : BitVec 64} {mem : Memory 64} {W : View 64}
    (fresh : t.fresh.next ≤ q.id) (grown : c.view.Extends W)
    (spared : X.Spared c.config.memory mem) :
    X.Later t c ⟨c.seen ++ [.call k], { c.config.assign q x with memory := mem }, W⟩ := by
  refine ⟨grown, fun r hr => Function.update_of_ne ?_ _ _,
    fun r hr => spared _ (.inl ⟨r, hr, rfl⟩)⟩
  rintro rfl
  exact Nat.not_lt_of_le fresh hr

def Headed (X : Scenario) (k : ClassLayout) (xs : List (BitVec 64)) : Prop :=
  ∃ x size, xs = [x, size, X.site.symbol (Linkage.dispatchTable k.name)] ∧ x.toInt = k.tag ∧
    size.toInt = objectSize k

theorem headed_header (tables : X.Tables) {k : ClassLayout} (known : k ∈ X.setting.classes.classes)
    (temps : Temp → BitVec 64) :
    X.Headed k ((Module.header k).map fun a => X.site.eval temps a.2) := by
  have fits : ∀ {n : Int} {m : Option (BitVec 64)}, (∃ x, m = some x ∧ x.toInt = n) →
      (BitVec.ofInt 64 n).toInt = n := by
    rintro n m ⟨x, -, rfl⟩
    rw [BitVec.ofInt_toInt]
  exact ⟨_, _, rfl, fits (tables.tag k known), fits (tables.size k known)⟩

/-- Storage is asked for: there is a new object, and what was in memory is still there. -/
theorem Ready.allocate (conv : X.Conventions) (built : X.setting.Built) (h : X.Ready c)
    {k : ClassLayout} (known : k ∈ X.setting.classes.classes) {q : Temp}
    {args : List (Ty × Operand)}
    (code : X.Code c.config.label c.config.index
      (.assign q (.call .ptr (.symbol Routine.gcAlloc.symbol) args) :: is))
    (headed : X.Headed k (args.map fun a => X.eval c a.2)) (fresh : t.fresh.next ≤ q.id)
    (spared : ∀ r ∈ X.site.body.allocas, r ≠ q) :
    ∃ seen x mem, X.Ready ⟨seen, { c.config.assign q x with memory := mem },
        (c.view.log (.allocate k.tag)).add ⟨k.tag, List.replicate k.fields.length .unset⟩ x⟩ ∧
      X.Later t c ⟨seen, { c.config.assign q x with memory := mem },
        (c.view.log (.allocate k.tag)).add ⟨k.tag, List.replicate k.fields.length .unset⟩ x⟩ := by
  obtain ⟨p, program⟩ := built.program
  obtain ⟨tag, size, words, tagged, sized⟩ := headed
  have asks := X.site.asks_call c.config q .ptr (.symbol Routine.gcAlloc.symbol) args
  have means : X.means c.view (X.site.callee c.config (.symbol Routine.gcAlloc.symbol) args)
      (.allocate k.tag) := ⟨rfl, k, known, rfl, tag, size, words, tagged, sized⟩
  obtain ⟨x, mem, answer, made⟩ := conv.allocate _ _ _ (calling code asks h.along) means
  have made := made _ _ _ words
  have wide : size.toNat = slotSize * (headerWords + k.fields.length) := by
    have bound := size.isLt
    rw [BitVec.toInt_eq_toNat_cond] at sized
    change _ = ((slotSize * (headerFields + k.fields.length) : Nat) : Int) at sized
    simp only [slotSize, headerFields, headerWords] at sized ⊢
    split at sized <;> omega
  have inside {j : Nat} (hj : j < headerWords + k.fields.length) : slotSize * j < size.toNat := by
    rw [wide]
    exact Nat.mul_lt_mul_of_pos_left hj (by decide)
  have reserved : X.Spared c.config.memory mem := fun a ha => made.old a (h.held.kept a ha)
  have after : X.setting.after (.allocate k.tag) c.view.store = some
      ((c.view.log (.allocate k.tag)).add
        ⟨k.tag, List.replicate k.fields.length .unset⟩ x).store :=
    Setting.after_allocate (ClassTable.getElem?_tag program known) _
  have grown := (c.view.extends_log (.allocate k.tag)).trans
    (View.extends_add _ ⟨k.tag, List.replicate k.fields.length .unset⟩ x)
  have held : X.course.Held ((c.view.log (.allocate k.tag)).add
      ⟨k.tag, List.replicate k.fields.length .unset⟩ x) mem := by
    have vacant : Vacant X.geometry c.config.memory x (headerWords + k.fields.length) :=
      ⟨made.nonzero, fun j hj => made.fresh j (inside hj),
        fun i hi j hj => made.distinct i j (inside hi) (inside hj)⟩
    exact (h.held.log (.allocate k.tag)).blank program known vacant made.old
      (fun j hj => made.mapped j (inside hj)) ⟨tag, made.tag, tagged⟩ made.table
  refine ⟨_, x, mem, h.call code asks answer means after grown held reserved rfl ?_,
    .called fresh grown reserved⟩
  exact fun r hr => Function.update_of_ne (spared r hr) _ _

theorem allocate_adds {cls : ClassLayout} {v : Operand} (h : Gen.allocate cls t = .ok (v, t')) :
    v = .temp ⟨t.fresh.next⟩ ∧ t'.fresh.next = t.fresh.next + 1 ∧ Adds t
      [.assign ⟨t.fresh.next⟩ (.call .ptr (.symbol Routine.gcAlloc.symbol) (Module.header cls))]
      false t' := assign_adds h

theorem allocate_law (tables : X.Tables) (conv : X.Conventions) (built : X.setting.Built)
    {cls : ClassLayout} {v : Operand} (h : Gen.allocate cls t = .ok (v, t')) :
    (X.model N).Same t t' ∧ (X.Placed t t' → cls ∈ X.setting.classes.classes → ∀ {K O σ c},
      Shape t K O → X.Located .here t K σ c →
      (X.model N).Moves K t' ((σ.log (.allocate cls.tag)).add
          ⟨cls.tag, List.replicate cls.fields.length .unset⟩) c fun c' =>
        (X.model N).value t' c' v (.obj σ.heap.length)) := by
  obtain ⟨rfl, next, adds⟩ := allocate_adds h
  refine ⟨⟨adds.le, adds.shape⟩, fun placed known K O σ c shape h => ?_⟩
  obtain ⟨seen, x, mem, ready, later⟩ := h.toReady.allocate conv built known
    (h.code placed adds shape) (headed_header tables known _) (Nat.le_refl _)
    (unassigned placed adds shape (List.mem_singleton_self _))
  refine ⟨_, h.arrive adds ready rfl rfl ?_, later.kept shape adds.le placed h, ?_, ?_⟩
  · rw [← h.store]
    rfl
  · rw [next]
    exact Nat.lt_succ_self _
  · change View.Rep _ _ (X.site.eval (c.config.assign ⟨t.fresh.next⟩ x).temps
      (.temp ⟨t.fresh.next⟩))
    rw [eval_assign_self, ← h.store]
    exact View.rep_new (c.view.log (.allocate cls.tag)) _ x

theorem boxInt_law (tables : X.Tables) (conv : X.Conventions) (built : X.setting.Built)
    {raw v : Operand} {int : ClassLayout} (h : Gen.boxInt raw int t = .ok (v, t')) :
    (X.model N).Same t t' ∧ (X.Placed t t' → X.setting.classes.find Builtin.intName = .ok int →
      int.ownStart = 0 → int.fields.length = 1 → ∀ {K O σ c n}, Shape t K O →
      X.Located .here t K σ c → (X.model N).raw t c raw n →
      (X.model N).Moves K t' ((σ.log (.allocate int.tag)).add ⟨int.tag, [.word n]⟩) c fun c' =>
        (X.model N).value t' c' v (.obj σ.heap.length)) := by
  simp only [Gen.boxInt, bind_ok, pure_ok] at h
  obtain ⟨obj, t₁, first, p, t₂, second, _, t₃, third, rfl, rfl⟩ := h
  obtain ⟨rfl, next₁, adds₁⟩ := allocate_adds first
  obtain ⟨rfl, next₂, adds₂⟩ := assign_adds (fieldAddress_ok second)
  have adds₃ := (emit_adds (by simp [Plain]) third).1
  have adds := (adds₁.trans adds₂).trans adds₃
  refine ⟨⟨adds.le, adds.shape⟩, fun placed found start single K O σ c n shape h value => ?_⟩
  have known := ClassTable.mem_of_find found
  have code := h.code placed adds shape
  obtain ⟨seen, x, mem, ready₁, later₁⟩ := h.toReady.allocate conv built known code
    (headed_header tables known _) (Nat.le_refl _)
    (unassigned placed adds shape (List.mem_cons_self))
  have one : (List.replicate int.fields.length Cell.unset) = [.unset] := by
    rw [single]
    rfl
  rw [one] at ready₁ later₁
  let c₁ : Config := { c.config.assign ⟨t.fresh.next⟩ x with memory := mem }
  let V := (c.view.log (.allocate int.tag)).add ⟨int.tag, [.unset]⟩ x
  have newest : V.store.heap[c.view.store.heap.length]? = some ⟨int.tag, [.unset]⟩ := by
    simp [V, View.add, View.log]
  have place : V.place c.view.store.heap.length = x := View.add_place_new ..
  let c₂ := c₁.assign ⟨t₁.fresh.next⟩ (X.geometry.word x headerWords)
  have base : X.site.eval c₁.temps (.temp ⟨t.fresh.next⟩) = x := eval_assign_self _ _ _
  have run : X.site.exec [.assign ⟨t₁.fresh.next⟩
      (.element int.name (.temp ⟨t.fresh.next⟩) (headerWords + int.ownStart))] c₁ = some c₂ := by
    change some (c₁.assign ⟨t₁.fresh.next⟩ (X.geometry.word
      (X.site.eval c₁.temps (.temp ⟨t.fresh.next⟩)) (headerWords + int.ownStart))) = _
    rw [base, start]
    rfl
  have code₁ : X.Code c₁.label c₁.index ([.assign ⟨t₁.fresh.next⟩
      (.element int.name (.temp ⟨t.fresh.next⟩) (headerWords + int.ownStart))] ++
      [.store .i64 raw (.temp ⟨t₁.fresh.next⟩)]) := code.tail
  have ready₂ := ready₁.quiet code₁.take run fun r hr rhs mem =>
    spared placed adds shape r hr rhs (List.mem_cons_of_mem _ (List.mem_append_left _ mem))
  have later₂ : X.Later t ⟨seen, c₁, V⟩ ⟨seen, c₂, V⟩ := .quiet run (by simp [next₁])
  have before := later₁.trans later₂
  have address : X.eval ⟨seen, c₂, V⟩ (.temp ⟨t₁.fresh.next⟩) =
      X.geometry.word (V.place c.view.store.heap.length) headerWords := by
    rw [place]
    exact eval_assign_self _ _ _
  obtain ⟨ready₃, later₃⟩ := ready₂.box (t := t) code₁.drop address found newest
  have number : (X.eval ⟨seen, c₂, V⟩ raw).toInt = n := by
    rw [before.eval value.1]
    exact value.2
  rw [number] at ready₃ later₃
  have whole := before.trans later₃
  refine ⟨_, h.arrive adds ready₃ rfl rfl ?_, whole.kept shape adds.le placed h, ?_, ?_, ?_⟩
  · rw [← h.store]
    exact Store.add_setCell (c.view.store.log (.allocate int.tag)) _ 0 _
  · have := adds₂.next
    have := adds₃.next
    change t.fresh.next < _
    omega
  · rw [← h.store]
    simp [View.setCell, Store.setCell, View.add, View.log]
  · rw [← h.store]
    refine Eq.trans ?_ place.symm
    refine Eq.trans (eval_assign (n := t₁.fresh.next) ?_ (Nat.le_refl _) c₁ _) base
    change t.fresh.next < _
    omega

theorem words (tables : X.Tables) (conv : X.Conventions) (built : X.setting.Built)
    (calculates : X.Calculates) : (X.model N).Words X.setting where
  unbox := by
    intro v cls t r t' h
    obtain ⟨same, run⟩ := unbox_law (X := X) (N := N) h
    refine ⟨same, trivial, trivial,
      fun placed start K O σ c p o n shape located value found hd => ?_⟩
    obtain ⟨c', there, kept, raw, values, raws⟩ := run placed start shape located value found hd
    exact ⟨c', there, kept, raw, values, fun q m _ hq => raws q m hq⟩
  boxInt := by
    intro raw int t v t' h
    obtain ⟨same, run⟩ := boxInt_law (X := X) (N := N) tables conv built h
    exact ⟨same, trivial, run⟩
  rawWord := by
    intro n t r t' h
    obtain ⟨rfl, rfl⟩ := pure_ok.mp h
    exact ⟨rfl, fun c word => ⟨trivial, fits_toInt word.1 word.2⟩⟩
  arith := by
    intro op a b t r t' h
    obtain ⟨same, run⟩ := arith_law (X := X) (N := N) calculates h
    exact ⟨same, fun placed _ => run placed⟩
  negate := by
    intro a t r t' h
    obtain ⟨same, run⟩ := negate_law (X := X) (N := N) calculates h
    exact ⟨same, fun placed _ => run placed⟩
  loadTag := by
    intro obj t r t' h
    obtain ⟨same, run⟩ := loadTag_law (X := X) (N := N) h
    exact ⟨same, trivial, run⟩

end Scenario

end ClassBackend.Llvm
