import ClassBackend.Proofs.Lowering.Model

/-! The laws of a model, one for each operation that expressions are lowered to. -/
namespace ClassBackend.Lowering

open Meaning

variable {B : Backend} (M : Model B) (S : Setting)

/-- What holds of emission and of configurations whatever is emitted. -/
structure Model.Ordered : Prop where
  refl : ∀ {t}, M.le t t
  trans : ∀ {t t' t''}, M.le t t' → M.le t' t'' → M.le t t''
  split : ∀ {t t' t''}, M.placed t t'' → M.le t t' → M.le t' t'' → M.placed t t' ∧ M.placed t' t''
  perm : ∀ {t K O O'}, O.Perm O' → M.shape t K O → M.shape t K O'
  waits : ∀ {p t t' K σ c}, p ≠ .here → M.le t t' → M.located p t K σ c → M.located p t' K σ c
  firm : ∀ {p t K σ c}, M.located p t K σ c → M.firm t K
  block : ∀ {b t t' K σ c}, M.firm t' K → M.located (.block b) t K σ c →
    M.located (.block b) t' K σ c
  value : ∀ {t t' c v x}, M.le t t' → M.value t c v x → M.value t' c v x
  raw : ∀ {t t' c r n}, M.le t t' → M.raw t c r n → M.raw t' c r n
  shut : ∀ {t t' a}, M.le t t' → M.shut t a → M.shut t' a
  self : ∀ {t K σ c}, M.located .here t K σ c → M.value t c B.selfObject (.obj S.self)
  void : ∀ {t K σ c}, M.located .here t K σ c → M.value t c B.voidValue .void
  selfResult : M.result B.selfObject
  voidResult : M.result B.voidValue
  pause : ∀ {p t K σ c}, M.located p t K σ c → M.ends (.exhausted σ.trace)
  wrong : M.ends .wrong
  tags : ∀ k ∈ S.classes.classes, M.word k.tag ∧ M.word k.lastTag
  falsity : M.word 0
  truth : M.word 1

structure Model.Storage : Prop where
  constant : ∀ {k t v t'}, B.constant k t = .ok (v, t') → M.Same t t' ∧ M.result v ∧
    (M.placed t t' → ∀ {K O σ c l}, M.shape t K O → M.located .here t K σ c → Denotes M.pool k l →
      M.Moves K t' σ c fun c' => M.value t' c' v (.obj (S.literal l)))
  allocLocal : ∀ {v t a t'}, B.allocLocal v t = .ok (a, t') → M.le t t' ∧
    (∀ {K O}, M.shape t K O → .inl a ∉ K ∧ M.shape t' (.inl a :: K) O) ∧
    (M.placed t t' → ∀ {K O σ c x}, M.shape t K O → K.length < M.capacity →
      M.located .here t K σ c → M.value t c v x →
      ∃ c', M.located .here t' (.inl a :: K) σ c' ∧ M.Kept K c c' ∧ M.slot c' (.inl a) x)
  freeLocal : ∀ {a t t'}, B.freeLocal a t = .ok ((), t') → M.le t t' ∧
    (∀ {K O}, M.shape t (.inl a :: K) O → M.shape t' K O) ∧
    (M.placed t t' → ∀ {K O σ c}, M.shape t (.inl a :: K) O → M.located .here t (.inl a :: K) σ c →
      M.Moves K t' σ c fun c' => M.Values t t' c c')
  loadLocal : ∀ {a t v t'}, B.loadLocal a t = .ok (v, t') → M.Same t t' ∧ M.result v ∧
    (M.placed t t' → ∀ {K O σ c x}, M.shape t K O → .inl a ∈ K → M.located .here t K σ c →
      M.slot c (.inl a) x → M.Moves K t' σ c fun c' => M.value t' c' v x)
  storeLocal : ∀ {a v t t'}, B.storeLocal a v t = .ok ((), t') → M.Same t t' ∧
    (M.placed t t' → ∀ {K O σ c x}, M.shape t K O → .inl a ∈ K → M.located .here t K σ c →
      M.value t c v x → ∃ c', M.located .here t' K σ c' ∧
        (∀ s ∈ K, s ≠ .inl a → ∀ y, M.slot c s y → M.slot c' s y) ∧ M.slot c' (.inl a) x ∧
        M.Values t t' c c')
  loadField : ∀ {obj cls i t v t'}, B.loadField obj cls i t = .ok (v, t') →
    M.Same t t' ∧ M.result v ∧
    (M.placed t t' → ∀ {K O σ c r x}, M.shape t K O → M.located .here t K σ c →
      M.value t c obj (.obj r) → (σ.heap[r]?).bind (·.cells[i]?) = some (.ref x) →
      M.Moves K t' σ c fun c' => M.value t' c' v x)
  storeField : ∀ {obj cls i v t t'}, B.storeField obj cls i v t = .ok ((), t') → M.Same t t' ∧
    (M.placed t t' → ∀ {K O σ c r x d}, M.shape t K O → M.located .here t K σ c →
      M.value t c obj (.obj r) → M.value t c v x →
      (σ.heap[r]?).bind (·.cells[i]?) = some d → d.isPointer →
      M.Moves K t' (σ.setField r i x) c fun c' => M.Values t t' c c')
  writeBarrier : ∀ {obj cls i t t'}, B.writeBarrier obj cls i t = .ok ((), t') → M.Same t t' ∧
    (M.placed t t' → ∀ {K O σ c r}, M.shape t K O → M.located .here t K σ c →
      M.value t c obj (.obj r) →
      M.Moves K t' (σ.log (.barrier (.obj r) i)) c fun c' => M.Results t t' c c')
  preserve : ∀ {v t s t'}, B.preserve v t = .ok (s, t') → M.le t t' ∧
    (∀ {K O}, M.shape t K O → M.shape t' (.inr s :: K) O) ∧
    (M.placed t t' → ∀ {K O σ c x}, M.shape t K O → K.length < M.capacity →
      M.located .here t K σ c → M.value t c v x →
      ∃ c', M.located .here t' (.inr s :: K) σ c' ∧ M.Kept K c c' ∧ M.slot c' (.inr s) x)
  restore : ∀ {s t v t'}, B.restore s t = .ok (v, t') → M.le t t' ∧
    (∀ {K O}, M.shape t (.inr s :: K) O → M.shape t' K O) ∧
    (M.placed t t' → ∀ {K O σ c x}, M.shape t (.inr s :: K) O →
      M.located .here t (.inr s :: K) σ c → M.slot c (.inr s) x →
      M.Moves K t' σ c fun c' => M.value t' c' v x ∧ M.Results t t' c c')

structure Model.Words : Prop where
  unbox : ∀ {v cls t r t'}, B.unbox v cls t = .ok (r, t') → M.Same t t' ∧ M.loaded r ∧
    M.recent t' r ∧
    (M.placed t t' → cls.ownStart = 0 → ∀ {K O σ c p o n}, M.shape t K O →
      M.located .here t K σ c → M.value t c v (.obj p) → σ.heap[p]? = some o →
      o.cells[0]? = some (.word n) →
      M.Moves K t' σ c fun c' => M.raw t' c' r n ∧ M.Values t t' c c' ∧
        ∀ q m, M.recent t q → M.raw t c q m → M.raw t' c' q m)
  boxInt : ∀ {raw int t v t'}, B.boxInt raw int t = .ok (v, t') → M.Same t t' ∧ M.result v ∧
    (M.placed t t' → S.classes.find Builtin.intName = .ok int → int.ownStart = 0 →
      int.fields.length = 1 →
      ∀ {K O σ c n}, M.shape t K O → M.located .here t K σ c → M.raw t c raw n →
      M.Moves K t' ((σ.log (.allocate int.tag)).add ⟨int.tag, [.word n]⟩) c fun c' =>
        M.value t' c' v (.obj σ.heap.length))
  rawWord : ∀ {n t r t'}, B.rawWord n t = .ok (r, t') → t' = t ∧ ∀ c, M.word n → M.raw t c r n
  arith : ∀ {op a b t r t'}, B.arith op a b t = .ok (r, t') → M.Same t t' ∧
    (M.placed t t' → M.loaded a → ∀ {K O σ c n m}, M.shape t K O → M.located .here t K σ c →
      M.raw t c a n → M.raw t c b m → M.Computed K t' σ c r (S.compute op n m))
  negate : ∀ {a t r t'}, B.negate a t = .ok (r, t') → M.Same t t' ∧
    (M.placed t t' → M.loaded a → ∀ {K O σ c n}, M.shape t K O → M.located .here t K σ c →
      M.raw t c a n → M.Computed K t' σ c r (S.compute .sub 0 n))
  loadTag : ∀ {obj t r t'}, B.loadTag obj t = .ok (r, t') → M.Same t t' ∧ M.loaded r ∧
    (M.placed t t' → ∀ {K O σ c p o}, M.shape t K O → M.located .here t K σ c →
      M.value t c obj (.obj p) → σ.heap[p]? = some o →
      M.Moves K t' σ c fun c' => M.raw t' c' r o.tag ∧ M.Values t t' c c')

structure Model.Control : Prop where
  newBlock : ∀ {hint t b t'}, B.newBlock hint t = .ok (b, t') → M.le t t' ∧
    (∀ {K O}, M.shape t K O → M.shape t' K (b :: O)) ∧
    ∀ {p K σ c}, M.located p t K σ c → M.located p t' K σ c
  switchTo : ∀ {b t t'}, B.switchTo b t = .ok ((), t') → M.le t t' ∧
    (∀ {K O}, M.shape t K (b :: O) → M.shape t' K O) ∧
    (M.placed t t' → ∀ {K O σ c}, M.shape t K (b :: O) → M.located (.block b) t K σ c →
      M.Turns .here K t t' σ c)
  jump : ∀ {b t t'}, B.jump b t = .ok ((), t') → M.Same t t' ∧
    (M.placed t t' → ∀ {K O σ c}, M.shape t K O → M.located .here t K σ c →
      M.Turns (.block b) K t t' σ c)
  branchRaw : ∀ {op a b yes no t t'}, B.branchRaw op a b yes no t = .ok ((), t') →
    M.Same t t' ∧
    (M.placed t t' → M.loaded a → ∀ {K O σ c n m}, M.shape t K O → M.located .here t K σ c →
      M.raw t c a n → M.raw t c b m →
      M.Turns (.block (if holds op n m then yes else no)) K t t' (σ.log (.branch (holds op n m))) c)
  branchVoid : ∀ {v yes no t t'}, B.branchVoid v yes no t = .ok ((), t') → M.Same t t' ∧
    (M.placed t t' → ∀ {K O σ c x}, M.shape t K O → M.located .here t K σ c → M.value t c v x →
      M.Turns (.block (if x = .void then yes else no)) K t t' (σ.log (.branch (x = .void))) c)
  branchSame : ∀ {a b yes no t t'}, B.branchSame a b yes no t = .ok ((), t') → M.Same t t' ∧
    (M.placed t t' → ∀ {K O σ c x y}, M.shape t K O → M.located .here t K σ c →
      M.value t c a x → M.value t c b y →
      M.Turns (.block (if x = y then yes else no)) K t t' (σ.log (.branch (x = y))) c)
  closeArm : ∀ {v join t arm t'}, B.closeArm v join t = .ok (arm, t') → M.Same t t' ∧
    M.shut t' arm ∧
    (∀ {K O a}, M.shape t K O → M.shut t a → M.apart a arm) ∧
    (M.placed t t' → ∀ {K O σ c x}, M.shape t K O → M.located .here t K σ c → M.value t c v x →
      ∃ c', M.located (.arm join arm x) t' K σ c' ∧ M.Kept K c c')
  merge : ∀ {arms join t v t'}, B.merge arms join t = .ok (v, t') → M.le t t' ∧ M.result v ∧
    (∀ {K O}, M.shape t K (join :: O) → M.shape t' K O) ∧
    (M.placed t t' → arms.Pairwise M.apart → ∀ {K O σ c arm x}, M.shape t K (join :: O) →
      arm ∈ arms → M.located (.arm join arm x) t K σ c →
      M.Moves K t' σ c fun c' => M.value t' c' v x)

structure Model.Calls : Prop where
  allocate : ∀ {cls t v t'}, B.allocate cls t = .ok (v, t') → M.Same t t' ∧
    (M.placed t t' → cls ∈ S.classes.classes → ∀ {K O σ c}, M.shape t K O →
      M.located .here t K σ c →
      M.Moves K t' ((σ.log (.allocate cls.tag)).add
          ⟨cls.tag, List.replicate cls.fields.length .unset⟩) c fun c' =>
        M.value t' c' v (.obj σ.heap.length))
  callInit : ∀ {cls obj t v t'}, B.callInit cls obj t = .ok (v, t') → M.Same t t' ∧ M.result v ∧
    (M.placed t t' → ∀ {K O σ c x}, M.shape t K O → M.located .here t K σ c → M.value t c obj x →
      M.Answered S K t' σ c (Linkage.initializer cls.name) x [] v)
  newSelfType : ∀ {t v t'}, B.newSelfType t = .ok (v, t') → M.Same t t' ∧ M.result v ∧
    (M.placed t t' → ∀ {k}, k ∈ S.classes.classes → ∀ {K O σ c o}, M.shape t K O →
      K.length < M.capacity → M.located .here t K σ c → σ.heap[S.self]? = some o → o.tag = k.tag →
      M.Answered S K t' ((σ.log (.allocate k.tag)).add
          ⟨k.tag, List.replicate k.fields.length .unset⟩) c
        (Linkage.initializer k.name) (.obj σ.heap.length) [] v)
  callEquality : ∀ {a b t r t'}, B.callEquality a b t = .ok (r, t') → M.Same t t' ∧ M.loaded r ∧
    (M.placed t t' → ∀ {K O σ c x y}, M.shape t K O → M.located .here t K σ c →
      M.value t c a x → M.value t c b y → x ≠ y →
      let σ' := σ.log (.equality x y)
      M.Moves K t' σ' c fun c' => M.raw t' c' r (if S.oracle.equal x y σ' then 1 else 0))
  callDirect : ∀ {label recv args t v t'}, B.callDirect label recv args t = .ok (v, t') →
    M.le t t' ∧ M.result v ∧
    (∀ {K O}, M.shape t ((args.map .inr).reverse ++ K) O → M.shape t' K O) ∧
    (M.placed t t' → ∀ {K O σ c r xs}, M.shape t ((args.map .inr).reverse ++ K) O →
      M.located .here t ((args.map .inr).reverse ++ K) σ c → M.value t c recv (.obj r) →
      List.Forall₂ (fun a x => M.slot c (.inr a) x) args xs →
      M.Answered S K t' σ c label (.obj r) xs v)
  callDynamic : ∀ {recv cls i args t v t'}, B.callDynamic recv cls i args t = .ok (v, t') →
    M.le t t' ∧ M.result v ∧
    (∀ {K O}, M.shape t ((args.map .inr).reverse ++ K) O → M.shape t' K O) ∧
    (M.placed t t' → ∀ {k m}, k ∈ S.classes.classes → k.methods[i]? = some m →
      ∀ {K O σ c r o xs}, M.shape t ((args.map .inr).reverse ++ K) O →
      M.located .here t ((args.map .inr).reverse ++ K) σ c → M.value t c recv (.obj r) →
      σ.heap[r]? = some o → o.tag = k.tag →
      List.Forall₂ (fun a x => M.slot c (.inr a) x) args xs →
      M.Answered S K t' σ c m.label (.obj r) xs v)
  abort : ∀ {kind file line t t'}, B.abort kind file line t = .ok ((), t') → M.Same t t' ∧
    (M.placed t t' → ∀ {K O σ c name}, M.shape t K O → M.located .here t K σ c →
      Denotes M.pool file (.str name) → M.ends (.halted (σ.log (.abort kind name line)).trace))

structure Model.Lawful : Prop extends
  M.Ordered S, M.Storage S, M.Words S, M.Control, M.Calls S

end ClassBackend.Lowering
