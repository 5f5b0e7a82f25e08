import ClassBackend.Proofs.Account.Unit

/-! What holds of the pool throughout a unit. No operation of a backend touches the pool, so the
account is the same for all of them. -/
namespace ClassBackend

open Lowering

namespace Pool

/-- Every value is there once, and the length of every text with it. -/
structure Tidy (p : Pool) : Prop where
  measured : p.Measured
  distinct : p.Distinct

theorem tidy_empty : Tidy {} := ⟨by simp [Measured], ⟨List.nodup_nil, List.nodup_nil⟩⟩

end Pool

namespace Account

variable {B : Backend} {α : Type}

/-- The account of a tidy pool. All values may be used everywhere. -/
@[reducible] def pooling (B : Backend) : Account B where
  World := Unit
  le _ _ := True
  later _ _ := True
  idle _ p _ := p.Tidy
  inside _ p _ := p.Tidy
  shut _ p _ := p.Tidy
  frame _ _ _ := True
  const _ _ := True
  value _ _ := True
  raw _ _ := True
  slot _ _ := True
  saved _ _ := True
  entered _ _ _ := True
  arm _ _ _ := True
  cls _ := True
  label _ := True

section Laws

variable {u w : Unit} {x : Emit B.State α}

theorem pooling_keeps : (pooling B).Keeps w x fun _ _ => True :=
  fun _ _ _ _ there _ => ⟨w, trivial, there, trivial⟩

theorem pooling_shuts : (pooling B).Shuts w x fun _ _ => True :=
  fun _ _ _ _ there _ => ⟨w, trivial, there, trivial⟩

theorem pooling_opens : (pooling B).Opens w u x fun _ _ => True :=
  fun _ _ _ _ there _ => ⟨w, trivial, trivial, there, trivial⟩

theorem pooling_lawful : (pooling B).Lawful where
  refl _ := trivial
  trans _ _ := trivial
  later_trans _ _ := trivial
  later _ := trivial
  const _ _ := trivial
  value _ _ := trivial
  raw _ _ := trivial
  slot _ _ := trivial
  saved _ _ := trivial
  frame _ _ := trivial
  entered _ _ := trivial
  arm _ _ := trivial
  self := trivial
  void := trivial
  bool := trivial
  pool there _ measured distinct :=
    ⟨(), trivial, ⟨measured there.measured, distinct there.distinct⟩, fun _ _ _ => trivial⟩
  constant _ := pooling_keeps
  allocLocal _ := pooling_keeps
  freeLocal _ := pooling_keeps
  loadLocal _ := pooling_keeps
  storeLocal _ _ := pooling_keeps
  loadField _ _ := pooling_keeps
  storeField _ _ _ := pooling_keeps
  storeNative _ _ := pooling_keeps
  writeBarrier _ _ := pooling_keeps
  preserve _ := pooling_keeps
  restore _ := pooling_keeps
  unbox _ _ := pooling_keeps
  boxInt _ _ := pooling_keeps
  rawWord := pooling_keeps
  arith _ _ := pooling_keeps
  negate _ := pooling_keeps
  loadTag _ := pooling_keeps
  newBlock _ _ := pooling_keeps
  nextBlock _ _ there _ := ⟨(), trivial, there, trivial⟩
  switchTo _ := pooling_opens
  jump _ _ := pooling_shuts
  branchRaw _ _ _ _ _ _ := pooling_shuts
  branchVoid _ _ _ _ _ := pooling_shuts
  branchSame _ _ _ _ _ _ := pooling_shuts
  closeArm _ _ _ := pooling_shuts
  merge _ _ := pooling_opens
  abort _ := pooling_shuts
  allocate _ := pooling_keeps
  callInit _ _ := pooling_keeps
  newSelfType := pooling_keeps
  callEquality _ _ := pooling_keeps
  callDirect _ _ _ := pooling_keeps
  callDynamic _ _ _ := pooling_keeps

theorem pooling_framed : (pooling B).Framed where
  start := Pool.tidy_empty
  beginFunction there _ := ⟨(), there, trivial⟩
  formal _ _ := pooling_keeps
  endFunction there _ _ _ := there

theorem pooling_knows (cx : Context) : (pooling B).Knows cx :=
  ⟨fun _ => trivial, trivial, fun _ _ => trivial⟩

end Laws

end Account

theorem emitUnit_tidy {B : Backend} {p : Program} {t : ClassTable}
    (h : ClassTable.build p = .ok t) {s : Session B} (emitted : emitUnit B t = .ok s) :
    s.pool.Tidy :=
  Account.emitUnit_idle Account.pooling_framed Account.pooling_lawful
    (fun k _ => Account.pooling_knows ⟨t, k⟩) (Resolved.emitUnit_of_ok h emitted)

end ClassBackend
