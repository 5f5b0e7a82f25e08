import ClassBackend.Proofs.Emission.Discipline
import ClassBackend.Proofs.Llvm.ControlFlow
import ClassBackend.Proofs.Llvm.Emission

/-! The native backend under a discipline: in every state that the lowering can reach, the finished
functions are well formed and the open one has the graph that the blocks call for. No operation
fails but where the number of a field is out of range. -/
namespace ClassBackend.Llvm

open Emission Lowering

/-- An instruction that neither ends a block nor has to begin one. -/
structure Straight (i : Instr) : Prop where
  goesOn : i.ends = false
  plain : i.incoming? = none

theorem Straight.targets {i : Instr} (h : Straight i) : i.targets = [] := by
  have := h.goesOn
  cases i <;> simp_all [Instr.ends, Instr.targets]

theorem terminator_plain {i : Instr} (h : i.ends = true) : i.incoming? = none := by
  cases i <;> simp_all [Instr.ends, Instr.incoming?]

/-- The blocks that are closed have ended, and so has the last one if no code may follow. -/
structure Shaped (b : Body) (opened : Bool) : Prop where
  closed : ∀ c ∈ b.closed.toList, Finished c.instrs.toList
  current : if opened then ∀ i ∈ b.current.instrs.toList, i.ends = false
    else Finished b.current.instrs.toList
  terminated : b.current.terminated = !opened
  late : ∀ c ∈ b.blocks, ∀ i ∈ c.instrs.toList.tail, i.incoming? = none

structure Inside (opened : Bool) (O : List Waiting) (H : List BlockName) (s : State) : Prop where
  function : ∃ f, s.function = some f ∧ Shaped f.body opened ∧
    Graph s.fresh.next O H (f.body.blocks.map Block.outline)
  done : ∀ g ∈ s.functions.toList, WellFormed g.body.blocks

section Bodies

variable {b : Body} {i : Instr} {is : List Instr} {last : Bool} {l : Label}

theorem blocks_extend : (b.extend is last).blocks = b.closed.toList ++
    [{ b.current with instrs := b.current.instrs ++ is.toArray, terminated := last }] := rfl

theorem outline_current (h : Shaped b true) :
    b.current.outline = ⟨b.current.label, [], b.current.outline.joins⟩ := by
  have still : b.current.exits = [] := by
    rw [Block.exits, List.flatMap_eq_nil_iff]
    intro i hi
    have goesOn : i.ends = false := h.current i hi
    cases i <;> simp_all [Instr.ends, Instr.targets]
  rw [Block.outline, still]

theorem outlines_extend (last : Bool) (straight : ∀ i ∈ is, Straight i) :
    (b.extend is last).blocks.map Block.outline = b.blocks.map Block.outline := by
  have exits : is.flatMap Instr.targets = [] := by
    rw [List.flatMap_eq_nil_iff]
    exact fun i hi => (straight i hi).targets
  rw [blocks_extend, Builder.blocks, List.map_append, List.map_append]
  congr 1
  simp only [List.map_cons, List.map_nil, Block.outline, Block.exits, Array.toList_append,
    List.flatMap_append, exits, List.append_nil, List.cons.injEq, Outline.mk.injEq, and_true,
    true_and]
  cases front : b.current.instrs.toList with
  | cons j js => rfl
  | nil =>
    cases is with
    | nil => rfl
    | cons i is => simp [(straight i (by simp)).plain]

theorem mem_tail_append {α : Type} {as bs : List α} {a : α} (h : a ∈ (as ++ bs).tail) :
    a ∈ as.tail ∨ a ∈ bs := by
  cases as with
  | nil => exact .inr (List.mem_of_mem_tail h)
  | cons b as => exact (List.mem_append.mp h).imp_left id

theorem late_extend (h : Shaped b true) (plain : ∀ i ∈ is, i.incoming? = none) :
    ∀ c ∈ (b.extend is last).blocks, ∀ i ∈ c.instrs.toList.tail, i.incoming? = none := by
  intro c hc i hi
  rw [blocks_extend, List.mem_append, List.mem_singleton] at hc
  rcases hc with old | rfl
  · exact h.late c (List.mem_append_left _ old) i hi
  · simp only [Array.toList_append] at hi
    rcases mem_tail_append hi with old | new
    · exact h.late b.current (List.mem_append_right _ (List.mem_singleton_self _)) i old
    · exact plain i new

theorem Shaped.extend (h : Shaped b true) (straight : ∀ i ∈ is, Straight i) :
    Shaped (b.extend is false) true where
  closed := h.closed
  current i hi := by
    simp only [Builder.extend, Array.toList_append, List.mem_append] at hi
    rcases hi with old | new
    · exact h.current i old
    · exact (straight i new).goesOn
  terminated := rfl
  late := late_extend h fun i hi => (straight i hi).plain

theorem Shaped.terminate (h : Shaped b true) (ends : i.ends = true) :
    Shaped (b.extend [i] true) false where
  closed := h.closed
  current := ⟨b.current.instrs.toList, i, by simp [Builder.extend], ends, h.current⟩
  terminated := rfl
  late := by
    refine late_extend h fun j hj => ?_
    rw [List.mem_singleton.mp hj]
    exact terminator_plain ends

theorem outlines_terminate (h : Shaped b true) (ends : i.ends = true) :
    (b.extend [i] true).blocks.map Block.outline = b.closed.toList.map Block.outline ++
      [⟨b.current.label, i.targets, b.current.outline.joins⟩] := by
  have still : b.current.exits = [] := congrArg Outline.exits (outline_current h)
  have plain : i.incoming? = none := terminator_plain ends
  rw [blocks_extend, List.map_append]
  congr 1
  unfold Block.exits at still
  simp only [List.map_cons, List.map_nil, Block.outline, Block.exits, Array.toList_append,
    List.flatMap_append, still, List.cons.injEq, Outline.mk.injEq, and_true, true_and,
    List.nil_append, List.flatMap_cons, List.flatMap_nil, List.append_nil]
  cases front : b.current.instrs.toList with
  | cons j js => rfl
  | nil => simp [plain]

theorem blocks_opened (h : Shaped b false) :
    (b.opened l).blocks = b.blocks ++ [{ label := l }] := by
  simp [Builder.blocks, Builder.opened, h.terminated]

theorem Shaped.opened (h : Shaped b false) (l : Label) : Shaped (b.opened l) true where
  closed c hc := by
    simp only [Builder.opened, h.terminated, Bool.not_false, if_true, Array.toList_push,
      List.mem_append, List.mem_singleton] at hc
    rcases hc with old | rfl
    · exact h.closed c old
    · exact h.current
  current := by simp [Builder.opened]
  terminated := rfl
  late c hc i hi := by
    rw [blocks_opened h, List.mem_append, List.mem_singleton] at hc
    rcases hc with old | rfl
    · exact h.late c old i hi
    · cases hi

theorem Shaped.begin (h : Shaped b false) (l : Label) (goesOn : i.ends = false) :
    Shaped ((b.opened l).extend [i] false) true where
  closed := (h.opened l).closed
  current := by simpa [Builder.extend, Builder.opened] using goesOn
  terminated := rfl
  late c hc j hj := by
    rw [blocks_extend, List.mem_append, List.mem_singleton] at hc
    rcases hc with old | rfl
    · exact (h.opened l).late c (List.mem_append_left _ old) j hj
    · simp [Builder.opened] at hj

theorem blocks_begin (h : Shaped b false) : ((b.opened l).extend [i] false).blocks =
    b.blocks ++ [{ label := l, instrs := #[i] }] := by
  simp [Builder.blocks, Builder.opened, Builder.extend, h.terminated]

end Bodies

/-- The only fault of the backend in the states that are reached. -/
def Overflows (f : Fault) : Prop := ∃ op, f = .overflow op

section Operations

variable {o : Bool} {O O' R : List Waiting} {H : List BlockName} {i : Instr} {v : Operand}
variable {s : State} {f : Function}

theorem body_run (there : s.function = some f) {g : Body → Except Fault Body} {b : Body}
    (run : g f.body = .ok b) :
    Gen.body g s = .ok ((), { s with function := some { f with body := b } }) := by
  simp only [Gen.body, there, run]

theorem emit_inside (straight : Straight i) :
    Emits Overflows True (Inside true O H) (Gen.emit i) anything fun _ => Inside true O H := by
  rintro s ⟨⟨f, there, shaped, graph⟩, done⟩
  have lone : ∀ j ∈ [i], Straight j := by simpa using straight
  rw [Gen.emit, body_run there (builder_emit_ok.mpr ⟨shaped.terminated, rfl⟩)]
  rw [← outlines_extend false lone] at graph
  exact ⟨trivial, trivial, ⟨_, rfl, shaped.extend lone, graph⟩, done⟩

theorem temp_inside :
    Emits Overflows True (Inside o O H) Gen.temp anything fun _ => Inside o O H := by
  rintro s ⟨⟨f, there, shaped, graph⟩, done⟩
  exact ⟨trivial, trivial, ⟨f, there, shaped, graph.mono (Nat.le_succ _)⟩, done⟩

theorem assign_inside {rhs : Rhs} (plain : ∀ t, (Instr.assign t rhs).incoming? = none) :
    Emits Overflows True (Inside true O H) (Gen.assign rhs) anything fun _ => Inside true O H := by
  refine temp_inside.then fun t _ => ?_
  refine (emit_inside ⟨rfl, plain t⟩).then fun _ _ => ?_
  exact Emits.ret trivial fun _ hs => hs

theorem fieldAddress_inside {obj : Operand} {cls : ClassLayout} {slot : Nat} :
    Emits Overflows True (Inside true O H) (Gen.fieldAddress obj cls slot) anything
      fun _ => Inside true O H := by
  unfold Gen.fieldAddress fieldIndex
  by_cases fits : headerFields + slot < indexLimit
  · rw [if_pos fits]
    exact assign_inside fun _ => rfl
  · rw [if_neg fits]
    exact fun _ _ _ => ⟨_, rfl⟩

theorem slotFor_inside :
    Emits Overflows True (Inside true O H) (Gen.slotFor v) anything fun _ => Inside true O H := by
  refine temp_inside.then fun t _ => ?_
  have slot : Emits Overflows True (Inside true O H) (Gen.body fun b => .ok (b.alloca t)) anything
      fun _ => Inside true O H := by
    rintro s ⟨⟨f, there, shaped, graph⟩, done⟩
    rw [body_run there (g := fun b => .ok (b.alloca t)) rfl]
    exact ⟨trivial, trivial, ⟨_, rfl, ⟨shaped.closed, shaped.current, shaped.terminated,
      shaped.late⟩, graph⟩, done⟩
  refine slot.then fun _ _ => ?_
  refine (emit_inside ⟨rfl, rfl⟩).then fun _ _ => ?_
  exact Emits.ret trivial fun _ hs => hs

theorem terminate_inside (ends : i.ends = true)
    (leave : ∀ {n os j}, Graph n O H (os ++ [⟨l, [], j⟩]) →
      Graph n O' H (os ++ [⟨l, i.targets, j⟩])) :
    Emits Overflows True
      (fun s => Inside true O H s ∧ ∃ f, s.function = some f ∧ f.body.current.label = l)
      (Gen.terminate i) anything fun _ => Inside false O' H := by
  rintro s ⟨⟨⟨f, there, shaped, graph⟩, done⟩, f', there', here⟩
  cases there.symm.trans there'
  rw [Gen.terminate, body_run there (builder_terminate_ok.mpr ⟨shaped.terminated, rfl⟩)]
  rw [Builder.blocks, List.map_append, List.map_singleton, outline_current shaped, here] at graph
  refine ⟨trivial, trivial, ⟨_, rfl, shaped.terminate ends, ?_⟩, done⟩
  rw [outlines_terminate shaped ends, here]
  exact leave graph

theorem leave_inside (ends : i.ends = true)
    (goes : ∀ t ∈ i.targets, ∃ b, t = .block b ∧ (⟨b, none⟩ ∈ O ∨ b ∈ H)) :
    Emits Overflows True (Inside true O H) (Gen.terminate i) anything
      fun _ => Inside false O H := by
  intro s hs
  obtain ⟨f, there, _⟩ := hs.function
  exact terminate_inside ends (fun graph => graph.leave goes) s ⟨hs, f, there, rfl⟩

theorem closeArm_inside {join : BlockName} {as : List Label} :
    Emits Overflows True (Inside true (R ++ ⟨join, some as⟩ :: O) H) (Gen.closeArm v join) anything
      fun a => Inside false (R ++ ⟨join, some (as ++ [a.2])⟩ :: O) H := by
  intro s hs
  obtain ⟨f, there, _⟩ := hs.function
  have label : Gen.currentLabel s = .ok (f.body.current.label, s) := by
    simp only [Gen.currentLabel, there]
  have rest : Emits Overflows True
      (fun s => Inside true (R ++ ⟨join, some as⟩ :: O) H s ∧
        ∃ g, s.function = some g ∧ g.body.current.label = f.body.current.label)
      (do Gen.jump join; pure (v, f.body.current.label)) anything
      fun a => Inside false (R ++ ⟨join, some (as ++ [a.2])⟩ :: O) H := by
    refine (terminate_inside rfl fun graph => graph.arm).then fun _ _ => ?_
    exact Emits.ret trivial fun _ hs => hs
  have run : Gen.closeArm v join s = (do Gen.jump join; pure (v, f.body.current.label)) s := by
    simp only [Gen.closeArm, bind, StateT.bind, Except.bind, label]
  rw [run]
  exact rest s ⟨hs, f, there, rfl⟩

theorem switchTo_inside {w : Waiting} :
    Emits Overflows True (Inside false (R ++ w :: O) H) (Gen.switchTo w.name) anything
      fun _ => Inside true (R ++ O) (w.name :: H) := by
  rintro s ⟨⟨f, there, shaped, graph⟩, done⟩
  rw [Gen.switchTo, body_run there (builder_startBlock_ok.mpr rfl)]
  refine ⟨trivial, trivial, ⟨_, rfl, shaped.opened _, ?_⟩, done⟩
  rw [blocks_opened shaped, List.map_append]
  have placed := graph.place (j := none) (by simp)
  exact placed.header (List.mem_append_right _ (List.mem_singleton_self _)) rfl rfl

theorem merge_run (there : s.function = some f) {as : List (Operand × Label)} (some_ : as ≠ [])
    (join : BlockName) :
    Gen.merge as join s = .ok (.temp ⟨s.fresh.next⟩, { s with
      fresh := ⟨s.fresh.next + 1⟩
      function := some { f with body :=
        (f.body.opened (.block join)).extend [.assign ⟨s.fresh.next⟩ (.phi as)] false } }) := by
  have opens : Gen.switchTo join s =
      .ok ((), { s with function := some { f with body := f.body.opened (.block join) } }) :=
    body_run there (builder_startBlock_ok.mpr rfl)
  have emitted := builder_emit_ok (b := f.body.opened (.block join))
    (i := .assign ⟨s.fresh.next⟩ (.phi as)) |>.mpr ⟨rfl, rfl⟩
  simp only [Gen.merge, Gen.assign, Gen.temp, Fresh.temp, Gen.emit, Gen.body, bind, StateT.bind,
    Except.bind, opens, emitted, List.isEmpty_iff, some_, if_false]
  rfl

theorem merge_inside {join : BlockName} {as : List (Operand × Label)} :
    Emits Overflows True (Inside false (R ++ ⟨join, some (as.map (·.2))⟩ :: O) H)
      (Gen.merge as join) anything fun _ => Inside true (R ++ O) H := by
  cases as with
  | nil =>
    refine (switchTo_inside (w := ⟨join, some []⟩)).then fun _ _ => ?_
    exact Emits.ret trivial fun s hs =>
      ⟨hs.function.imp fun f h => ⟨h.1, h.2.1, h.2.2.forget⟩, hs.done⟩
  | cons a as =>
    rintro s ⟨⟨f, there, shaped, graph⟩, done⟩
    rw [merge_run there (List.cons_ne_nil a as)]
    have listed := graph.arms _ (List.mem_append_right _ (List.mem_cons_self ..)) _ rfl
    have placed := (graph.mono (Nat.le_succ _)).place (j := some ((a :: as).map (·.2)))
      (by rintro ls ⟨⟩; exact listed)
    refine ⟨trivial, trivial, ⟨_, rfl, shaped.begin _ rfl, ?_⟩, done⟩
    rw [blocks_begin shaped, List.map_append]
    exact placed

theorem newBlock_inside {hint : String} (plain : plainEnd hint = true) {as : Option (List Label)}
    (no_arms : as = none ∨ as = some []) :
    Emits Overflows True (Inside o O H) (Gen.newBlock hint) anything
      fun b => Inside o (⟨b, as⟩ :: O) H := by
  rintro s ⟨⟨f, there, shaped, graph⟩, done⟩
  exact ⟨trivial, trivial, ⟨f, there, shaped, graph.name plain no_arms⟩, done⟩

def Idle (s : State) : Prop :=
  s.function = none ∧ ∀ g ∈ s.functions.toList, WellFormed g.body.blocks

theorem beginFunction_inside {label : String} {n : Nat} :
    Emits Overflows True Idle (Gen.beginFunction label n) anything fun _ => Inside true [] [] := by
  rintro s ⟨_, done⟩
  refine ⟨trivial, trivial, ⟨_, rfl, ⟨by simp [Builder.new], by simp [Builder.new], rfl, ?_⟩,
    Graph.start _⟩, done⟩
  simp [Builder.new, Builder.blocks]

theorem endFunction_idle :
    Emits Overflows True (Inside true [] H) (Gen.endFunction v) anything fun _ => Idle := by
  refine (leave_inside rfl (by simp [Instr.targets])).then fun _ _ => ?_
  rintro s ⟨⟨f, there, shaped, graph⟩, done⟩
  simp only [there]
  refine ⟨trivial, trivial, rfl, fun g hg => ?_⟩
  rw [Array.toList_push, List.mem_append, List.mem_singleton] at hg
  rcases hg with old | rfl
  · exact done g old
  · refine graph.wellFormed (fun b hb => ?_) shaped.late
    rcases List.mem_append.mp hb with closed | current
    · exact shaped.closed b closed
    · rw [List.mem_singleton.mp current]
      exact shaped.current

end Operations

def waiting (O : List (Pending backend)) : List Waiting :=
  O.map fun p => ⟨p.name, p.arms.map (·.map (·.2))⟩

def discipline : Discipline backend where
  tolerates := Overflows
  idle := Idle
  inside _ _ opened O H := Inside opened (waiting O) (H.map (·.1))
  value _ := True
  word _ := True

theorem target_waits {K : List (Slot backend)} {O : List (Pending backend)}
    {H : List (BlockName × List (Slot backend))} {b : BlockName} (h : Target K O H b) :
    ⟨b, none⟩ ∈ waiting O ∨ b ∈ H.map (·.1) := by
  rcases h with waits | header
  · exact .inl (List.mem_map.mpr ⟨_, waits, rfl⟩)
  · exact .inr (List.mem_map.mpr ⟨_, header, rfl⟩)

theorem discipline_frames : discipline.Frames where
  start := ⟨rfl, by simp⟩
  beginFunction := beginFunction_inside
  formal _ := slotFor_inside
  endFunction := endFunction_idle
  allocLocal := slotFor_inside
  freeLocal := Emits.ret trivial fun _ hs => hs
  preserve := Emits.ret trivial fun _ hs => hs
  restore := Emits.ret trivial fun _ hs => hs
  loadLocal _ := assign_inside fun _ => rfl
  storeLocal _ := emit_inside ⟨rfl, rfl⟩

theorem loadTag_inside {obj : Operand} {O : List Waiting} {H : List BlockName} :
    Emits Overflows True (Inside true O H) (Gen.loadTag obj) anything fun _ => Inside true O H :=
  (assign_inside fun _ => rfl).then fun _ _ => assign_inside fun _ => rfl

theorem discipline_pieces : discipline.Pieces where
  self := trivial
  void := trivial
  constant := Emits.ret trivial fun _ hs => hs
  loadField _ _ _ _ _ := fieldAddress_inside.then fun _ _ => assign_inside fun _ => rfl
  storeField _ _ _ _ _ := fieldAddress_inside.then fun _ _ => emit_inside ⟨rfl, rfl⟩
  storeNative {_ _ _ kind} _ _ _ _ _ := by
    refine fieldAddress_inside.then fun _ _ => ?_
    cases kind <;> exact emit_inside ⟨rfl, rfl⟩
  writeBarrier _ _ _ _ _ := fieldAddress_inside.then fun _ _ => emit_inside ⟨rfl, rfl⟩
  unbox _ _ _ _ _ := fieldAddress_inside.then fun _ _ => assign_inside fun _ => rfl
  boxInt := by
    refine (assign_inside fun _ => rfl).then fun _ _ => ?_
    refine fieldAddress_inside.then fun _ _ => ?_
    refine (emit_inside ⟨rfl, rfl⟩).then fun _ _ => ?_
    exact Emits.ret trivial fun _ hs => hs
  rawWord _ _ _ _ _ := Emits.ret trivial fun _ hs => hs
  arith := assign_inside fun _ => rfl
  negate := assign_inside fun _ => rfl
  loadTag _ _ _ _ _ := loadTag_inside
  falsity := trivial
  truth := trivial

theorem branchOn_inside {op : Relop} {ty : Ty} {a b : Operand} {yes no : BlockName}
    {O : List Waiting} {H : List BlockName} (hy : ⟨yes, none⟩ ∈ O ∨ yes ∈ H)
    (hn : ⟨no, none⟩ ∈ O ∨ no ∈ H) :
    Emits Overflows True (Inside true O H) (Gen.branchOn op ty a b yes no) anything
      fun _ => Inside false O H := by
  refine (assign_inside fun _ => rfl).then fun c _ => ?_
  refine leave_inside rfl fun t ht => ?_
  rcases List.mem_cons.mp ht with rfl | ht
  · exact ⟨yes, rfl, hy⟩
  · exact ⟨no, List.mem_singleton.mp ht, hn⟩

theorem waiting_middle (R O : List (Pending backend)) (p : Pending backend) :
    waiting (R ++ p :: O) =
      waiting R ++ ⟨p.name, p.arms.map (·.map (·.2))⟩ :: waiting O := by
  simp [waiting]

theorem waiting_append (R O : List (Pending backend)) :
    waiting (R ++ O) = waiting R ++ waiting O := List.map_append

theorem discipline_blocks : discipline.Blocks where
  newBlock plain arms := by
    simp only [discipline, waiting, List.map_cons]
    rcases arms with rfl | rfl
    · exact newBlock_inside plain (.inl rfl)
    · exact newBlock_inside plain (.inr rfl)
  switchTo {b R F K O H} := by
    simp only [discipline, waiting_append]
    exact switchTo_inside
  jump target := leave_inside rfl fun t ht => by
    rw [List.mem_singleton.mp ht]
    exact ⟨_, rfl, target_waits target⟩
  branchRaw hy hn := branchOn_inside (target_waits hy) (target_waits hn)
  branchVoid hy hn := branchOn_inside (target_waits hy) (target_waits hn)
  branchSame hy hn := branchOn_inside (target_waits hy) (target_waits hn)
  closeArm {v join arms R F K O H} := by
    simp only [discipline, waiting_middle, Option.map_some, List.map_append, List.map_singleton]
    exact closeArm_inside
  merge {join arms R F K O H} := by
    simp only [discipline, waiting_append]
    exact merge_inside
  forget hs := ⟨hs.function.imp fun f h => ⟨h.1, h.2.1, h.2.2.forget⟩, hs.done⟩

theorem classElement_inside {row : Operand} {index : Nat} {ty : Ty} {O : List Waiting}
    {H : List BlockName} : Emits Overflows True (Inside true O H) (Gen.classElement row index ty)
      anything fun _ => Inside true O H :=
  (assign_inside fun _ => rfl).then fun _ _ => assign_inside fun _ => rfl

theorem discipline_calls : discipline.Calls where
  allocate := assign_inside fun _ => rfl
  callInit := assign_inside fun _ => rfl
  newSelfType := by
    intro F K O H
    refine loadTag_inside.then fun _ _ => ?_
    refine (assign_inside fun _ => rfl).then fun _ _ => ?_
    refine classElement_inside.then fun _ _ => ?_
    refine classElement_inside.then fun _ _ => ?_
    refine classElement_inside.then fun _ _ => ?_
    refine (assign_inside fun _ => rfl).then fun _ _ => ?_
    exact assign_inside fun _ => rfl
  callEquality _ _ _ _ _ _ := assign_inside fun _ => rfl
  callDirect := assign_inside fun _ => rfl
  callDynamic := by
    refine (assign_inside fun _ => rfl).then fun _ _ => ?_
    refine (assign_inside fun _ => rfl).then fun _ _ => ?_
    refine (assign_inside fun _ => rfl).then fun _ _ => ?_
    refine (assign_inside fun _ => rfl).then fun _ _ => ?_
    exact assign_inside fun _ => rfl
  abort := by
    refine (emit_inside ⟨rfl, rfl⟩).then fun _ _ => ?_
    exact leave_inside rfl (by simp [Instr.targets])

theorem discipline_lawful : discipline.Lawful where
  toFrames := discipline_frames
  toPieces := discipline_pieces
  toBlocks := discipline_blocks
  toCalls := discipline_calls

end ClassBackend.Llvm
