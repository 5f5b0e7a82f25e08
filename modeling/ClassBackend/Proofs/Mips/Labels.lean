import ClassBackend.Proofs.Emission.Unit
import ClassBackend.Proofs.Mips.Appending

/-! Where the labels of the code stand: the name of a block at one place, in the function that
branches there, and the symbol of a function at its head. -/
namespace ClassBackend.Mips

open Emission Lowering

/-- A function: its symbol, then code with no other symbol, and no branch leaves it. -/
structure Contained (f : List Instr) : Prop where
  starts : ∃ s body, f = .label (.symbol s) :: body ∧ ∀ l, .label l ∈ body → ∃ b, l = .block b
  lands : ∀ i ∈ f, ∀ l ∈ i.targets, .label l ∈ f

def Label.block? : Label → Option BlockName
  | .symbol _ => none
  | .block b => some b

def placed (is : List Instr) : List BlockName := (codeLabels is).filterMap Label.block?

/-- A body in which the blocks `W` have no place yet and the blocks `H` have one. -/
structure Underway (W H : List BlockName) (body : List Instr) : Prop where
  blocks : ∀ l, .label l ∈ body → ∃ b, l = .block b
  lands : ∀ i ∈ body, ∀ l ∈ i.targets, ∃ b, l = .block b ∧ (b ∈ W ∨ .label l ∈ body)
  headers : ∀ b ∈ H, .label (.block b) ∈ body

structure Distinct (W : List BlockName) (s : State) : Prop where
  nodup : (W ++ placed s.code.toList).Nodup
  below : ∀ b ∈ W ++ placed s.code.toList, b.id < s.fresh.next

structure Between (s : State) : Prop where
  distinct : Distinct [] s
  code : ∃ fs : List (List Instr), s.code.toList = fs.flatten ∧ ∀ f ∈ fs, Contained f

structure Within (W H : List BlockName) (s : State) : Prop where
  distinct : Distinct W s
  code : ∃ (fs : List (List Instr)) (name : String) (body : List Instr),
    s.code.toList = fs.flatten ++ .label (.symbol name) :: body ∧
    (∀ f ∈ fs, Contained f) ∧ Underway W H body

/-- A place inside of the function that may be branched to. -/
def Inner (W H : List BlockName) (l : Label) : Prop := ∃ b, l = .block b ∧ (b ∈ W ∨ b ∈ H)

abbrev anySymbol : String → Prop := fun _ => True

variable {W H R O : List BlockName} {s s' : State} {is body : List Instr} {b : BlockName}
variable {α : Type} {m : Asm α} {P : String → Prop} {T : Label → Prop}

section Steps

theorem placed_append (is js : List Instr) : placed (is ++ js) = placed is ++ placed js := by
  rw [placed, codeLabels_append, List.filterMap_append]
  rfl

theorem placed_silent (h : ∀ i ∈ is, Silent P T i) : placed is = [] := by
  rw [placed, codeLabels_silent h]
  rfl

theorem Distinct.append (h : Distinct W s) (fresh : s'.fresh = s.fresh)
    (code : s'.code.toList = s.code.toList ++ is) (none : placed is = []) : Distinct W s' := by
  constructor
  · rw [code, placed_append, none, List.append_nil]
    exact h.nodup
  · rw [code, placed_append, none, List.append_nil, fresh]
    exact h.below

theorem Underway.append (h : Underway W H body) (silent : ∀ i ∈ is, Silent P (Inner W H) i) :
    Underway W H (body ++ is) where
  blocks l hl := by
    rcases List.mem_append.mp hl with old | new
    · exact h.blocks l old
    · cases (silent _ new).label
  lands i hi l hl := by
    rcases List.mem_append.mp hi with old | new
    · obtain ⟨b, same, there⟩ := h.lands i old l hl
      exact ⟨b, same, there.imp_right (List.mem_append_left _)⟩
    · obtain ⟨b, rfl, there⟩ := (silent i new).targets l hl
      exact ⟨b, rfl, there.imp_right fun hb => List.mem_append_left _ (h.headers b hb)⟩
  headers b hb := List.mem_append_left _ (h.headers b hb)

theorem Within.append (h : Within W H s) (fresh : s'.fresh = s.fresh)
    (code : s'.code.toList = s.code.toList ++ is) (silent : ∀ i ∈ is, Silent P (Inner W H) i) :
    Within W H s' := by
  refine ⟨h.distinct.append fresh code (placed_silent silent), ?_⟩
  obtain ⟨fs, name, body, whole, done, underway⟩ := h.code
  exact ⟨fs, name, body ++ is, by rw [code, whole, List.append_assoc, List.cons_append], done,
    underway.append silent⟩

theorem Underway.place (h : Underway (R ++ b :: O) H body) :
    Underway (R ++ O) (b :: H) (body ++ [.label (.block b)]) where
  blocks l hl := by
    rcases List.mem_append.mp hl with old | new
    · exact h.blocks l old
    · cases List.mem_singleton.mp new
      exact ⟨b, rfl⟩
  lands i hi l hl := by
    rcases List.mem_append.mp hi with old | new
    · obtain ⟨c, rfl, waits | there⟩ := h.lands i old l hl
      · rcases List.mem_append.mp waits with front | back
        · exact ⟨c, rfl, .inl (List.mem_append_left _ front)⟩
        · rcases List.mem_cons.mp back with rfl | back
          · exact ⟨c, rfl, .inr (by simp)⟩
          · exact ⟨c, rfl, .inl (List.mem_append_right _ back)⟩
      · exact ⟨c, rfl, .inr (List.mem_append_left _ there)⟩
    · cases List.mem_singleton.mp new
      cases hl
  headers c hc := by
    rcases List.mem_cons.mp hc with rfl | old
    · simp
    · exact List.mem_append_left _ (h.headers c old)

theorem Distinct.place (h : Distinct (R ++ b :: O) s) :
    Distinct (R ++ O) (s.add [.label (.block b)]) := by
  have perm : (R ++ O ++ placed (s.add [.label (.block b)]).code.toList).Perm
      (R ++ b :: O ++ placed s.code.toList) := by
    rw [State.add_code, placed_append, ← List.append_assoc]
    refine (List.perm_append_singleton b _).trans ?_
    rw [List.append_assoc, List.append_assoc]
    exact List.perm_middle.symm
  exact ⟨perm.nodup_iff.mpr h.nodup, fun c hc => h.below c (perm.mem_iff.mp hc)⟩

theorem Within.place (h : Within (R ++ b :: O) H s) :
    Within (R ++ O) (b :: H) (s.add [.label (.block b)]) := by
  refine ⟨h.distinct.place, ?_⟩
  obtain ⟨fs, name, body, whole, done, underway⟩ := h.code
  exact ⟨fs, name, _, by rw [State.add_code, whole, List.append_assoc, List.cons_append], done,
    underway.place⟩

theorem Within.draw (h : Within W H s) (hint : String) :
    Within (⟨hint, s.fresh.next⟩ :: W) H { s with fresh := ⟨s.fresh.next + 1⟩ } := by
  obtain ⟨fs, name, body, whole, done, underway⟩ := h.code
  refine ⟨⟨List.nodup_cons.mpr ⟨fun mem => Nat.lt_irrefl _ (h.distinct.below _ mem), ?_⟩, ?_⟩,
    fs, name, body, whole, done, underway.blocks, fun i hi l hl => ?_, underway.headers⟩
  · exact h.distinct.nodup
  · intro c hc
    rcases List.mem_cons.mp hc with rfl | old
    · exact Nat.lt_succ_self _
    · exact Nat.lt_succ_of_lt (h.distinct.below c old)
  · obtain ⟨c, same, there⟩ := underway.lands i hi l hl
    exact ⟨c, same, there.imp_left (List.mem_cons_of_mem _)⟩

theorem Between.begin (h : Between s) (name : String) :
    Within [] [] (s.add [.label (.symbol name)]) := by
  obtain ⟨fs, whole, done⟩ := h.code
  refine ⟨h.distinct.append rfl (State.add_code ..) rfl, fs, name, [], ?_, done, ?_⟩
  · rw [State.add_code, whole]
  · constructor <;> simp

theorem Within.finish (h : Within [] H s) : Between s := by
  obtain ⟨fs, name, body, whole, done, underway⟩ := h.code
  refine ⟨h.distinct, fs ++ [.label (.symbol name) :: body], by simp [whole], fun f hf => ?_⟩
  rcases List.mem_append.mp hf with old | new
  · exact done f old
  · cases List.mem_singleton.mp new
    refine ⟨⟨name, body, rfl, underway.blocks⟩, fun i hi l hl => ?_⟩
    rcases List.mem_cons.mp hi with rfl | inside
    · cases hl
    · obtain ⟨b, rfl, none | there⟩ := underway.lands i inside l hl
      · cases none
      · exact List.mem_cons_of_mem _ there

end Steps

section Laws

attribute [local irreducible] Word.low Word.fits

/-- Every fault is tolerated: this is about the code that is emitted. -/
def labelling : Discipline backend where
  tolerates _ := True
  idle := Between
  inside _ _ _ O H := Within (O.map (·.name)) (H.map Prod.fst)
  value _ := True
  word _ := True

theorem emits_of_ok {pre : State → Prop} {post : α → State → Prop}
    (h : ∀ s a s', pre s → m s = .ok (a, s') → post a s') :
    Emits labelling.tolerates True pre m anything post := by
  intro s hs
  cases run : m s with
  | error e => exact fun _ => trivial
  | ok r => exact ⟨trivial, trivial, h s r.1 r.2 hs run⟩

theorem Appends.within (h : Appends anySymbol (Inner W H) m) :
    Emits labelling.tolerates True (Within W H) m anything fun _ => Within W H :=
  emits_of_ok fun s a s' hs run => by
    obtain ⟨fresh, is, code, silent⟩ := h s a s' run
    exact hs.append fresh code silent

theorem common_any : Common anySymbol := ⟨fun _ => trivial, fun _ => trivial, trivial⟩

theorem inner_target {K : List (Slot backend)} {O : List (Pending backend)}
    {H : List (BlockName × List (Slot backend))} (h : Target K O H b) :
    Inner (O.map (·.name)) (H.map Prod.fst) (.block b) :=
  ⟨b, rfl, h.imp (fun waits => List.mem_map.mpr ⟨_, waits, rfl⟩)
    fun header => List.mem_map.mpr ⟨_, header, rfl⟩⟩

theorem label_within : Emits labelling.tolerates True (Within (R ++ b :: O) H)
    (Asm.switchTo b) anything fun _ => Within (R ++ O) (b :: H) :=
  emits_of_ok fun s a s' hs run => by
    rw [emit_ok.mp run]
    exact hs.place

theorem Within.forget (h : Within W (b :: H) s) : Within W H s := by
  obtain ⟨fs, name, body, whole, done, underway⟩ := h.code
  exact ⟨h.distinct, fs, name, body, whole, done, underway.blocks, underway.lands,
    fun c hc => underway.headers c (List.mem_cons_of_mem _ hc)⟩

theorem labelling_frames : labelling.Frames where
  start := ⟨⟨by simp [placed, codeLabels], by simp [placed, codeLabels]⟩, [], by simp⟩
  beginFunction {label n} := emits_of_ok fun s a s' hs run => by
    obtain ⟨_, s₁, labelled, run⟩ := bind_ok.mp run
    rw [emit_ok.mp labelled] at run
    obtain ⟨fresh, is, code, silent⟩ := Appends.prologue n _ _ _ run
    exact (hs.begin label).append (P := anySymbol) fresh code silent
  formal _ := (Appends.formal _).within
  endFunction {v n _ _} := emits_of_ok fun s a s' hs run => by
    obtain ⟨fresh, is, code, silent⟩ := Appends.endFunction v n _ _ _ run
    exact (hs.append (P := anySymbol) fresh code silent).finish
  allocLocal := (Appends.push _).within
  freeLocal := (Appends.discard _).within
  preserve := (Appends.push _).within
  restore := (Appends.restore _).within
  loadLocal _ := (Appends.loadLocal _).within
  storeLocal _ := (Appends.plain rfl rfl rfl rfl).within

theorem labelling_pieces : labelling.Pieces where
  self := trivial
  void := trivial
  constant := (Appends.constant trivial).within
  loadField _ _ _ _ _ := (Appends.loadField _ _).within
  storeField _ _ _ _ _ := (Appends.storeField _ _ _).within
  storeNative _ _ _ _ _ := (Appends.storeField _ _ _).within
  writeBarrier _ _ _ _ _ := (Appends.writeBarrier common_any _ _).within
  unbox _ _ _ _ _ := (Appends.unbox _ _).within
  boxInt := (Appends.boxInt common_any _ trivial).within
  rawWord _ _ _ _ _ := (Appends.ofExcept _).within
  arith := (Appends.arith _ _ _).within
  negate := (Appends.negate _).within
  loadTag _ _ _ _ _ := (Appends.loadTag _).within
  falsity := trivial
  truth := trivial

theorem labelling_blocks : labelling.Blocks where
  newBlock {hint _ _ _ _ _ _} _ _ := emits_of_ok fun s a s' hs run => by
    cases run
    exact hs.draw hint
  switchTo {b R F K O H} := by
    simp only [labelling, List.map_append, List.map_cons]
    exact label_within
  jump h := (Appends.jump (inner_target h)).within
  branchRaw hy hn := (Appends.branchRaw _ _ _ (inner_target hy) (inner_target hn)).within
  branchVoid hy hn := (Appends.branchRaw _ _ _ (inner_target hy) (inner_target hn)).within
  branchSame hy hn := (Appends.branchRaw _ _ _ (inner_target hy) (inner_target hn)).within
  closeArm {v join arms R F K O H} := by
    simp only [labelling, List.map_append, List.map_cons]
    exact (Appends.closeArm _ ⟨join, rfl, .inl (by simp)⟩).within
  merge {join arms R F K O H} := by
    simp only [labelling, List.map_append, List.map_cons]
    refine label_within.then fun _ _ => .ret trivial fun _ hs => hs.forget
  forget h := h.forget

theorem labelling_calls : labelling.Calls where
  allocate := (Appends.allocate common_any trivial).within
  callInit := (Appends.callInit trivial _).within
  newSelfType _ _ _ _ := (Appends.newSelfType common_any).within
  callEquality _ _ _ _ _ _ := (Appends.callEquality common_any _ _).within
  callDirect := (Appends.callDirect trivial _ _).within
  callDynamic := (Appends.callDynamic _ _ _).within
  abort := (Appends.abort common_any _ _ trivial).within

theorem labelling_lawful : labelling.Lawful where
  toFrames := labelling_frames
  toPieces := labelling_pieces
  toBlocks := labelling_blocks
  toCalls := labelling_calls

end Laws

/-- The code of a unit is a row of functions, and no block has two places in it. -/
theorem emitUnit_labelled {q : Program} {t : ClassTable} {s : Session backend}
    (built : ClassTable.build q.withBuiltins = .ok t) (h : emitUnit backend t = .ok s) :
    Between s.target := by
  have settled := emitUnit_settles labelling_lawful built fun _ _ => ⟨trivial, trivial⟩
  rw [h] at settled
  exact settled.2.2

end ClassBackend.Mips
