import ClassBackend.Compile
import ClassBackend.Proofs.Llvm.References
import ClassBackend.Proofs.Mips.Closed

/-! What the blocks of the native backend are made for: the account of their names, which are all
that it looks at. -/
namespace ClassBackend.Llvm

open Lowering

/-- The blocks of the body were made for what the lowering makes blocks for. -/
def Hinted (b : Body) : Prop := ∀ c ∈ b.blocks, ∀ n, c.label = .block n → n.hint ∈ blockHints

/-- So were those of all functions, the open one included. -/
def AllHinted (s : State) : Prop := ∀ f ∈ s.functions.toList ++ s.function.toList, Hinted f.body

variable {s s' : State} {b : Body} {i : Instr} {v : Operand} {x : Unit} {c : BlockName}

section Growth

theorem Hinted.extend (h : Hinted b) (last : Bool) : Hinted (b.extend [i] last) := by
  intro d hd n named
  rcases List.mem_append.mp hd with closed | current
  · exact h d (List.mem_append_left _ closed) n named
  · cases List.mem_singleton.mp current
    exact h b.current (List.mem_append_right _ (List.mem_singleton_self _)) n named

theorem Hinted.opened (h : Hinted b) (hinted : c.hint ∈ blockHints) :
    Hinted (b.opened (.block c)) := by
  intro d hd n named
  rcases List.mem_append.mp hd with closed | current
  · rw [Builder.opened, Array.toList_push, List.mem_append, List.mem_singleton] at closed
    rcases closed with old | rfl
    · exact h d (List.mem_append_left _ old) n named
    · refine h b.current (List.mem_append_right _ (List.mem_singleton_self _)) n ?_
      split at named <;> exact named
  · cases List.mem_singleton.mp current
    cases named
    exact hinted

theorem AllHinted.step (h : AllHinted s) {g : Body → Except Fault Body}
    (run : Gen.body g s = .ok (x, s')) (keeps : ∀ b b', g b = .ok b' → Hinted b → Hinted b') :
    AllHinted s' := by
  obtain ⟨f, b, there, changed, rfl⟩ := body_inv run
  intro g hg
  rcases List.mem_append.mp hg with done | current
  · exact h g (List.mem_append_left _ done)
  · cases List.mem_singleton.mp current
    exact keeps _ _ changed (h f (by simp [there]))

theorem AllHinted.fresh (h : AllHinted s) (f : Fresh) : AllHinted { s with fresh := f } := h

theorem emit_hinted (h : AllHinted s) (run : Gen.emit i s = .ok (x, s')) : AllHinted s' :=
  h.step run fun _ _ emitted old => by
    rw [(builder_emit_ok.mp emitted).2]
    exact old.extend false

theorem terminate_hinted (h : AllHinted s) (run : Gen.terminate i s = .ok (x, s')) :
    AllHinted s' :=
  h.step run fun _ _ emitted old => by
    rw [(builder_terminate_ok.mp emitted).2]
    exact old.extend true

theorem assign_hinted {rhs : Rhs} (h : AllHinted s) (run : Gen.assign rhs s = .ok (v, s')) :
    AllHinted s' := by
  simp only [Gen.assign, bind_ok, pure_ok] at run
  obtain ⟨r, s₁, drawn, _, s₂, emitted, rfl, rfl⟩ := run
  cases drawn
  exact emit_hinted (h.fresh _) emitted

theorem slotFor_hinted {a : Operand} (h : AllHinted s) (run : Gen.slotFor v s = .ok (a, s')) :
    AllHinted s' := by
  simp only [Gen.slotFor, bind_ok, pure_ok] at run
  obtain ⟨r, s₁, drawn, _, s₂, placed, _, s₃, stored, rfl, rfl⟩ := run
  cases drawn
  have slot : AllHinted s₂ :=
    (h.fresh _).step placed fun _ _ made old => by cases made; exact old
  exact emit_hinted slot stored

theorem switchTo_hinted (h : AllHinted s) (hinted : c.hint ∈ blockHints)
    (run : Gen.switchTo c s = .ok (x, s')) : AllHinted s' :=
  h.step run fun _ _ opened old => by
    rw [builder_startBlock_ok.mp opened]
    exact old.opened hinted

theorem closeArm_hinted {a : Operand × Label} (h : AllHinted s)
    (run : Gen.closeArm v c s = .ok (a, s')) : AllHinted s' := by
  obtain ⟨left, _⟩ := closeArm_ok run
  exact terminate_hinted h left

theorem merge_hinted {arms : List (Operand × Label)} (h : AllHinted s)
    (hinted : c.hint ∈ blockHints) (run : Gen.merge arms c s = .ok (v, s')) : AllHinted s' := by
  obtain ⟨_, s₁, placed, rest⟩ := bind_ok.mp run
  have opened := switchTo_hinted h hinted placed
  by_cases none : arms.isEmpty = true
  · rw [if_pos none] at rest
    obtain ⟨rfl, rfl⟩ := pure_ok.mp rest
    exact opened
  · rw [if_neg none] at rest
    exact assign_hinted opened rest

end Growth

@[reducible] def hinting : Ledger where
  World := Unit
  le _ _ := True
  later _ _ := True
  idle _ _ s := s.function = none ∧ AllHinted s
  inside _ _ := AllHinted
  shut _ _ := AllHinted
  frame _ _ _ := True
  const _ _ := True
  has _ _ := True
  struct _ := True
  entered _ b _ := b.hint ∈ blockHints
  arm _ _ _ := True
  cls _ := True
  label _ := True

theorem hinting_balanced : hinting.Balanced where
  refl _ := trivial
  trans _ _ := trivial
  later_trans _ _ := trivial
  later _ := trivial
  const _ _ := trivial
  value _ _ := trivial
  raw _ _ := trivial
  slot _ _ := trivial
  saved _ _ := trivial
  frame _ _ := trivial
  entered _ h := h
  arm _ _ := trivial
  self := trivial
  null := trivial
  int := trivial
  literal _ := trivial
  bool := trivial
  routine _ := trivial
  objects := trivial
  table _ := trivial
  initializer _ := trivial
  method _ := trivial
  own _ := trivial
  header := trivial
  row := trivial
  pool there _ _ := ⟨(), trivial, there, fun _ _ _ => trivial⟩
  emit _ _ _ _ _ := fun _ _ _ _ there run => ⟨(), trivial, emit_hinted there run, trivial⟩
  assign _ _ _ := fun _ _ _ _ there run => ⟨(), trivial, assign_hinted there run, trivial⟩
  slotFor _ := fun _ _ _ _ there run => ⟨(), trivial, slotFor_hinted there run, trivial⟩
  terminate _ _ _ _ _ := fun _ _ _ _ there run =>
    ⟨(), trivial, terminate_hinted there run, trivial⟩
  newBlock hinted _ := fun _ _ _ _ there run => by
    cases run
    exact ⟨(), trivial, there, hinted⟩
  nextBlock hinted _ there run := by
    cases run
    exact ⟨(), trivial, there, hinted⟩
  switchTo hinted := fun _ _ _ _ there run =>
    ⟨(), trivial, trivial, switchTo_hinted there hinted run, trivial⟩
  closeArm _ _ _ := fun _ _ _ _ there run => ⟨(), trivial, closeArm_hinted there run, trivial⟩
  merge hinted _ := fun _ _ _ _ there run =>
    ⟨(), trivial, trivial, merge_hinted there hinted run, trivial⟩

theorem hinting_framed : hinting.account.Framed where
  start := ⟨rfl, by simp [AllHinted]⟩
  beginFunction {L p s s' label n} there run := by
    obtain ⟨idle, hinted⟩ := there
    cases run
    refine ⟨(), fun f hf => ?_, trivial⟩
    rcases List.mem_append.mp hf with done | new
    · exact hinted f (List.mem_append_left _ done)
    · cases List.mem_singleton.mp new
      simp [Hinted, Builder.new, Builder.blocks, CodeText.entry]
  formal _ _ := hinting_balanced.slotFor trivial
  endFunction there _ _ run := by
    obtain ⟨_, s₁, ended, rest⟩ := bind_ok.mp run
    have hinted := terminate_hinted there ended
    cases open_ : s₁.function with
    | none => simp [open_] at rest
    | some f =>
      simp only [open_, Except.ok.injEq, Prod.mk.injEq, true_and] at rest
      subst rest
      exact ⟨rfl, by simpa [AllHinted, open_] using hinted⟩

theorem emitUnit_hinted {t : ClassTable} {p : Pool} (h : Resolved.emitUnit backend t = .ok (p, s)) :
    ∀ f ∈ s.functions.toList, Hinted f.body := by
  have idle := Account.emitUnit_idle hinting_framed hinting_balanced.lawful
    (fun _ _ => ⟨fun _ => trivial, trivial, fun _ _ => trivial⟩) h
  exact fun f hf => idle.2 f (List.mem_append_left _ hf)

end ClassBackend.Llvm

/-! Names from one generator. A name is a hint and a number, and numbers count up; where no hint
ends in a digit, the number can be read off the name again, so that no two names are alike. -/
namespace ClassBackend

inductive NameRequest where
  | temp
  | block (hint : String)

def NameRequest.stem : NameRequest → String
  | .temp => "t"
  | .block hint => hint

namespace Fresh

/-- The names that are given out, one after the other, as they are printed. -/
def names (f : Fresh) : List NameRequest → List String
  | [] => []
  | .temp :: rs => f.temp.1.text :: f.temp.2.names rs
  | .block hint :: rs => (f.block hint).1.text :: (f.block hint).2.names rs

variable {f : Fresh} {r : NameRequest} {rs : List NameRequest} {x : String}

theorem names_cons : f.names (r :: rs) = (r.stem ++ toString f.next) :: names ⟨f.next + 1⟩ rs := by
  cases r <;> rfl

theorem exists_request (h : x ∈ f.names rs) :
    ∃ r ∈ rs, ∃ n, f.next ≤ n ∧ x = r.stem ++ toString n := by
  induction rs generalizing f with
  | nil => cases h
  | cons r rs ih =>
    rw [names_cons] at h
    rcases List.mem_cons.mp h with rfl | later
    · exact ⟨r, List.mem_cons_self, f.next, Nat.le_refl _, rfl⟩
    · obtain ⟨r', hr, n, above, rfl⟩ := ih later
      exact ⟨r', List.mem_cons_of_mem r hr, n, Nat.le_of_succ_le above, rfl⟩

def Plain (rs : List NameRequest) : Prop := ∀ hint, .block hint ∈ rs → plainEnd hint = true

theorem Plain.stem (plain : Plain rs) (hr : r ∈ rs) : plainEnd r.stem = true := by
  cases r with
  | temp => rfl
  | block hint => exact plain hint hr

theorem nodup_names (plain : Plain rs) : (f.names rs).Nodup := by
  induction rs generalizing f with
  | nil => exact List.nodup_nil
  | cons r rs ih =>
    have rest : Plain rs := fun hint hr => plain hint (List.mem_cons_of_mem r hr)
    rw [names_cons]
    refine List.nodup_cons.mpr ⟨fun again => ?_, ih rest⟩
    obtain ⟨r', hr, n, above, same⟩ := exists_request again
    have numbers := (numbered_inj (plain.stem List.mem_cons_self) (rest.stem hr) same).2
    exact absurd above (by rw [← numbers]; exact Nat.not_succ_le_self f.next)

theorem ne_of_plainEnd {s : String} (plain : plainEnd s = true) (h : x ∈ f.names rs) : x ≠ s := by
  obtain ⟨r, _, n, _, rfl⟩ := exists_request h
  rintro rfl
  rw [numbered_not_plainEnd] at plain
  contradiction

theorem arg_requested (plain : Plain rs) {i : Nat} (h : "arg" ++ toString i ∈ f.names rs) :
    .block "arg" ∈ rs := by
  obtain ⟨r, hr, n, _, same⟩ := exists_request h
  have stem := (numbered_inj (by decide) (plain.stem hr) same).1
  cases r with
  | temp => exact absurd stem (by decide)
  | block hint =>
    obtain rfl : "arg" = hint := stem
    exact hr

end Fresh

open Lowering

def Llvm.Label.block? : Llvm.Label → Option BlockName
  | .entry => none
  | .block b => some b

def blocksOf (t : ClassTable) : BackendKind → Except Fault (List BlockName)
  | .mips => do
    let s ← emitUnit Mips.backend t
    return Mips.placed s.target.code.toList
  | .llvm => do
    let s ← emitUnit Llvm.backend t
    return s.target.functions.toList.flatMap fun f => f.body.blocks.filterMap (·.label.block?)

/-- The lowering itself asks for no hint that ends in a digit. -/
theorem blocksOf_plain {p : Program} {t : ClassTable} {kind : BackendKind} {bs : List BlockName}
    (built : ClassTable.build p = .ok t) (h : blocksOf t kind = .ok bs) :
    ∀ b ∈ bs, plainEnd b.hint = true := by
  have allPlain : ∀ s ∈ blockHints, plainEnd s = true := by decide
  intro b hb
  refine allPlain _ ?_
  cases kind with
  | mips =>
    simp only [blocksOf, except_bind_ok, except_pure_ok] at h
    obtain ⟨s, emitted, rfl⟩ := h
    obtain ⟨l, hl, named⟩ := List.mem_filterMap.mp hb
    cases l <;> cases named
    exact (Mips.emitUnit_stands (Resolved.emitUnit_of_ok built emitted)).refers.hints b hl
  | llvm =>
    simp only [blocksOf, except_bind_ok, except_pure_ok] at h
    obtain ⟨s, emitted, rfl⟩ := h
    obtain ⟨f, hf, inside⟩ := List.mem_flatMap.mp hb
    obtain ⟨c, hc, named⟩ := List.mem_filterMap.mp inside
    refine Llvm.emitUnit_hinted (Resolved.emitUnit_of_ok built emitted) f hf c hc b ?_
    cases label : c.label <;> rw [label] at named <;> cases named
    rfl

/-- Names of one generator are all different, and different from those that a function has from the
start, whatever is asked for in whatever order. -/
theorem Fresh.names_distinct (f : Fresh) (rs : List NameRequest) (plain : Plain rs) :
    (f.names rs).Nodup ∧
    (∀ x ∈ f.names rs, x ≠ Llvm.Label.entry.text ∧ "%" ++ x ≠ Llvm.Operand.self.text ∧
      ∀ i, "%" ++ x = (Llvm.Operand.arg i).text → .block "arg" ∈ rs) ∧
    ∀ p t kind bs, ClassTable.build p = .ok t → blocksOf t kind = .ok bs →
      ∀ b ∈ bs, plainEnd b.hint = true := by
  refine ⟨nodup_names plain, fun x hx => ⟨?_, fun same => ?_, fun i same => ?_⟩,
    fun _ _ _ _ built blocks => blocksOf_plain built blocks⟩
  · exact ne_of_plainEnd (by decide) hx
  · have self : x = "self" := (String.append_right_inj "%").mp same
    exact ne_of_plainEnd (by decide) hx self
  · have text : (Llvm.Operand.arg i).text = "%" ++ ("arg" ++ toString i) := by
      rw [← String.append_assoc]
      rfl
    have arg : x = "arg" ++ toString i := (String.append_right_inj "%").mp (same.trans text)
    exact arg_requested plain (arg ▸ hx)

/-- Calls itself, with a block for a receiver that is void. -/
def spinning : Program := ⟨[⟨"Top", none, [.method "spin" [] "Top"
  (some (.dispatch ⟨"Top", 1⟩ (.ident ⟨"SELF_TYPE", 1⟩ "self") none "spin" []))], "spin.cl"⟩]⟩

/-- Hints like the stem of a temporary and like a parameter, no hint, and a unit with blocks. -/
theorem Fresh.names_distinct_mixed : let rs := [.temp, .block "arg", .block "t", .block "", .temp]
    ({} : Fresh).names rs = ["t1", "arg2", "t3", "4", "t5"] ∧ (({} : Fresh).names rs).Nodup ∧
    ∃ t bs, ClassTable.build spinning = .ok t ∧ blocksOf t .llvm = .ok bs ∧
      ⟨"dispatch_void", 1⟩ ∈ bs ∧ plainEnd "dispatch_void" = true := by
  have plain : Plain [.temp, .block "arg", .block "t", .block "", .temp] := by
    intro hint hr
    simp only [List.mem_cons, NameRequest.block.injEq, reduceCtorEq, false_or, List.not_mem_nil,
      or_false] at hr
    rcases hr with rfl | rfl | rfl <;> decide
  obtain ⟨distinct, -, hints⟩ := Fresh.names_distinct {} _ plain
  refine ⟨by decide, distinct, ?_⟩
  have placed : ((ClassTable.build spinning).toOption.bind fun t =>
      (blocksOf t .llvm).toOption) = some [⟨"dispatch_void", 1⟩, ⟨"dispatch_call", 2⟩] := by
    decide +kernel
  cases built : ClassTable.build spinning with
  | error => simp [built, Except.toOption] at placed
  | ok t =>
    cases blocks : blocksOf t .llvm with
    | error => simp [built, blocks, Except.toOption] at placed
    | ok bs =>
      obtain rfl : bs = _ := by simpa [built, blocks, Except.toOption] using placed
      exact ⟨t, _, rfl, blocks, by decide, hints _ _ _ _ built blocks _ List.mem_cons_self⟩

end ClassBackend
