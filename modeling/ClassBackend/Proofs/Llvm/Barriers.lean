import ClassBackend.Proofs.Barrier.Sources
import ClassBackend.Proofs.Llvm.Transcript

/-! Write barriers in a module. Behind the head of a function, objects are stored in the slots that
the function made for itself, or stand before their barrier. -/
namespace ClassBackend.Llvm

open Lowering

def Rhs.barrier : Rhs → Bool
  | .call _ callee _ => callee = .symbol Routine.writeBarrier.symbol
  | _ => false

def CodeLine.barrier : CodeLine → Bool
  | .instr (.callVoid callee _) => callee = .symbol Routine.writeBarrier.symbol
  | .instr (.assign _ rhs) => rhs.barrier
  | _ => false

/-- No store of an object, and no call of the write barrier. -/
def CodeLine.quiet (c : CodeLine) : Bool :=
  !c.barrier && match c with
    | .instr (.store .ptr _ _) => false
    | _ => true

/-- Code that stores no object in a field, in a function with these slots. -/
inductive Unguarded (slots : List Temp) : List CodeLine → Prop
  | quiet {c : CodeLine} : c.quiet = true → Unguarded slots [c]
  | slot {t : Temp} (v : Operand) : t ∈ slots → Unguarded slots [.instr (.store .ptr v (.temp t))]

/-- A store to a field of `self` and its barrier. Both compute the address of the field. -/
def Guarded (is : List CodeLine) : Prop :=
  ∃ (cls : String) (v : Operand) (index : Nat) (a b : Temp),
    is = [.instr (.assign a (.element cls .self index)), .instr (.store .ptr v (.temp a)),
      .instr (.assign b (.element cls .self index)),
      .instr (.callVoid (.symbol Routine.writeBarrier.symbol) [(.ptr, .temp b)])]

def DefaultStore (k : ClassLayout) (slot : Nat) (is : List CodeLine) : Prop := ∃ a i,
  is = [.instr (.assign a (.element k.name .self (3 + slot))), .instr i] ∧
  (i = .store .i64 (.int 0) (.temp a) ∨ i = .store .ptr .null (.temp a) ∨
    ∃ c, i = .store .ptr (.const c) (.temp a))

abbrev Function.slots (f : Function) : List Temp := f.body.allocas.toList

/-- The slots of the open function. -/
def State.slots (s : State) : List Temp := (s.function.map Function.slots).getD []

structure Grows (js : List CodeLine) (s s' : State) : Prop where
  functions : s'.functions = s.functions
  listing : ∀ is, s.function.map Function.listing = some is →
    s'.function.map Function.listing = some (is ++ js)
  slots : s.slots ⊆ s'.slots

def Barred (n : Nat) (s s' : State) : Prop :=
  ∃ js, Grows js s s' ∧ Grouped (Unguarded s'.slots) Guarded n js

structure Begun (fs : List Function) (is : List CodeLine) (s : State) : Prop where
  functions : s.functions.toList = fs
  listing : s.function.map Function.listing = some is

def watch : Watch backend Function CodeLine where
  adds := Barred
  slot s a := ∃ t ∈ s.slots, a = .temp t
  idle fs s := s.function = none ∧ s.functions.toList = fs
  begun := Begun
  inside fs head n s :=
    ∃ is, Begun fs (head ++ is) s ∧ Grouped (Unguarded s.slots) Guarded n is
  opening label n := [.define label n, .block .entry]
  default := DefaultStore
  closed head n f := ∃ is, f.listing = head ++ is ∧ Grouped (Unguarded f.slots) Guarded n is

variable {α β : Type} {m : Gen α} {i : Instr} {is js : List CodeLine} {s s' t : State}
variable {v : Operand} {x : Unit} {n : Nat}

section Growth

theorem Unguarded.mono {slots slots' : List Temp} (more : slots ⊆ slots') (h : Unguarded slots is) :
    Unguarded slots' is := by
  cases h with
  | quiet h => exact .quiet h
  | slot v there => exact .slot v (more there)

theorem Grows.refl (s : State) : Grows [] s s :=
  ⟨rfl, fun _ h => by rw [List.append_nil]; exact h, fun _ h => h⟩

theorem Grows.trans (h : Grows is s t) (h' : Grows js t s') : Grows (is ++ js) s s' where
  functions := h'.functions.trans h.functions
  listing _ there := by rw [h'.listing _ (h.listing _ there), List.append_assoc]
  slots := List.Subset.trans h.slots h'.slots

theorem Barred.refl (s : State) : Barred 0 s s := ⟨[], .refl s, .nil⟩

theorem Barred.trans {m : Nat} (h : Barred n s t) (h' : Barred m t s') : Barred (n + m) s s' := by
  obtain ⟨is, grows, groups⟩ := h
  obtain ⟨js, grows', groups'⟩ := h'
  exact ⟨is ++ js, grows.trans grows', (groups.mono (.mono grows'.slots)).append groups'⟩

theorem Grows.redrawn {d : Fresh} (h : Grows js { s with fresh := d } s') : Grows js s s' :=
  ⟨h.functions, h.listing, h.slots⟩

theorem Grows.quiet (h : Grows js s s') (quiet : js.all CodeLine.quiet = true) : Barred 0 s s' :=
  ⟨js, h, .each_plain fun c hc => .quiet (List.all_eq_true.mp quiet c hc)⟩

theorem body_grows {g : Body → Except Fault Body} (run : Gen.body g s = .ok (x, s'))
    (grows : ∀ b b', g b = .ok b' → bodyListing b' = bodyListing b ++ js ∧
      b.allocas.toList ⊆ b'.allocas.toList) : Grows js s s' := by
  obtain ⟨f, b, open_, changed, rfl⟩ := body_inv run
  obtain ⟨listed, slots⟩ := grows _ _ changed
  refine ⟨rfl, fun is there => ?_, ?_⟩
  · rw [open_, Option.map_some, Option.some.injEq] at there
    subst there
    simp [Function.listing, listed]
  · simpa [State.slots, open_] using slots

theorem emit_grows (run : Gen.emit i s = .ok (x, s')) : Grows [.instr i] s s' :=
  body_grows run fun _ _ emitted => by
    rw [(builder_emit_ok.mp emitted).2, bodyListing_extend]
    exact ⟨rfl, List.Subset.refl _⟩

theorem terminate_grows (run : Gen.terminate i s = .ok (x, s')) : Grows [.instr i] s s' :=
  body_grows run fun _ _ emitted => by
    rw [(builder_terminate_ok.mp emitted).2, bodyListing_extend]
    exact ⟨rfl, List.Subset.refl _⟩

theorem assign_grows {rhs : Rhs} (run : Gen.assign rhs s = .ok (v, s')) :
    ∃ a, v = .temp a ∧ Grows [.instr (.assign a rhs)] s s' := by
  simp only [Gen.assign, bind_ok, pure_ok] at run
  obtain ⟨r, s₁, drawn, _, s₂, emitted, rfl, rfl⟩ := run
  cases drawn
  exact ⟨_, rfl, (emit_grows emitted).redrawn⟩

theorem fieldAddress_grows {obj : Operand} {k : ClassLayout} {slot : Nat}
    (run : Gen.fieldAddress obj k slot s = .ok (v, s')) :
    ∃ a, v = .temp a ∧ Grows [.instr (.assign a (.element k.name obj (3 + slot)))] s s' := by
  unfold Gen.fieldAddress at run
  cases known : fieldIndex slot with
  | ok index =>
    rw [known] at run
    cases fieldIndex_ok known
    exact assign_grows run
  | error e =>
    rw [known] at run
    cases run

theorem storeField_grows {obj : Operand} {k : ClassLayout} {slot : Nat}
    (run : Gen.storeField obj k slot v s = .ok (x, s')) :
    ∃ a, Grows [.instr (.assign a (.element k.name obj (3 + slot))),
      .instr (.store .ptr v (.temp a))] s s' := by
  obtain ⟨p, s₁, address, stored⟩ := bind_ok.mp run
  obtain ⟨a, rfl, first⟩ := fieldAddress_grows address
  exact ⟨a, first.trans (emit_grows stored)⟩

end Growth

section Quiet

/-- The operation adds quiet lines. -/
def Quiet (m : Gen α) : Prop := ∀ s a s', m s = .ok (a, s') → Barred 0 s s'

theorem Quiet.ret (a : α) : Quiet (pure a) := by
  intro s b s' run
  obtain ⟨_, rfl⟩ := pure_ok.mp run
  exact Barred.refl s

theorem Quiet.bind {f : α → Gen β} (h : Quiet m) (k : ∀ a, Quiet (f a)) : Quiet (m >>= f) := by
  intro s b s' run
  obtain ⟨a, s₁, first, second⟩ := bind_ok.mp run
  exact (h s a s₁ first).trans (k a s₁ b s' second)

theorem Quiet.emit (h : (CodeLine.instr i).quiet = true) : Quiet (Gen.emit i) :=
  fun _ _ _ run => (emit_grows run).quiet (by simpa using h)

theorem Quiet.terminate (h : (CodeLine.instr i).quiet = true) : Quiet (Gen.terminate i) :=
  fun _ _ _ run => (terminate_grows run).quiet (by simpa using h)

theorem Quiet.assign {rhs : Rhs} {f : Operand → Gen β} (h : rhs.barrier = false)
    (k : ∀ a, Quiet (f (.temp a))) : Quiet (Gen.assign rhs >>= f) := by
  intro s b s' run
  obtain ⟨v, s₁, first, second⟩ := bind_ok.mp run
  obtain ⟨a, rfl, grows⟩ := assign_grows first
  have front := grows.quiet (by simp [CodeLine.quiet, CodeLine.barrier, h])
  exact front.trans (k a s₁ b s' second)

theorem Quiet.assigned {rhs : Rhs} (h : rhs.barrier = false) : Quiet (Gen.assign rhs) := by
  intro s v s' run
  obtain ⟨a, rfl, grows⟩ := assign_grows run
  exact grows.quiet (by simp [CodeLine.quiet, CodeLine.barrier, h])

theorem Quiet.fieldAddress (obj : Operand) (k : ClassLayout) (slot : Nat) :
    Quiet (Gen.fieldAddress obj k slot) := by
  intro s v s' run
  obtain ⟨a, rfl, grows⟩ := fieldAddress_grows run
  exact grows.quiet rfl

theorem alloca_grows {r : Temp} (run : Gen.body (fun b => .ok (b.alloca r)) s = .ok (x, s')) :
    Grows [] s s' ∧ r ∈ s'.slots := by
  refine ⟨body_grows run fun b b' made => ?_, ?_⟩
  · cases made
    simp [bodyListing, Builder.blocks, Builder.alloca]
  · obtain ⟨f, b, _, made, rfl⟩ := body_inv run
    cases made
    simp [State.slots, Function.slots, Builder.alloca]

theorem slotFor_grows {a : Operand} (run : Gen.slotFor v s = .ok (a, s')) :
    ∃ r ∈ s'.slots, a = .temp r ∧ Grows [.instr (.store .ptr v (.temp r))] s s' := by
  simp only [Gen.slotFor, bind_ok, pure_ok] at run
  obtain ⟨r, s₁, drawn, _, s₂, placed, _, s₃, stored, rfl, rfl⟩ := run
  cases drawn
  obtain ⟨grows, new⟩ := alloca_grows placed
  have grows' := emit_grows stored
  exact ⟨_, grows'.slots new, rfl, grows.redrawn.trans grows'⟩

theorem slotFor_barred {a : Operand} (run : Gen.slotFor v s = .ok (a, s')) :
    Barred 0 s s' ∧ watch.slot s' a := by
  obtain ⟨r, there, rfl, grows⟩ := slotFor_grows run
  exact ⟨⟨_, grows, .one_plain (.slot v there)⟩, r, there, rfl⟩

theorem switchTo_grows {c : BlockName} (run : Gen.switchTo c s = .ok (x, s')) :
    Grows [.block (.block c)] s s' ∨ Grows [.instr (.br (.block c)), .block (.block c)] s s' := by
  obtain ⟨f, b, open_, changed, rfl⟩ := body_inv run
  cases builder_startBlock_ok.mp changed
  have opened (js : List CodeLine) (listed : bodyListing (f.body.opened (.block c)) =
      bodyListing f.body ++ js) :
      Grows js s { s with function := some { f with body := f.body.opened (.block c) } } := by
    refine ⟨rfl, fun is there => ?_, ?_⟩
    · rw [open_, Option.map_some, Option.some.injEq] at there
      subst there
      simp [Function.listing, listed]
    · simp [State.slots, Function.slots, open_, Builder.opened]
  cases done : f.body.current.terminated with
  | true =>
    refine .inl (opened _ ?_)
    simp [Builder.opened, done, bodyListing, Builder.blocks]
  | false =>
    refine .inr (opened _ ?_)
    simp [Builder.opened, done, bodyListing, Builder.blocks, Builder.extend]

theorem switchTo_quiet (c : BlockName) : Quiet (Gen.switchTo c) := by
  intro s u s' run
  obtain grows | grows := switchTo_grows run
  · exact grows.quiet rfl
  · exact grows.quiet rfl

theorem Quiet.newBlock (hint : String) : Quiet (Gen.newBlock hint) := by
  intro s b s' run
  cases run
  exact ⟨[], (Grows.refl _).redrawn, .nil⟩

theorem branchOn_quiet (op : Relop) (ty : Ty) (a b : Operand) (yes no : BlockName) :
    Quiet (Gen.branchOn op ty a b yes no) := .assign rfl fun _ => .terminate rfl

theorem classElement_quiet (row : Operand) (index : Nat) (ty : Ty) {f : Operand → Gen β}
    (k : ∀ a, Quiet (f (.temp a))) : Quiet (Gen.classElement row index ty >>= f) := by
  unfold Gen.classElement
  rw [bind_assoc]
  exact .assign rfl fun _ => .assign rfl k

theorem currentLabel_quiet : Quiet Gen.currentLabel := by
  intro s l s' run
  unfold Gen.currentLabel at run
  split at run <;> cases run
  exact Barred.refl s

theorem call_quiet {s : String} (h : s ≠ Routine.writeBarrier.symbol) (result : Ty)
    (args : List (Ty × Operand)) : (Rhs.call result (.symbol s) args).barrier = false := by
  simpa [Rhs.barrier] using h

end Quiet

theorem abort_unlike (kind : AbortKind) :
    (Routine.ofAbort kind).symbol ≠ Routine.writeBarrier.symbol := by
  cases kind <;> decide

theorem watch_tally : watch.toTally.Lawful where
  refl := Barred.refl
  trans := Barred.trans
  kept h there := by
    obtain ⟨_, grows, _⟩ := h
    obtain ⟨t, ht, rfl⟩ := there
    exact ⟨t, grows.slots ht, rfl⟩
  constant c := Quiet.ret _
  allocLocal run := slotFor_barred run
  freeLocal _ := Quiet.ret _
  loadLocal _ run := Quiet.assigned rfl _ _ _ run
  storeLocal there run := by
    obtain ⟨t, ht, rfl⟩ := there
    have grows := emit_grows run
    exact ⟨_, grows, .one_plain (.slot _ (grows.slots ht))⟩
  loadField _ _ _ _ := Quiet.bind (.fieldAddress _ _ _) fun _ => .assigned rfl
  storeField _ run := by
    obtain ⟨_, s₁, stored, barred⟩ := bind_ok.mp run
    obtain ⟨a, grows⟩ := storeField_grows stored
    obtain ⟨_, s₂, address, called⟩ := bind_ok.mp barred
    obtain ⟨b, rfl, grows'⟩ := fieldAddress_grows address
    exact ⟨_, grows.trans (grows'.trans (emit_grows called)), .one_paired ⟨_, _, _, a, b, rfl⟩⟩
  preserve _ := Quiet.ret _
  restore _ := Quiet.ret _
  unbox _ _ _ := Quiet.bind (.fieldAddress _ _ _) fun _ => .assigned rfl
  boxInt _ _ _ := Quiet.assign (call_quiet (by decide) _ _) fun _ =>
    .bind (.fieldAddress _ _ _) fun _ => .bind (.emit rfl) fun _ => .ret _
  rawWord _ := Quiet.ret _
  arith _ _ _ := Quiet.assigned rfl
  negate _ := Quiet.assigned rfl
  loadTag _ := Quiet.assign rfl fun _ => .assigned rfl
  newBlock := Quiet.newBlock
  switchTo := switchTo_quiet
  jump _ := Quiet.terminate rfl
  branchRaw _ _ _ _ _ := branchOn_quiet _ _ _ _ _ _
  branchVoid _ _ _ := branchOn_quiet _ _ _ _ _ _
  branchSame _ _ _ _ := branchOn_quiet _ _ _ _ _ _
  closeArm _ _ := Quiet.bind currentLabel_quiet fun _ => .bind (.terminate rfl) fun _ => .ret _
  merge arms join := by
    refine Quiet.bind (switchTo_quiet join) fun _ => ?_
    split
    · exact Quiet.ret _
    · exact Quiet.assigned rfl
  allocate _ := Quiet.assigned (call_quiet (by decide) _ _)
  callInit _ _ := Quiet.assigned (call_quiet (initializer_unlike _ (by decide)) _ _)
  newSelfType := Quiet.bind (.assign rfl fun _ => .assigned rfl) fun _ => .assign rfl fun _ =>
    classElement_quiet _ _ _ fun _ => classElement_quiet _ _ _ fun _ =>
    classElement_quiet _ _ _ fun _ => .assign (call_quiet (by decide) _ _) fun _ => .assigned rfl
  callEquality _ _ := Quiet.assigned (call_quiet (by decide) _ _)
  callDirect known _ _ := Quiet.assigned (call_quiet (methodLabel_unlike known (by decide)) _ _)
  callDynamic _ _ _ _ := Quiet.assign rfl fun _ => .assign rfl fun _ => .assign rfl fun _ =>
    .assign rfl fun _ => .assigned rfl
  abort kind _ _ :=
    Quiet.bind (.emit (by simp [CodeLine.quiet, CodeLine.barrier, abort_unlike])) fun _ =>
      .terminate rfl

theorem Begun.grow {fs : List Function} (there : Begun fs is s) (h : Grows js s s') :
    Begun fs (is ++ js) s' :=
  ⟨by rw [h.functions, there.functions], h.listing _ there.listing⟩

theorem watch_lawful : watch.Lawful where
  toLawful := watch_tally
  knows := ⟨fun _ => trivial, fun _ => trivial, fun _ => trivial, fun _ => trivial⟩
  field := trivial
  start := ⟨rfl, rfl⟩
  begin_ there run := by
    cases run
    exact ⟨there.2, rfl⟩
  native {fs is k slot kind s s'} there run := by
    obtain ⟨d, s₁, address, stored⟩ := bind_ok.mp run
    obtain ⟨a, rfl, grows⟩ := fieldAddress_grows address
    cases kind with
    | int | bool =>
      exact ⟨_, there.grow (grows.trans (emit_grows stored)), a, _, rfl, .inl rfl⟩
    | string =>
      exact ⟨_, there.grow (grows.trans (emit_grows stored)), a, _, rfl, .inr (.inl rfl)⟩
  object there run := by
    obtain ⟨v, s₁, loaded, stored⟩ := bind_ok.mp run
    obtain ⟨rfl, rfl⟩ := pure_ok.mp loaded
    obtain ⟨a, grows⟩ := storeField_grows stored
    exact ⟨_, there.grow grows, a, _, rfl, .inr (.inr ⟨_, rfl⟩)⟩
  void there run := by
    obtain ⟨a, grows⟩ := storeField_grows run
    exact ⟨_, there.grow grows, a, _, rfl, .inr (.inl rfl)⟩
  begun_inside there := ⟨[], by rwa [List.append_nil], .nil⟩
  inside_adds there more := by
    obtain ⟨is, there, groups⟩ := there
    obtain ⟨js, grows, groups'⟩ := more
    refine ⟨is ++ js, ?_, (groups.mono (.mono grows.slots)).append groups'⟩
    rw [← List.append_assoc]
    exact there.grow grows
  formal run := slotFor_barred run
  end_ {fs is n v m s s'} there run := by
    obtain ⟨js, there, groups⟩ := there
    obtain ⟨_, s₁, ended, rest⟩ := bind_ok.mp run
    have grows := terminate_grows ended
    obtain ⟨done, listed⟩ := there.grow grows
    cases open_ : s₁.function with
    | none => simp [open_] at rest
    | some f =>
      simp only [open_, Except.ok.injEq, Prod.mk.injEq, true_and] at rest
      subst rest
      rw [open_, Option.map_some, Option.some.injEq, List.append_assoc] at listed
      have slots : s.slots ⊆ f.slots := by simpa [State.slots, open_] using grows.slots
      exact ⟨f, ⟨rfl, by simp [done]⟩, _, listed,
        (groups.mono (.mono slots)).append (.one_plain (.quiet rfl))⟩

section Functions

/-- A function of a module guards its fields: it has its head, where each default is stored once,
and behind it a barrier for each object put in a field, and nowhere else. -/
structure GuardsFields (src : Source) (f : Function) : Prop where
  code : ∃ defaults body, f.listing = [.define src.label src.formals, .block .entry] ++
      List.flatten defaults ++ body ∧
    List.Forall₂ (DefaultStore src.cls) src.fills defaults ∧
    Grouped (Unguarded f.slots) Guarded (src.assigns + src.inits) body
  barriers : f.listing.countP CodeLine.barrier = src.assigns + src.inits

theorem Unguarded.barrier {slots : List Temp} (h : Unguarded slots is) :
    is.countP CodeLine.barrier = 0 := by
  cases h with
  | quiet quiet =>
    simp only [CodeLine.quiet, Bool.and_eq_true, Bool.not_eq_true'] at quiet
    simp [quiet.1]
  | slot v _ => rfl

theorem Guarded.barrier (h : Guarded is) : is.countP CodeLine.barrier = 1 := by
  obtain ⟨cls, v, index, a, b, rfl⟩ := h
  rfl

theorem DefaultStore.barrier {k : ClassLayout} {slot : Nat} (h : DefaultStore k slot is) :
    is.countP CodeLine.barrier = 0 := by
  obtain ⟨a, i, rfl, rfl | rfl | ⟨c, rfl⟩⟩ := h <;> rfl

theorem defaults_barrier {k : ClassLayout} {slots : List Nat} {ps : List (List CodeLine)}
    (h : List.Forall₂ (DefaultStore k) slots ps) : ps.flatten.countP CodeLine.barrier = 0 := by
  induction h with
  | nil => rfl
  | cons store _ ih => rw [List.flatten_cons, List.countP_append, store.barrier, ih]

theorem guardsFields {src : Source} {f : Function} (h : watch.Keeps src f) :
    GuardsFields src f := by
  obtain ⟨_, ⟨defaults, stores, rfl⟩, body, listed, groups⟩ := h
  refine ⟨⟨defaults, body, listed, stores, groups⟩, ?_⟩
  have some := groups.countP_eq Unguarded.barrier Guarded.barrier
  have head : (watch.opening src.label src.formals).countP CodeLine.barrier = 0 := rfl
  rw [listed, List.countP_append, List.countP_append, head, defaults_barrier stores, some]
  omega

end Functions

end ClassBackend.Llvm
