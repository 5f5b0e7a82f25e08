import ClassBackend.Proofs.Layout.Fields
import ClassBackend.Proofs.Mips.Roots.Expressions
import ClassBackend.Proofs.Mips.StackBalance
import ClassBackend.Proofs.Mips.StackDiscipline

/-! Functions under the tracking of what is held, and with them a whole unit. Each function begins
with `self` and its formals, and ends with an object in the accumulator. -/
namespace ClassBackend.Mips

open Emission Lowering

/-- Between functions: those that are finished have certificates. -/
structure Resting (t : ClassTable) (s : Record) : Prop where
  frame : s.plain.frame = none
  done : ∀ a ∈ s.done, Finished t a

theorem Numbered.held {S : Formals annotated} (h : Numbered S) (all : S.bound.length = S.count)
    {a : Int} (ha : a ∈ S.bound) {n : Nat} : slots S.count n a = .object := by
  obtain ⟨i, inside, rfl⟩ := List.mem_iff_getElem.mp ha
  have few := h.few all
  obtain ⟨same, _⟩ := h.places _ _ (List.getElem?_eq_getElem inside)
  rw [same, low_eq (by omega), slots, if_pos]
  refine ⟨Int.dvd_mul_right .., .inr ?_⟩
  simp only [wordSize]
  omega

namespace Emitting

variable {F : Emitting} {w : Entries} {n u : Nat} {v : Reg} {regs : Reg → Kind} {α : Type}
variable {cx : Context} {t : ClassTable} {k : ClassLayout} {s s' : Record}

def Closes (F : Emitting) (w : Entries) (P : Station) (m : Lowering annotated Unit) : Prop :=
  ∀ s a s', F.Stands w P s.target → m s = .ok (a, s') → Resting F.table s'.target

section Frames

attribute [local irreducible] Word.low Word.fits

theorem Does.closes {P : Station} {m : Lowering annotated α} {f : α → Lowering annotated Unit}
    {Q : Entries → α → Station → Prop} (h : F.Does w P m Q)
    (k : ∀ w' a P', w.Le w' → Q w' a P' → F.Closes w' P' (f a)) : F.Closes w P (m >>= f) := by
  intro s b s' stands run
  obtain ⟨a, s₁, first, second⟩ := bind_ok.mp run
  obtain ⟨w₁, P₁, grown, stands₁, hQ⟩ := h s a s₁ stands first
  exact k w₁ a P₁ grown hQ s₁ b s' stands₁ second

theorem Closes.self {m : Lowering annotated Unit}
    (h : regs .s0 = .object → F.Closes w (F.point n u regs) m) :
    F.Closes w (F.point n u regs) m := fun s a s' stands run =>
  h (rest_fixed (r := .s0) (by decide) (stands.base _ rfl)) s a s' stands run

theorem Closes.found {P : Station} {y : Except Fault α} {f : α → Lowering annotated Unit}
    (k : ∀ a, F.Closes w P (f a)) : F.Closes w P (Lowering.ofExcept y >>= f) := by
  intro s b s' stands run
  obtain ⟨a, s₁, first, second⟩ := bind_ok.mp run
  obtain ⟨_, rfl⟩ := ofExcept_ok.mp first
  exact k a _ b s' stands second

theorem beginFunction_stands (rests : Resting t s)
    (run : Record.beginFunction F.label F.formals s = .ok ((), s')) (same : F.table = t) :
    ∃ w, F.Stands w (F.point 0 0 rest) s' := by
  simp only [Record.beginFunction, Record.aside, beginFunction_run] at run
  cases run
  refine ⟨⟨s.plain.fresh.next, fun _ => F.frame 0 rest⟩, ?_⟩
  exact {
    frame := rfl
    fits := fits_savedArea
    turn := rfl
    fresh := rfl
    base := by
      rintro _ ⟨⟩
      exact le_rfl
    laid := ⟨[], rfl, Charted.start.forget slots_start⟩
    label := rfl
    done := same ▸ rests.done }

theorem closeFrame_run {f : Frame} (open_ : s.plain.frame = some f) :
    Record.aside Asm.closeFrame id s =
      .ok (f, { s with plain := { s.plain with frame := none } }) := by
  simp only [Record.aside, Asm.closeFrame, open_]
  rfl

theorem epilogue_run {x : Except Fault (List Instr)} {mark : Record → Record}
    (run : Record.aside (do Asm.emitAll (← Asm.ofExcept x)) mark s = .ok ((), s')) :
    ∃ is, s' = mark { s with plain := s.plain.add is } := by
  unfold Record.aside at run
  split at run
  · rename_i _ t emitted
    cases run
    obtain ⟨is, mid, made, added⟩ := bind_ok.mp emitted
    rw [(asm_ofExcept_ok.mp made).2] at added
    exact ⟨is, by rw [emitAll_ok.mp added]⟩
  · cases run

theorem endFunction_rests (stands : F.Stands w (F.point 0 u regs) s) (hv : regs v = .object)
    (known : F.cls ∈ F.table.classes) (named : F.label ∈ F.cls.functions)
    (run : Record.endFunction v F.formals s = .ok ((), s')) : Resting F.table s' := by
  obtain ⟨_, s₁, moved, ends⟩ := bind_ok.mp run
  obtain ⟨_, ⟨_, rfl⟩, stands₁⟩ := op_intoAcc hv s _ s₁ stands moved
  obtain ⟨f, s₂, closed, ends⟩ := bind_ok.mp ends
  rw [closeFrame_run stands₁.frame] at closed
  cases closed
  rw [if_pos rfl] at ends
  obtain ⟨is, rfl⟩ := epilogue_run ends
  refine ⟨rfl, List.forall_mem_append.mpr ⟨stands₁.done, ?_⟩⟩
  refine List.forall_mem_singleton.mpr ⟨F.cls, known, ?_, ?_⟩
  · show s₁.label ∈ F.cls.functions
    rw [stands₁.label]
    exact named
  · obtain ⟨ms, same, laid⟩ := stands₁.laid
    have certificate := laid.certificate (giving_self (v := .a0)) s₁.label
    rw [same] at certificate
    exact ⟨_, certificate⟩

end Frames

section Bodies

attribute [local irreducible] Word.low Word.fits

theorem op_formal {i : Nat} : F.Op w (F.point 0 u regs) (Record.noted 0 (Asm.formal i))
    fun a P => P = F.point 0 u regs ∧ i < F.formals ∧
      a = wordSize * Word.low (F.formals - i) ∧ Word.fits a = true := by
  refine op_noted fun t a t' known fits turn base run => ?_
  simp only [Asm.formal, bind_ok, frame_ok, asm_ofExcept_ok] at run
  obtain ⟨f, _, ⟨found, rfl⟩, made, rfl⟩ := run
  cases known.symm.trans found
  unfold Frame.formalOffset at made
  split at made
  · rename_i more
    obtain ⟨inside, rfl⟩ := checked_ok.mp made
    refine ⟨[], _, ⟨rfl, more, rfl, inside⟩, ?_⟩
    refine ⟨by simp, known, fits, rfl, turn, ?_, .done le_rfl⟩
    rintro _ ⟨⟩
    exact base
  · cases made

theorem formals_does {vars : Resolved.Vars annotated} {as : List Int} {fs : List Formal}
    (numbered : Numbered ⟨F.formals, as⟩) (count : as.length + fs.length = F.formals)
    (bound : ∀ x ∈ vars, x.2 ∈ as) :
    F.Does w (F.point 0 u regs) (Resolved.formals annotated as.length F.formals vars fs)
      fun _ vars P => P = F.point 0 u regs ∧ F.Holds 0 vars := by
  induction fs generalizing vars as with
  | nil => exact .ret ⟨rfl, fun x hx => numbered.held count (bound x hx)⟩
  | cons f fs ih =>
    refine (Does.op op_formal).bind ?_
    rintro _ a _ _ ⟨rfl, rfl, more, rfl, fits⟩
    have longer (a : Int) : as.length + 1 = (as ++ [a]).length := by simp
    rw [List.length_cons] at count
    rw [longer (wordSize * Word.low (F.formals - as.length))]
    refine ih (numbered.bind more fits) ?_ ?_
    · rw [← longer]
      omega
    · rintro x (_ | ⟨_, hx⟩)
      · simp
      · exact List.mem_append_left _ (bound x hx)

theorem storeDefaults_does (slot : Nat) (fs : List Field) :
    F.Does w (F.point 0 u regs) (storeDefaults annotated cx slot fs) fun _ _ P =>
      ∃ u' regs', P = F.point 0 u' regs' := by
  induction fs generalizing slot w u regs with
  | nil => exact .ret ⟨u, regs, rfl⟩
  | cons f fs ih =>
    unfold storeDefaults
    cases NativeKind.ofType? f.ty with
    | some kind => exact .fresh (.step (op_storeField (v := .zero) rfl) (ih (slot + 1)))
    | none =>
      refine .part (defaultValue_fits f.ty 0 le_rfl) fun v w₁ u₁ _ _ => ?_
      exact .step (op_storeField giving_self) (ih (slot + 1))

theorem storeInits_does (slot : Nat) (as : List Attribute)
    (fields : (∀ a ∈ as, a.init = none) ∨ F.Fields cx) :
    F.Does w (F.point 0 u regs) (Resolved.storeInits annotated cx slot as) fun _ _ P =>
      ∃ u' regs', P = F.point 0 u' regs' := by
  induction as generalizing slot w u regs with
  | nil => exact .ret ⟨u, regs, rfl⟩
  | cons a as ih =>
    have others := fields.imp_left fun h b hb => h b (List.mem_cons_of_mem _ hb)
    unfold Resolved.storeInits
    cases made : a.init with
    | none => exact ih (slot + 1) others
    | some init =>
      have known : F.Fields cx := fields.resolve_left fun h => by
        rw [h a (List.mem_cons_self ..)] at made
        cases made
      refine .part (lower_fits known (n := 0) (by simp [Holds]) init 0 le_rfl)
        fun v w₁ u₁ _ hv => ?_
      refine .step (op_storeField giving_self) (.step (op_writeBarrier hv giving_self) ?_)
      exact ih (slot + 1) others

theorem end_closes (hv : regs v = .object) (known : F.cls ∈ F.table.classes)
    (named : F.label ∈ F.cls.functions) :
    F.Closes w (F.point 0 u regs) (target (annotated.endFunction v F.formals)) := by
  intro s a s' stands run
  obtain ⟨t, ended, rfl⟩ := target_ok.mp run
  exact endFunction_rests stands hv known named ended

end Bodies

end Emitting

section Classes

open Emitting

attribute [local irreducible] Word.low Word.fits

variable {t : ClassTable} {k : ClassLayout} {cx : Context}

def Extends (t : ClassTable) (m : Lowering annotated Unit) : Prop :=
  ∀ s a s', Resting t s.target → m s = .ok (a, s') → Resting t s'.target

theorem Extends.nothing : Extends t (pure ()) := by
  intro s a s' rests run
  obtain ⟨_, rfl⟩ := pure_ok.mp run
  exact rests

theorem Extends.seq {m m' : Lowering annotated Unit} (h : Extends t m) (h' : Extends t m') :
    Extends t (m >>= fun _ => m') := by
  intro s a s' rests run
  obtain ⟨_, s₁, first, second⟩ := bind_ok.mp run
  exact h' _ _ _ (h _ _ _ rests first) second

theorem Extends.function {body : Lowering annotated Unit} (F : Emitting) (same : F.table = t)
    (h : ∀ w, F.Closes w (F.point 0 0 rest) body) :
    Extends t (target (annotated.beginFunction F.label F.formals) >>= fun _ => body) := by
  subst same
  intro s a s' rests run
  obtain ⟨_, s₁, first, ends⟩ := bind_ok.mp run
  obtain ⟨t, begun, rfl⟩ := target_ok.mp first
  obtain ⟨w, stands⟩ := beginFunction_stands rests begun rfl
  exact h w _ a s' stands ends

/-- The fields that the names of a class stand for are boxed. -/
def NamesBoxed (k : ClassLayout) : Prop :=
  ∀ name slot off, k.fieldSlot name = .ok slot → fieldOffset slot = .ok off →
    selfWord k off = .object

theorem initializer_extends (known : cx.current ∈ cx.classes.classes)
    (fields : (∀ a ∈ cx.current.decl.attributes, a.init = none) ∨ NamesBoxed cx.current) :
    Extends cx.classes (Resolved.initializer annotated cx) := by
  have named : Linkage.initializer cx.current.name ∈ cx.current.functions :=
    List.mem_cons_self ..
  let F : Emitting := ⟨cx.classes, cx.current, 0, Linkage.initializer cx.current.name⟩
  have inits (w : Entries) (u : Nat) (regs : Reg → Kind) : F.Closes w (F.point 0 u regs) (do
      Resolved.storeInits annotated cx cx.current.ownStart cx.current.decl.attributes
      target (annotated.endFunction .s0 0)) := by
    refine (storeInits_does _ _ (fields.imp_right fun h name slot found off =>
      h name slot off found)).closes ?_
    rintro w' _ _ _ ⟨u', regs', rfl⟩
    exact .self fun self => end_closes self known named
  refine .function F rfl fun w => (storeDefaults_does _ _).closes ?_
  rintro w₁ _ _ _ ⟨u₁, regs₁, rfl⟩
  cases cx.current.parent with
  | none => exact inits w₁ u₁ regs₁
  | some q =>
    refine .found fun parent => .self fun self => (Does.op (op_callInit self)).closes ?_
    rintro _ _ _ _ ⟨rfl, rfl, rfl⟩
    exact inits _ u₁ _

theorem method_extends (known : cx.current ∈ cx.classes.classes) (boxed : NamesBoxed cx.current)
    {name : String} {fs : List Formal} (named : Linkage.method cx.current.name name ∈
      cx.current.functions) (body : Expr) :
    Extends cx.classes (Resolved.method annotated cx name fs body) := by
  let F : Emitting :=
    ⟨cx.classes, cx.current, fs.length, Linkage.method cx.current.name name⟩
  have none : Numbered ⟨F.formals, []⟩ := ⟨Nat.zero_le _, by simp⟩
  refine .function F rfl fun w => (formals_does none (by simp [F]) (by simp)).closes ?_
  rintro w₁ vars _ _ ⟨rfl, holds⟩
  have fields : F.Fields cx := fun name slot found off => boxed name slot off found
  have value := lower_fits fields holds body 0 le_rfl
  refine (Does.whole value).closes ?_
  rintro w₂ v _ _ ⟨_, u₂, rfl⟩
  exact end_closes giving_self known named

theorem methods_extend (known : cx.current ∈ cx.classes.classes) (boxed : NamesBoxed cx.current)
    {ms : List MethodDecl} (named : ∀ m ∈ ms, Linkage.method cx.current.name m.name ∈
      cx.current.functions) : Extends cx.classes (Resolved.methods annotated cx ms) := by
  induction ms with
  | nil => exact .nothing
  | cons m ms ih =>
    have others := ih fun m hm => named m (List.mem_cons_of_mem _ hm)
    unfold Resolved.methods
    cases m.body with
    | none =>
      intro s a s' _ run
      cases run
    | some body =>
      exact (method_extends known boxed (named m (List.mem_cons_self ..)) body).seq others

/-- What the code of a class has to do with its fields: it reads boxed ones, or reads none. -/
def Collectable (k : ClassLayout) : Prop :=
  (k.isBuiltin = true ∧ ∀ a ∈ k.decl.attributes, a.init = none) ∨ NamesBoxed k

theorem classCode_extends (known : cx.current ∈ cx.classes.classes)
    (collectable : Collectable cx.current) :
    Extends cx.classes (Resolved.classCode annotated cx) := by
  refine (initializer_extends known (collectable.imp_left And.right)).seq ?_
  cases builtin : cx.current.isBuiltin with
  | true => exact .nothing
  | false =>
    refine methods_extend known (collectable.resolve_left fun h => ?_) fun m hm => ?_
    · rw [builtin] at h
      cases h.1
    · rw [ClassLayout.functions, builtin]
      exact List.mem_cons_of_mem _ (List.mem_map.mpr ⟨m, hm, rfl⟩)

theorem classCodes_extend {ks : List ClassLayout} (h : ∀ k ∈ ks, k ∈ t.classes ∧ Collectable k) :
    Extends t (Resolved.classCodes annotated t ks) := by
  induction ks with
  | nil => exact .nothing
  | cons k ks ih =>
    obtain ⟨known, collectable⟩ := h k (List.mem_cons_self ..)
    refine Extends.seq ?_ (ih fun k hk => h k (List.mem_cons_of_mem _ hk))
    let cx : Context := ⟨t, k⟩
    exact classCode_extends (show cx.current ∈ cx.classes.classes from known) collectable

theorem emitUnit_rests (collectable : ∀ k ∈ t.classes, Collectable k) {p : Pool} {s : Record}
    (h : Resolved.emitUnit annotated t = .ok (p, s)) : Resting t s := by
  unfold Resolved.emitUnit at h
  obtain ⟨⟨_, s'⟩, run, same⟩ := except_bind_ok.mp h
  cases same
  have start : Resting t ({} : Record) := ⟨rfl, by simp⟩
  exact classCodes_extend (fun k hk => ⟨hk, collectable k hk⟩) _ _ _ start run

end Classes

end ClassBackend.Mips

/-! Functions of compiled programs, in which the collector may run at any call. Programs leave the
built-in classes alone, so all fields that their code reads are boxed. -/
namespace ClassBackend

namespace Mips

open Lowering

variable {p : Program} {t : ClassTable} {k : ClassLayout}

theorem names_boxed (boxed : ∀ f ∈ k.fields, NativeKind.ofType? f.ty = none) : NamesBoxed k := by
  intro name slot off found place
  have inside : slot < k.fields.length := by
    have named := (ClassLayout.fieldSlot_iff.mp found).1
    rw [List.getElem?_map] at named
    obtain ⟨f, there, _⟩ := Option.map_eq_some_iff.mp named
    exact (List.getElem?_eq_some_iff.mp there).1
  unfold selfWord
  split
  · rename_i f first
    have mem := List.mem_of_find?_eq_some first
    rw [boxed f.1 (List.fst_mem_of_mem_zipIdx mem)]
    rfl
  · rename_i none
    have there : (k.fields[slot], slot) ∈ k.fields.zipIdx := by
      rw [List.mem_zipIdx_iff_getElem?]
      exact List.getElem?_eq_getElem inside
    refine absurd (decide_eq_true ?_) (List.find?_eq_none.mp none _ there)
    rw [place]
    rfl

theorem class_collectable (ordinary : p.Ordinary)
    (h : ClassTable.build p.withBuiltins = .ok t) (hk : k ∈ t.classes) : Collectable k :=
  (ClassTable.silent_or_boxed ordinary h hk).imp id names_boxed

/-- What a program is compiled to are functions in which the collector finds on the stack all that
it has to keep, and nothing that it may not take for a root. -/
theorem compile_rooted (p : Program) (ordinary : p.Ordinary) (gcTest : Bool)
    (sourceName text : String) (h : compile p .mips gcTest sourceName = .ok text) :
    ∃ t fs a, ClassTable.build p.withBuiltins = .ok t ∧ activations t = .ok fs ∧
      assemble gcTest t = .ok a ∧ text = a.text ∧ a.code = fs.flatMap Activation.code ∧
      ∀ f ∈ fs, ∃ k ∈ t.classes, f.label ∈ k.functions ∧ f.Rooted k := by
  obtain ⟨t, a, built, assembled, rfl⟩ := compile_mips_ok.mp h
  obtain ⟨s, emitted, functions, code⟩ := assemble_activations assembled
  have idle := emitUnit_idle (T := fun _ => True) (fun _ => trivial)
    (fun _ _ => ⟨.inr trivial, .inr trivial⟩) built
  rw [emitted] at idle
  obtain ⟨_, _, frame, all, disciplined⟩ := idle
  have rests := emitUnit_rests (fun k hk => class_collectable ordinary built hk)
    (Resolved.emitUnit_of_ok built emitted)
  refine ⟨t, s.target.done, a, built, functions, assembled, rfl, code.trans all, fun f hf => ?_⟩
  obtain ⟨k, hk, named, listed, certificate⟩ := rests.done f hf
  exact ⟨k, hk, named, certificate.rooted (disciplined f hf)⟩

/-- Arithmetic on the result of a call, with its operands on the stack meanwhile. -/
def tally : Program := ⟨[⟨"Main", some "Object", [
  .attribute "sum" "Int" (some (.int ⟨"Int", 2⟩ 1)),
  .method "add" [⟨"n", "Int"⟩] "Int" (some (.assign ⟨"Int", 3⟩ "sum"
    (.binary ⟨"Int", 3⟩ .plus (.ident ⟨"Int", 3⟩ "sum")
      (.binary ⟨"Int", 3⟩ .mul (.ident ⟨"Int", 3⟩ "n") (.int ⟨"Int", 3⟩ 2))))),
  .method "main" [] "Object" (some (.letIn ⟨"Object", 4⟩ "x" "Int"
    (some (.binary ⟨"Int", 4⟩ .minus (.ident ⟨"Int", 4⟩ "sum")
      (.dispatch ⟨"Int", 4⟩ (.new ⟨"SELF_TYPE", 4⟩ "SELF_TYPE") none "add" [.int ⟨"Int", 4⟩ 5])))
    (.binary ⟨"Bool", 5⟩ .eq (.ident ⟨"Int", 5⟩ "x") (.ident ⟨"Int", 5⟩ "sum"))))],
  "main.cl"⟩]⟩

theorem tally_rooted : tally.Ordinary ∧ ∃ text,
    compile tally .mips true "main.cl" = .ok text ∧
    ∃ t fs a, ClassTable.build tally.withBuiltins = .ok t ∧ activations t = .ok fs ∧
      assemble true t = .ok a ∧ text = a.text ∧ a.code = fs.flatMap Activation.code ∧
      ∀ f ∈ fs, ∃ k ∈ t.classes, f.label ∈ k.functions ∧ f.Rooted k := by
  have ordinary : tally.Ordinary := ⟨by decide, by decide, by decide⟩
  have compiles : (compile tally .mips true "main.cl").toOption.isSome = true := by
    decide +kernel
  cases made : compile tally .mips true "main.cl" with
  | error f => rw [made] at compiles; cases compiles
  | ok text => exact ⟨ordinary, text, rfl, compile_rooted _ ordinary _ _ _ made⟩

end Mips

end ClassBackend
