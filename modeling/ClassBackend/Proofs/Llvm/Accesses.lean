import ClassBackend.Proofs.Layout.Fields
import ClassBackend.Proofs.Llvm.FieldTypes

/-! The accesses of a whole unit. Code of a class that has initial values or methods meets boxed
fields only; the default of a field has the type of the field. -/
namespace ClassBackend.Llvm

open Lowering

variable {p : Program} {t : ClassTable} {k : ClassLayout} {cx : Context} {i : Nat}

section Classes

theorem declared_field (hk : k ∈ t.classes) {f : Field} (there : k.fields[i]? = some f) :
    Declared t k.name (3 + i) (fieldType f.ty) := by
  apply declared_of_class hk
  rw [Nat.add_comm]
  simp [structTypes, there]

theorem fieldType_boxed {ty : String} (boxed : NativeKind.ofType? ty = none) :
    fieldType ty = .ptr := by
  rw [fieldType, boxed]

theorem declared_slot (hk : k ∈ t.classes) (boxed : ∀ f ∈ k.fields, NativeKind.ofType? f.ty = none)
    (inside : i < k.fields.length) : Declared t k.name (3 + i) .ptr := by
  have field := declared_field hk (List.getElem?_eq_getElem inside)
  rwa [fieldType_boxed (boxed _ (List.getElem_mem inside))] at field

theorem own_inside (j : Nat) : k.fields[k.ownStart + j]? = k.ownFields[j]? := by
  rw [ClassLayout.fields, ClassLayout.ownStart, List.getElem?_append_right (Nat.le_add_right ..),
    Nat.add_sub_cancel_left]

theorem declared_word (ordinary : p.Ordinary) (h : ClassTable.build p.withBuiltins = .ok t)
    {b : ClassDecl} (builtin : b ∈ Builtin.classes) (below : b.parent = some Builtin.objectName)
    {f : Field} (first : (Layout.ownFields b)[0]? = some f) (word : fieldType f.ty = .i64)
    (found : t.find b.name = .ok k) : k ∈ t.classes ∧ Declared t k.name (3 + k.ownStart) .i64 := by
  have hk := ClassTable.mem_of_find found
  obtain ⟨_, own⟩ := ClassTable.builtin_fields ordinary h builtin below found
  have field := declared_field (i := k.ownStart) hk (f := f) (by
    rw [← Nat.add_zero k.ownStart, own_inside, own, first])
  exact ⟨hk, word ▸ field⟩

theorem typing_knows (ordinary : p.Ordinary) (h : ClassTable.build p.withBuiltins = .ok t)
    (hk : k ∈ t.classes) (boxed : ∀ f ∈ k.fields, NativeKind.ofType? f.ty = none) :
    (typing t).Knows ⟨t, k⟩ where
  found := ClassTable.mem_of_find
  int := declared_word (b := Builtin.int) ordinary h (by simp [Builtin.classes]) rfl rfl rfl
  bool := declared_word (b := Builtin.bool) ordinary h (by simp [Builtin.classes]) rfl rfl rfl
  field found := by
    have last := (ClassLayout.fieldSlot_iff.mp found).1
    have inside := (List.getElem?_eq_some_iff.mp last).1
    exact declared_slot hk boxed (by simpa using inside)

theorem object_there (ordinary : p.Ordinary) (h : ClassTable.build p.withBuiltins = .ok t) :
    ∃ k ∈ t.classes, k.name = Builtin.objectName := by
  have declared : Builtin.object ∈ p.withBuiltins.classes := by
    rw [ordinary.withBuiltins]
    exact List.mem_append_left _ (by simp [Builtin.classes])
  obtain ⟨k, hk, decl⟩ := ClassTable.exists_decl h declared
  exact ⟨k, hk, by rw [ClassLayout.name, decl]; rfl⟩

end Classes

section Functions

variable {α : Type} {m : Lowering backend Unit} {s s' : Session backend}

theorem storeNative_sound {kind : NativeKind} {ty : String}
    (native : NativeKind.ofType? ty = some kind)
    (declared : Declared t k.name (3 + i) (fieldType ty)) (obj : Operand) :
    Sound t (Gen.storeNative obj k i kind) := by
  rw [fieldType, native] at declared
  apply Sound.field
  cases kind with
  | int | bool => exact .store declared obj _
  | string => exact .store declared obj _

theorem storeDefaults_adds (law : (typing t).Lawful) (slot : Nat) (fs : List Field)
    (declared : ∀ i f, fs[i]? = some f →
      Declared t cx.current.name (3 + (slot + i)) (fieldType f.ty)) :
    (typing t).Adds 0 [] (storeDefaults backend cx slot fs) := by
  induction fs generalizing slot with
  | nil => exact .ret law
  | cons f fs ih =>
    have first := declared 0 f rfl
    have rest := ih (slot + 1) fun i g there => by
      rw [Nat.add_right_comm, Nat.add_assoc]
      exact declared (i + 1) g there
    unfold storeDefaults
    cases native : NativeKind.ofType? f.ty with
    | some kind =>
      exact Tally.Adds.step law (storeNative_sound native first _) fun _ => rest
    | none =>
      rw [fieldType_boxed native] at first
      exact (Tally.defaultValue_adds law f.ty).then law fun v =>
        .step law (storeField_sound first _ v) fun _ => rest

def Rested (t : ClassTable) (s : State) : Prop :=
  s.function = none ∧ ∀ f ∈ s.functions.toList, Typed t f.slots f.listing

def Keeps (t : ClassTable) (m : Lowering backend Unit) : Prop :=
  ∀ s s', Rested t s.target → m s = .ok ((), s') → Rested t s'.target

theorem Keeps.nothing : Keeps t (pure ()) := by
  intro s s' idle run
  obtain ⟨_, rfl⟩ := pure_ok.mp run
  exact idle

theorem Keeps.seq {m' : Lowering backend Unit} (h : Keeps t m) (h' : Keeps t m') :
    Keeps t (m >>= fun _ => m') := by
  intro s s' idle run
  obtain ⟨_, s₁, first, second⟩ := bind_ok.mp run
  exact h' s₁ s' (h s s₁ idle first) second

theorem uncounted {held : List Operand} {n n' : Nat}
    {m : Lowering backend α} (h : (typing t).Adds n held m) : (typing t).Adds n' held m := h

theorem function_keeps {n : Nat} {body : Lowering backend α} (h : (typing t).Adds n [] body)
    (label : String) (formals count : Nat) (v : α → Operand) : Keeps t (do
      target (backend.beginFunction label formals)
      let a ← body
      target (backend.endFunction (v a) count)) := by
  intro s s' idle run
  obtain ⟨_, s₁, began, run⟩ := bind_ok.mp run
  obtain ⟨t₁, op, rfl⟩ := target_ok.mp began
  obtain ⟨a, s₂, filled, ended⟩ := bind_ok.mp run
  obtain ⟨t₂, last, rfl⟩ := target_ok.mp ended
  cases op
  obtain ⟨js, grows, typed⟩ := h _ a s₂ (by simp) filled
  obtain ⟨_, t₃, left, rest⟩ := bind_ok.mp last
  have whole := grows.trans (terminate_grows left)
  have listed := whole.listing _ rfl
  cases open_ : t₃.function with
  | none => simp [open_] at rest
  | some f =>
    simp only [open_, Except.ok.injEq, Prod.mk.injEq, true_and] at rest
    subst rest
    refine ⟨rfl, fun g hg => ?_⟩
    simp only [whole.functions, Array.toList_push, List.mem_append, List.mem_singleton] at hg
    rcases hg with old | rfl
    · exact idle.2 g old
    · rw [open_, Option.map_some, Option.some.injEq] at listed
      have slots : s₂.target.slots ⊆ g.slots := by
        simpa [State.slots, open_] using (terminate_grows left).slots
      rw [listed]
      have opening : Typed t g.slots [.define label formals, .block .entry] :=
        (Typed.mark (c := .define label formals) rfl).append (Typed.mark rfl)
      exact opening.append ((typed.mono slots).append (.one trivial))

theorem initializer_keeps (law : (typing t).Lawful) (hk : k ∈ t.classes)
    (inits : ∀ i a, k.decl.attributes[i]? = some a → a.init.isSome = true →
      (typing t).Knows ⟨t, k⟩ ∧ Declared t k.name (3 + (k.ownStart + i)) .ptr) :
    Keeps t (Resolved.initializer backend ⟨t, k⟩) := by
  rw [Transcript.initializer_eq]
  have defaults : (typing t).Adds 0 [] (storeDefaults backend ⟨t, k⟩ k.ownStart k.ownFields) :=
    storeDefaults_adds law _ _ fun i f there => declared_field hk (by rw [own_inside, there])
  have stored := Tally.storeInits_adds law k.ownStart k.decl.attributes inits
  exact function_keeps (defaults.then law fun _ => (Tally.callParent_adds law).then law
    fun _ => stored) _ 0 0 fun _ => .self

theorem methods_keep (law : (typing t).Lawful) (knows : (typing t).Knows cx)
    (ms : List MethodDecl) : Keeps t (Resolved.methods backend cx ms) := by
  induction ms with
  | nil => exact .nothing
  | cons m ms ih =>
    unfold Resolved.methods
    cases m.body with
    | none =>
      intro _ _ _ run
      cases run
    | some e =>
      apply Keeps.seq (m := Resolved.method backend cx m.name m.formals e) _ ih
      unfold Resolved.method
      have code : (typing t).Adds 0 [] _ :=
        Tally.formals_add law slotFor_types 0 m.formals.length [] m.formals (by simp)
          fun vars held slots _ => uncounted (Tally.lower_adds law knows slots e)
      have whole := function_keeps code (Linkage.method cx.current.name m.name) m.formals.length
        m.formals.length id
      simpa only [bind_assoc, id] using whole

theorem classCode_keeps (ordinary : p.Ordinary) (h : ClassTable.build p.withBuiltins = .ok t)
    (hk : k ∈ t.classes) : Keeps t (Resolved.classCode backend ⟨t, k⟩) := by
  have law := typing_lawful (object_there ordinary h)
  unfold Resolved.classCode
  rcases ClassTable.silent_or_boxed ordinary h hk with ⟨builtin, silent⟩ | boxed
  · simp only [builtin, if_true]
    refine (initializer_keeps law hk fun i a there init => ?_).seq .nothing
    rw [silent a (List.mem_of_getElem? there)] at init
    cases init
  · have knows := typing_knows ordinary h hk boxed
    refine (initializer_keeps law hk fun i a there _ => ⟨knows, ?_⟩).seq ?_
    · have own := ClassTable.heir_attribute h hk hk .refl there
      exact declared_slot hk boxed (List.getElem?_eq_some_iff.mp own).1
    · split
      · exact .nothing
      · exact methods_keep law knows _

theorem classCodes_keep (ordinary : p.Ordinary) (h : ClassTable.build p.withBuiltins = .ok t)
    {ks : List ClassLayout} (sub : ks ⊆ t.classes) :
    Keeps t (Resolved.classCodes backend t ks) := by
  induction ks with
  | nil => exact .nothing
  | cons k ks ih =>
    obtain ⟨hk, rest⟩ := List.cons_subset.mp sub
    exact (classCode_keeps ordinary h hk).seq (ih rest)

/-- The functions of a unit are typed. -/
theorem emitUnit_typed (ordinary : p.Ordinary) (h : ClassTable.build p.withBuiltins = .ok t)
    (emitted : Lowering.emitUnit backend t = .ok s) :
    ∀ f ∈ s.target.functions.toList, Typed t f.slots f.listing := by
  have resolved := Resolved.emitUnit_of_ok h emitted
  unfold Resolved.emitUnit at resolved
  obtain ⟨⟨_, s'⟩, run, same⟩ := except_bind_ok.mp resolved
  have start : Rested t backend.start := ⟨rfl, fun f hf => by cases hf⟩
  have finished := classCodes_keep ordinary h (List.Subset.refl _) _ s' start run
  obtain ⟨-, state⟩ := Prod.mk.inj (except_pure_ok.mp same)
  rw [← state]
  exact finished.2

end Functions

end ClassBackend.Llvm
