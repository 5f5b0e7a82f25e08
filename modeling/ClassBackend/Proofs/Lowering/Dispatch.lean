import ClassBackend.Proofs.Lowering.Flow
import ClassBackend.Proofs.Meaning.Selection

/-! Method calls. The arguments are kept in slots of their own until the call takes them; a slot of
a dispatch table leads to the method that the class of the receiver has under that name. -/
namespace ClassBackend.Lowering

open Meaning

variable {B : Backend} {M : Model B} {S : Setting}
variable {l r : Lowering B B.Value} {d e : Nat} {ε η : Eval Val}

theorem Sim.assuming {α β : Type} {pre : Session B → Prop}
    {P : Session B → World → M.Config → Prop} {m : Lowering B α} {ε : Eval β}
    {post : α → Session B → Prop} {Q : α → β → Session B → World → M.Config → Prop} {p : Prop}
    (lays : Lays M pre m post) (h : p → Sim M pre P m ε post Q) :
    Sim M pre (fun s w c => P s w c ∧ p) m ε post Q :=
  ⟨lays, fun _ _ _ run hs placed _ _ hw => (h hw.2).runs run hs placed hw.1⟩

theorem Sim.unpooled {α β : Type} {Z : Scene B} {P : Session B → World → M.Config → Prop}
    {m : Lowering B α} {ε : Eval β} {post : α → Session B → Prop}
    {Q : α → β → Session B → World → M.Config → Prop} {e : Const × Literal}
    (h : Sim M (M.Sets Z) P m ε post Q) :
    Sim M (M.Sets { Z with pooled := e :: Z.pooled }) P m ε post Q :=
  h.weaken (fun _ hs => hs.trim (List.subset_cons_self ..) (List.Sublist.refl _))
    (fun _ _ _ hw => hw) (fun _ _ hs => hs) fun _ _ _ _ _ hw => hw

def argumentSlots (as : List B.Saved) : List (Slot B) := (as.map .inr).reverse

theorem Live.arguments {names : List (String × Binding B.Local)} {slots : List (Slot B)}
    {H : List (B.Saved × Val)} (live : Live names slots H) (as : List B.Saved) (xs : List Val) :
    Live names (argumentSlots as ++ slots) ((as.zip xs).reverse ++ H) where
  locals b hb := List.mem_append_right _ (live.locals b hb)
  distinct := live.distinct
  saved e he := by
    rcases List.mem_append.mp he with he | he
    · have own : e.1 ∈ as := (List.of_mem_zip (List.mem_reverse.mp he)).1
      exact List.mem_append_left _ (by simpa [argumentSlots] using own)
    · exact List.mem_append_right _ (live.saved e he)

theorem arguments_sim (law : M.Lawful S) {ls : List (Lowering B B.Value)} {εs : List (Eval Val)}
    {Z : Scene B} {H : List (B.Saved × Val)} {n : Nat} (live : Live Z.names Z.slots H)
    (h : List.Forall₂ (fun l ε => Realizes M l d ε) ls εs) (room : d ≤ n) :
    Sim M (M.Sets Z) (M.Stands (n + ls.length) Z.names Z.slots H .here [] []) (arguments B ls)
      (Meaning.arguments εs)
      (fun as s => M.Sets { Z with slots := argumentSlots as ++ Z.slots } s ∧
        as.length = ls.length)
      fun as xs s w c => M.Stands n Z.names (argumentSlots as ++ Z.slots)
        ((as.zip xs).reverse ++ H) .here [] [] s w c ∧ as.length = xs.length := by
  have ho := law.toOrdered
  induction h generalizing Z H with
  | nil => exact .ret ho (fun _ hs => ⟨hs, rfl⟩) fun _ _ _ hw => ⟨hw, rfl⟩
  | @cons l ε ls εs hl rest ih =>
    unfold arguments Meaning.arguments
    refine Sim.bind (S := S) ho (hl.sim (n := n + ls.length + 1) live (by omega))
      fun v x => .given fun _ => ?_
    refine Sim.first (S := S) ho (preserve_sim law live (List.mem_singleton_self (v, x)))
      fun a => ?_
    have saved := live.save a x
    refine Sim.bind (S := S) ho (ih (Z := { Z with slots := .inr a :: Z.slots }) saved)
      fun as xs => ?_
    have slots : argumentSlots (a :: as) ++ Z.slots = argumentSlots as ++ .inr a :: Z.slots := by
      simp [argumentSlots]
    refine .ret ho (fun s hs => ?_) fun s w c hw => ?_
    · rw [slots]
      exact ⟨hs.1, by simpa using hs.2⟩
    · rw [slots]
      simpa using hw

theorem saved_arguments {c : M.Config} {as : List B.Saved} {xs : List Val}
    {H : List (B.Saved × Val)} (same : as.length = xs.length)
    (saved : ∀ e ∈ (as.zip xs).reverse ++ H, M.slot c (.inr e.1) e.2) :
    List.Forall₂ (fun a x => M.slot c (.inr a) x) as xs := by
  refine List.forall₂_iff_zip.mpr ⟨same, fun {a x} mem => ?_⟩
  exact saved (a, x) (List.mem_append_left _ (List.mem_reverse.mpr mem))

section

variable {Z : Scene B} {H : List (B.Saved × Val)} {n : Nat}
variable {as : List B.Saved} {xs : List Val}

theorem Model.Stands.popped {s : Session B} {t : B.State} {w : World} {c c' : M.Config}
    {vs : List (B.Value × Val)} {rs : List (B.Raw × Int)} {σ : Store} {u : B.Value} {y : Val}
    (hw : M.Stands n Z.names (argumentSlots as ++ Z.slots) ((as.zip xs).reverse ++ H) .here vs rs
      s w c) (live : Live Z.names Z.slots H) (here : M.located .here t Z.slots σ c')
    (kept : M.Kept Z.slots c c') (value : M.value t c' u y) :
    M.Stands (n + as.length) Z.names Z.slots H .here [(u, y)] [] { s with target := t }
      { w with store := σ } c' where
  located := here
  room := by
    have room := hw.room
    simp only [argumentSlots, List.length_append, List.length_reverse, List.length_map] at room
    omega
  env := means_kept hw.env fun a ha => kept _ (live.locals a ha)
  saved e he := kept _ (live.saved e he) _ (hw.saved e (List.mem_append_right _ he))
  values := by simpa using value
  raws := by simp

theorem callDirect_sim (law : M.Lawful S) {label : String} {v : B.Value} {x : Val}
    (live : Live Z.names Z.slots H) (object : x ≠ .void) (same : as.length = xs.length) :
    Sim M (M.Sets { Z with slots := argumentSlots as ++ Z.slots })
      (M.Stands n Z.names (argumentSlots as ++ Z.slots) ((as.zip xs).reverse ++ H) .here
        [(v, x)] [])
      (target (B.callDirect label v as)) (invoke S label x xs)
      (fun u s => M.Sets Z s ∧ M.result u)
      fun u y => M.Stands (n + as.length) Z.names Z.slots H .here [(u, y)] [] := by
  refine .ofTarget (fun run hs => ?_) (fun run hs placed _ w c hw => ?_)
  · obtain ⟨grown, result, shape, _⟩ := law.callDirect run
    exact ⟨grown, hs.retarget law.toOrdered grown (shape hs.shape), result⟩
  · obtain ⟨_, _, _, answers⟩ := law.callDirect run
    cases x with
    | void => exact absurd rfl object
    | obj r =>
      refine answered_outcome law.wrong (answers placed hs.shape hw.located
        (hw.values _ (List.mem_singleton_self _)) (saved_arguments same hw.saved)) rfl ?_
      intro σ c' y here kept hu
      exact ⟨c', hw.popped live here kept hu⟩

/-- What a name means in the class of the receiver stands in the slot of the static class. -/
theorem lookup_outcome (built : S.Built) {static : ClassLayout}
    (known : static ∈ S.classes.classes) {method : String} {slot : Nat}
    (found : static.methodSlot method = .ok slot) {ends : Stop → Prop} (wrong : ends .wrong)
    {x : Val} {w : World} {Q : String → World → Prop}
    (h : ∀ r o k m, x = .obj r → w.store.heap[r]? = some o → k ∈ S.classes.classes →
      o.tag = k.tag → k.methods[slot]? = some m → Q m.label w) :
    Outcome ends (lookup S static x method w) Q := by
  refine Outcome.bind (object_outcome wrong fun r o hx there => ?_)
  refine Outcome.bind ?_
  cases hk : S.classes.atTag o.tag with
  | error e => exact wrong
  | ok k =>
    obtain ⟨mem, tag⟩ := built.tagged hk
    change Outcome ends ((if _ then Meaning.ofExcept (k.methodLabel method) else Meaning.wrong) w) Q
    split
    · rename_i inherits
      obtain ⟨a, ha, same⟩ := List.mem_map.mp inherits
      obtain ⟨p, built⟩ := built.program
      obtain ⟨_, up⟩ := (mem_ancestors built mem).mp ha
      rw [same] at up
      obtain ⟨m, stands, label⟩ := ClassTable.heir_slot built known mem up found
      rw [label]
      exact h r o k m hx there mem tag.symm stands
    · exact wrong

theorem callDynamic_sim (law : M.Lawful S) (live : Live Z.names Z.slots H) (built : S.Built)
    {static : ClassLayout} (known : static ∈ S.classes.classes) {method : String} {slot : Nat}
    (found : static.methodSlot method = .ok slot) {v : B.Value} {x : Val}
    (same : as.length = xs.length) :
    Sim M (M.Sets { Z with slots := argumentSlots as ++ Z.slots })
      (M.Stands n Z.names (argumentSlots as ++ Z.slots) ((as.zip xs).reverse ++ H) .here
        [(v, x)] [])
      (target (B.callDynamic v static slot as))
      (lookup S static x method >>= fun label => invoke S label x xs)
      (fun u s => M.Sets Z s ∧ M.result u)
      fun u y => M.Stands (n + as.length) Z.names Z.slots H .here [(u, y)] [] := by
  refine .ofTarget (fun run hs => ?_) (fun run hs placed _ w c hw => ?_)
  · obtain ⟨grown, result, shape, _⟩ := law.callDynamic run
    exact ⟨grown, hs.retarget law.toOrdered grown (shape hs.shape), result⟩
  · obtain ⟨_, _, _, answers⟩ := law.callDynamic run
    refine Outcome.bind (lookup_outcome built known found law.wrong ?_)
    intro r o k m hx there mem tag stands
    subst hx
    refine answered_outcome law.wrong (answers placed mem stands hs.shape hw.located
      (hw.values _ (List.mem_singleton_self _)) there tag (saved_arguments same hw.saved)) rfl ?_
    intro σ c' y here kept hu
    exact ⟨c', hw.popped live here kept hu⟩

/-- The call itself, when its receiver is an object. -/
theorem invocation_sim (law : M.Lawful S) (live : Live Z.names Z.slots H) (built : S.Built)
    (receiverType : String)
    (staticType : Option String) (method : String) {v : B.Value} {x : Val} (object : x ≠ .void)
    (same : as.length = xs.length) {e : Const × Literal} :
    Sim M (M.Sets { Z with slots := argumentSlots as ++ Z.slots, pooled := e :: Z.pooled })
      (M.Stands n Z.names (argumentSlots as ++ Z.slots) ((as.zip xs).reverse ++ H) .here
        [(v, x)] [])
      (match staticType with
      | some ty => do
        let cls ← ofExcept (S.classes.find ty)
        let label ← ofExcept (cls.methodLabel method)
        target (B.callDirect label v as)
      | none => do
        let cls ← ofExcept (S.classes.resolve receiverType S.current)
        let slot ← ofExcept (cls.methodSlot method)
        target (B.callDynamic v cls slot as))
      (match staticType with
      | some ty => do
        let cls ← Meaning.ofExcept (S.classes.find ty)
        invoke S (← Meaning.ofExcept (cls.methodLabel method)) x xs
      | none => do
        let cls ← Meaning.ofExcept (S.classes.resolve receiverType S.current)
        invoke S (← lookup S cls x method) x xs)
      (fun u s => M.Sets Z s ∧ M.result u)
      fun u y => M.Stands (n + as.length) Z.names Z.slots H .here [(u, y)] [] := by
  refine Sim.unpooled (Z := { Z with slots := argumentSlots as ++ Z.slots }) ?_
  cases staticType with
  | some ty => exact .find fun k _ => .find fun label _ => callDirect_sim law live object same
  | none =>
    refine .find fun k found => ?_
    have known : k ∈ S.classes.classes := by
      unfold ClassTable.resolve at found
      split at found
      · cases found
        exact built.current
      · exact ClassTable.mem_of_find found
    cases slotOf : k.methodSlot method with
    | ok slot => exact callDynamic_sim law live built known slotOf same
    | error e =>
      refine ⟨fun _ _ _ run => ?_, fun _ _ _ run => ?_⟩ <;>
      · obtain ⟨_, _, first, _⟩ := bind_ok.mp run
        cases (ofExcept_ok.mp first).1

theorem dispatch_realizes (law : M.Lawful S) (built : S.Built) (line : UInt64)
    (receiverType : String) (staticType : Option String) (method : String)
    (hr : Realizes M r d η) {ls : List (Lowering B B.Value)} {εs : List (Eval Val)}
    (h : List.Forall₂ (fun l ε => Realizes M l d ε) ls εs) :
    Realizes M (Lowering.dispatch B S.context line receiverType r staticType method ls)
      (d + ls.length) (Meaning.dispatch S line receiverType η staticType method εs) := by
  intro Z H n live room
  have ho := law.toOrdered
  obtain ⟨k, rfl⟩ : ∃ k, n = k + ls.length := ⟨n - ls.length, by omega⟩
  unfold Lowering.dispatch Meaning.dispatch
  refine Sim.first (S := S) ho (pooled_sim ho (string_pooled S.current.fileName)) fun file => ?_
  let Y : Scene B := { Z with pooled := (file, .str S.current.fileName) :: Z.pooled }
  refine Sim.bind (S := S) ho (arguments_sim (Z := Y) law live h (by omega)) fun as xs =>
    .given fun all => ?_
  rw [← all]
  have outer (xs : List Val) (same : as.length = xs.length) :=
    Sim.bind (S := S) ho (hr (Z := { Y with slots := argumentSlots as ++ Y.slots }) (n := k)
      (live.arguments as xs) (by omega)) fun v x =>
      .given fun _ => guarded_sim law (live.arguments as xs) "dispatch_void" "dispatch_call"
        .dispatchOnVoid line (List.mem_cons_self ..)
        (invocation_sim (Z := Z) (n := k) (x := .obj 0) law live built receiverType staticType
          method (by simp) same).lays
        fun object => invocation_sim (Z := Z) (n := k) law live built receiverType staticType
          method object same
  exact .assuming (outer (as.map fun _ => .void) (by simp)).lays (outer xs)

end

end ClassBackend.Lowering
