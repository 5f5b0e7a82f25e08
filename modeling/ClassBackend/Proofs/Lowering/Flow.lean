import ClassBackend.Proofs.Lowering.Names

/-! Forms of expression that put one part after another: sequences, conditionals and loops. -/
namespace ClassBackend.Lowering

open Meaning

variable {B : Backend} {M : Model B} {S : Setting}
variable {l r : Lowering B B.Value} {d e : Nat} {ε η : Eval Val}

theorem Realizes.mono (h : Realizes M l d ε) (more : d ≤ e) : Realizes M l e ε :=
  fun _ _ _ live room => h live (Nat.le_trans more room)

theorem sequence_realizes (law : M.Lawful S) {ls : List (Lowering B B.Value)}
    {εs : List (Eval Val)} (h : List.Forall₂ (fun l ε => Realizes M l d ε) ls εs) :
    Realizes M (Lowering.sequence B ls) d (Meaning.sequence εs) := by
  induction h with
  | nil => exact (void_realizes law).mono (Nat.zero_le d)
  | @cons l ε ls εs hl rest ih =>
    cases rest with
    | nil => exact hl
    | cons hr rest =>
      intro Z H n live room
      unfold Lowering.sequence Meaning.sequence
      refine Sim.bind (S := S) law.toOrdered (hl.sim live room) fun v x => .given fun _ => ?_
      exact ih.sim live room

theorem cond_realizes (law : M.Lawful S) (plain : M.Lives → S.Plain) {p : Lowering B B.Value}
    {ρ : Eval Val} (hp : Realizes M p d ρ) (hl : Realizes M l d ε) (hr : Realizes M r d η) :
    Realizes M (Lowering.cond B S.context p l r) d (Meaning.cond S ρ ε η) := by
  intro Z H n live room
  have ho := law.toOrdered
  unfold Lowering.cond Meaning.cond
  refine Sim.bind (S := S) ho (hp.sim live room) fun v x => .given fun _ => ?_
  refine .find fun bool found => ?_
  refine Sim.unboxed law live (fun lives => (plain lives).bool bool found)
    (List.mem_singleton_self (v, x))
    fun a i loaded => ?_
  refine Sim.first (S := S) ho (rawWord_sim law law.truth) fun truth => ?_
  refine Sim.first (S := S) ho (newBlock_sim law _) fun yes => ?_
  refine Sim.first (S := S) ho (newBlock_sim law _) fun no => ?_
  refine Sim.first (S := S) ho (newBlock_sim law _) fun join => ?_
  refine Sim.bind (S := S) ho
    (branchRaw_sim law ‹_› .eq (List.mem_cons_of_mem _ (List.mem_singleton_self (a, i)))
      (List.mem_cons_self (a := (truth, 1))) loaded yes no) fun _ _ => ?_
  have value : (if i = 1 then ε else η) = if holds .eq i 1 then ε else η := by simp [holds]
  rw [value]
  exact join_sim law ‹_› hl hr room room ((List.reverse_perm [yes, no, join]).append_right _) _

theorem guarded_sim (law : M.Lawful S) {Z : Scene B} {H : List (B.Saved × Val)} {n : Nat}
    (live : Live Z.names Z.slots H) (void there : String) (kind : AbortKind) (line : UInt64)
    {file : Const} (known : (file, .str S.current.fileName) ∈ Z.pooled) {v : B.Value} {x : Val}
    {post : B.Value → Session B → Prop}
    {Q : B.Value → Val → Session B → World → M.Config → Prop} (lays : Lays M (M.Sets Z) l post)
    (object : x ≠ .void → Sim M (M.Sets Z) (M.Stands n Z.names Z.slots H .here [(v, x)] []) l ε
      post Q) :
    Sim M (M.Sets Z) (M.Stands n Z.names Z.slots H .here [(v, x)] [])
      (do
        let onVoid ← target (B.newBlock void)
        let onward ← target (B.newBlock there)
        target (B.branchVoid v onVoid onward)
        target (B.switchTo onVoid)
        target (B.abort kind file line)
        target (B.switchTo onward)
        l)
      (do
        decided (x = .void)
        if x = .void then Meaning.abort S kind line else ε) post Q := by
  have ho := law.toOrdered
  refine Sim.first (S := S) ho (newBlock_sim law _) fun onVoid => ?_
  refine Sim.first (S := S) ho (newBlock_sim law _) fun onward => ?_
  refine Sim.bind (S := S) ho
    (branchVoid_sim law ‹_› (List.mem_singleton_self (v, x)) onVoid onward) fun _ _ => ?_
  have order := List.Perm.swap onVoid onward Z.opened
  by_cases void : x = .void
  · simp only [void, if_true]
    refine Sim.first (S := S) ho (switchTo_sim law live order) fun _ => ?_
    refine Sim.last ho (abort_sim law known) fun _ => ?_
    exact (switchTo_lays law (.refl _)).bind ho fun _ => lays
  · simp only [void, if_false]
    refine Sim.first (S := S) ho (.skip ho (by simp) (switchTo_lays law order)) fun _ => ?_
    refine Sim.first (S := S) ho (.skip ho (by simp) (abort_lays law _ _ _)) fun _ => ?_
    refine Sim.first (S := S) ho (switchTo_sim law live (.refl _)) fun _ => ?_
    exact object void

def loopTest (S : Setting) (pred : Eval Val) : Eval Bool := do
  let p ← pred
  let _ ← Meaning.boolClass S
  let b ← Meaning.unbox p
  decided (b = 1)
  pure (b = 1)

theorem loop_succ (S : Setting) (pred body : Eval Val) (rounds : Nat) :
    Meaning.loop S pred body (rounds + 1) =
      loopTest S pred >>= fun b =>
        if b then body >>= fun _ => Meaning.loop S pred body rounds else pure .void := by
  simp only [Meaning.loop, loopTest, bind_assoc, pure_bind, decide_eq_true_eq]

theorem Model.Stands.elsewhere (ho : M.Ordered S) {names : List (String × Binding B.Local)}
    {slots : List (Slot B)} {H : List (B.Saved × Val)} {n : Nat} {b : BlockName}
    {s : Session B} {w : World} {c : M.Config}
    {s' : Session B} (firm : M.firm s'.target slots)
    (h : M.Stands n names slots H (.block b) [] [] s w c) :
    M.Stands n names slots H (.block b) [] [] s' w c :=
  ⟨ho.block firm h.located, h.room, h.env, h.saved, by simp, by simp⟩

/-- A loop of three pieces: the test, the body, and what comes after. Each round goes through the
code of the first two again. -/
theorem rounds_sim (ho : M.Ordered S) {pre mid₁ mid₂ : Session B → Prop}
    {post : B.Value → Session B → Prop} {test body : Lowering B Unit} {rest : Lowering B B.Value}
    {names : List (String × Binding B.Local)} {slots : List (Slot B)}
    {H : List (B.Saved × Val)} {n : Nat} {header looping tail : BlockName}
    {Q : B.Value → Val → Session B → World → M.Config → Prop}
    (htest : Sim M pre (M.Stands n names slots H (.block header) [] []) test (loopTest S ε)
      (fun _ => mid₁)
      fun _ b => M.Stands n names slots H (.block (if b then looping else tail)) [] [])
    (hbody : Sim M mid₁ (M.Stands n names slots H (.block looping) [] []) body η
      (fun _ => mid₂) fun _ _ => M.Stands n names slots H (.block header) [] [])
    (hrest : Sim M mid₂ (M.Stands n names slots H (.block tail) [] []) rest (pure .void) post Q)
    (rounds : Nat) :
    Sim M pre (M.Stands n names slots H (.block header) [] [])
      (do test; body; rest) (Meaning.loop S ε η rounds) post Q := by
  refine ⟨htest.lays.bind ho fun _ => hbody.lays.bind ho fun _ => hrest.lays, ?_⟩
  intro s v s₃ run hs placed
  obtain ⟨_, s₁, run₁, later⟩ := bind_ok.mp run
  obtain ⟨_, s₂, run₂, run₃⟩ := bind_ok.mp later
  obtain ⟨grown₁, hs₁⟩ := htest.lays run₁ hs
  obtain ⟨grown₂, hs₂⟩ := hbody.lays run₂ hs₁
  obtain ⟨grown₃, _⟩ := hrest.lays run₃ hs₂
  obtain ⟨placed₁, placed'⟩ := ho.split placed.1 grown₁.1 (ho.trans grown₂.1 grown₃.1)
  obtain ⟨placed₂, placed₃⟩ := ho.split placed' grown₂.1 grown₃.1
  have pool₂ : PoolLe s₂.pool M.pool := grown₃.2.trans placed.2
  -- the induction is on the rounds that are left; the code is the same in each
  induction rounds with
  | zero => exact fun w c hw => ho.pause hw.located
  | succ rounds ih =>
    intro w c hw
    rw [loop_succ]
    refine Outcome.bind ((htest.runs run₁ hs ⟨placed₁, grown₂.2.trans pool₂⟩ hw).mono ?_)
    rintro b w₁ ⟨c₁, hc₁⟩
    cases b with
    | true =>
      refine Outcome.bind ((hbody.runs run₂ hs₁ ⟨placed₂, pool₂⟩ hc₁).mono ?_)
      rintro x w₂ ⟨c₂, hc₂⟩
      exact ih (hc₂.elsewhere ho (ho.firm hw.located))
    | false =>
      have waits := ho.waits (by simp) grown₂.1 hc₁.located
      exact hrest.runs run₃ hs₂ ⟨placed₃, placed.2⟩ (hc₁.elsewhere ho (ho.firm waits))

theorem loop_realizes (law : M.Lawful S) (plain : M.Lives → S.Plain) (rounds : Nat)
    (hl : Realizes M l d ε) (hr : Realizes M r d η) :
    Realizes M (Lowering.loop B S.context l r) d (Meaning.loop S ε η rounds) := by
  intro Z H n live room
  have ho := law.toOrdered
  unfold Lowering.loop
  refine Sim.first (S := S) ho (newBlock_sim law _) fun header => ?_
  refine Sim.first (S := S) ho (newBlock_sim law _) fun looping => ?_
  refine Sim.first (S := S) ho (newBlock_sim law _) fun tail => ?_
  refine Sim.first (S := S) ho (jump_sim law ‹_› header) fun _ => ?_
  have test : Sim M (M.Sets { Z with opened := tail :: looping :: header :: Z.opened })
      (M.Stands n Z.names Z.slots H (.block header) [] [])
      (do
        target (B.switchTo header)
        let p ← l
        let bool ← Lowering.boolClass B S.context
        let raw ← target (B.unbox p bool)
        let truth ← target (B.rawWord 1)
        target (B.branchRaw .eq raw truth looping tail))
      (loopTest S ε) (fun _ => M.Sets { Z with opened := tail :: looping :: Z.opened })
      fun _ b => M.Stands n Z.names Z.slots H (.block (if b then looping else tail)) [] [] := by
    unfold loopTest
    have order : ([tail, looping] ++ [header]).Perm ([header] ++ [tail, looping]) :=
      List.perm_append_comm
    refine Sim.first (S := S) ho (switchTo_sim law live (order.append_right _)) fun _ => ?_
    refine Sim.bind (S := S) ho (hl.sim ‹_› room) fun v x => .given fun _ => ?_
    refine .find fun bool found => ?_
    refine Sim.unboxed law ‹_› (fun lives => (plain lives).bool bool found)
      (List.mem_singleton_self (v, x))
      fun a i loaded => ?_
    refine Sim.first (S := S) ho (rawWord_sim law law.truth) fun truth => ?_
    rw [← bind_pure (target (B.branchRaw .eq a truth looping tail))]
    refine Sim.bind (S := S) ho
      (branchRaw_sim law ‹_› .eq (List.mem_cons_of_mem _ (List.mem_singleton_self (a, i)))
        (List.mem_cons_self (a := (truth, 1))) loaded looping tail) fun _ _ => ?_
    exact .ret ho (fun _ hs => hs) fun _ _ _ hw => hw.drop (by simp) (by simp)
  have body : Sim M (M.Sets { Z with opened := tail :: looping :: Z.opened })
      (M.Stands n Z.names Z.slots H (.block looping) [] [])
      (do
        target (B.switchTo looping)
        let _ ← r
        target (B.jump header))
      η (fun _ => M.Sets { Z with opened := tail :: Z.opened })
      fun _ _ => M.Stands n Z.names Z.slots H (.block header) [] [] := by
    rw [← bind_pure η]
    refine Sim.first (S := S) ho (switchTo_sim law live (.swap looping tail Z.opened)) fun _ => ?_
    refine Sim.bind (S := S) ho (hr.sim live room) fun v x => .given fun _ => ?_
    have jump : Sim M (M.Sets { Z with opened := tail :: Z.opened })
        (M.Stands n Z.names Z.slots H .here [] []) (target (B.jump header)) (pure ())
        (fun _ => M.Sets { Z with opened := tail :: Z.opened })
        fun _ _ => M.Stands n Z.names Z.slots H (.block header) [] [] :=
      jump_sim (Z := { Z with opened := tail :: Z.opened }) law live header
    exact ⟨jump.lays, fun _ _ _ run hs placed _ _ hw =>
      jump.runs run hs placed (hw.drop (by simp) (List.nil_subset _))⟩
  have rest : Sim M (M.Sets { Z with opened := tail :: Z.opened })
      (M.Stands n Z.names Z.slots H (.block tail) [] [])
      (do
        target (B.switchTo tail)
        pure B.voidValue)
      (pure .void) (fun v s => M.Sets Z s ∧ M.result v)
      fun v x => M.Stands n Z.names Z.slots H .here [(v, x)] [] := by
    refine Sim.first (S := S) ho (switchTo_sim law ‹_› (.refl _)) fun _ => ?_
    exact (void_realizes law).sim live (Nat.zero_le n)
  simpa only [bind_assoc] using rounds_sim ho test body rest rounds

end ClassBackend.Lowering
