import ClassBackend.Proofs.Llvm.Model
import ClassBackend.Proofs.Llvm.Steps

/-! From the end of the code so far to the end of new code. -/
namespace ClassBackend.Llvm

open Meaning Machine Lowering

section Bodies

variable {n : Nat} {b : Body} {is : List Instr} {last : Bool} {l : Label}

theorem Builder.labels_eq (b : Body) :
    b.labels = b.closed.toList.map (·.label) ++ [b.current.label] := by
  simp [Builder.labels, Builder.blocks]

@[simp] theorem Builder.labels_extend : (b.extend is last).labels = b.labels := by
  simp [Builder.labels_eq]

theorem Builder.labels_opened : (b.opened l).labels = b.labels ++ [l] := by
  have same : (if b.current.terminated then b.current
      else (b.extend [.br l] true).current).label = b.current.label := by
    split <;> rfl
  simp only [Builder.labels_eq, Builder.opened, Array.toList_push, List.map_append, List.map_cons,
    List.map_nil, same]

theorem Builder.instr?_current (nodup : b.labels.Nodup) (k : Nat) :
    b.instr? b.current.label k = b.current.instrs[k]? := by
  rw [Builder.labels_eq, List.nodup_append] at nodup
  have absent : b.closed.toList.find? (·.label = b.current.label) = none := by
    refine List.find?_eq_none.mpr fun d hd same => ?_
    refine nodup.2.2 _ (List.mem_map.mpr ⟨d, hd, rfl⟩) b.current.label (by simp) ?_
    simpa using same
  simp [Builder.instr?, Builder.blocks, List.find?_append, absent]

theorem within_extend (unclosed : b.current.terminated = false) :
    Within n b (b.extend is last) := by
  refine ⟨fun l k i hi => ?_, fun l hl => ?_, fun _ h => h, fun _ h => .inl h⟩
  · simp only [Builder.instr?, Builder.blocks, Builder.extend_closed, List.find?_append] at hi ⊢
    cases found : b.closed.toList.find? (·.label = l) with
    | some d =>
      rw [found] at hi
      exact hi
    | none =>
      rw [found, Option.none_or] at hi
      rw [Option.none_or]
      by_cases here : b.current.label = l
      · simp only [List.find?_cons, here, decide_true, Option.bind_some] at hi
        simp only [List.find?_cons, here, decide_true, Option.bind_some,
          Builder.extend]
        rw [Array.getElem?_append_left (Array.getElem?_eq_some_iff.mp hi).1]
        exact hi
      · simp [here] at hi
  · obtain ⟨d, hd, label, closed⟩ := hl
    refine ⟨d, ?_, label, closed⟩
    simp only [Builder.blocks, Builder.extend_closed, List.mem_append, List.mem_singleton] at hd ⊢
    rcases hd with hd | rfl
    · exact .inl hd
    · rw [unclosed] at closed
      contradiction

theorem within_opened : Within n b (b.opened l) := by
  have closed : ∀ {d : Body}, Within n d
      { d with closed := d.closed.push d.current, current := { label := l } } := by
    intro d
    refine ⟨fun l' k i hi => ?_, fun l' hl => ?_, fun _ h => h, fun _ h => .inl h⟩
    · simp only [Builder.instr?, Builder.blocks, Array.toList_push] at hi ⊢
      rw [List.find?_append]
      cases found : (d.closed.toList ++ [d.current]).find? (·.label = l') with
      | some q =>
        rw [found] at hi
        exact hi
      | none =>
        rw [found] at hi
        cases hi
    · obtain ⟨q, hq, rest⟩ := hl
      refine ⟨q, ?_, rest⟩
      simp only [Builder.blocks, Array.toList_push, List.mem_append] at hq ⊢
      exact .inl hq
  unfold Builder.opened
  cases h : b.current.terminated with
  | true => exact closed
  | false =>
    have ended : Within n b (b.extend [.br l] true) := within_extend h
    exact ended.trans (Nat.le_refl _) closed

end Bodies

variable {t t' t'' : State} {K K' : List (Slot backend)} {O : List BlockName}
variable {is js : List Instr} {last : Bool}

theorem Adds.le (h : Adds t is last t') : State.Le t t' := by
  obtain ⟨b, open_, unclosed, there⟩ := h.body
  refine ⟨h.next, fun d open' => ⟨_, there, ?_⟩⟩
  cases open_.symm.trans open'
  exact within_extend unclosed

theorem Formed.mono {n m : Nat} {b : Body} (le : n ≤ m) (h : Formed n b) : Formed m b :=
  ⟨fun d hd => Nat.lt_of_lt_of_le (h.labels d hd) le, h.nodup,
    fun q hq => Nat.lt_of_lt_of_le (h.allocas q hq) le⟩

theorem Adds.shape (h : Adds t is last t') (shape : Shape t K O) : Shape t' K O := by
  obtain ⟨b, open_, unclosed, there⟩ := h.body
  obtain ⟨d, open', formed, slots, absent⟩ := shape.body
  cases open_.symm.trans open'
  refine ⟨⟨_, there, ?_, slots, ?_⟩, fun d hd => ?_, shape.nodup⟩
  · have grown := formed.mono h.next
    exact ⟨by simpa using grown.labels, by simpa using grown.nodup, grown.allocas⟩
  · simpa using absent
  · exact Nat.lt_of_lt_of_le (shape.opened d hd) h.next

namespace Scenario

variable {X : Scenario} {N : Nat} {σ : Store} {c : Point}

theorem code_of_placed {b : Body} (placed : X.Placed t t') (adds : Adds t is last t')
    (shape : Shape t K O) (open_ : t.body? = some b) :
    X.Code b.current.label b.current.instrs.size is := by
  obtain ⟨b', d, open', there, within, allowed⟩ := placed
  cases open_.symm.trans open'
  obtain ⟨d', open'', unclosed, there'⟩ := adds.body
  cases open_.symm.trans open''
  cases there.symm.trans there'
  obtain ⟨d'', open''', formed, _, _⟩ := shape.body
  cases open_.symm.trans open'''
  have nodup : (b.extend is last).labels.Nodup := by simpa using formed.nodup
  intro j i hi
  have new : (b.extend is last).instr? b.current.label (b.current.instrs.size + j) = some i := by
    have label : (b.extend is last).current.label = b.current.label := Builder.extend_label
    rw [← label, Builder.instr?_current nodup]
    simp only [Builder.extend]
    rw [Array.getElem?_append_right (Nat.le_add_right ..), Nat.add_sub_cancel_left]
    simpa using hi
  have old : b.instr? b.current.label (b.current.instrs.size + j) = none := by
    rw [Builder.instr?_current formed.nodup]
    simp
  exact ⟨within.code _ _ _ new, allowed _ _ (by rw [new]; rfl) old⟩

theorem Located.code (h : X.Located .here t K σ c) (placed : X.Placed t t')
    (adds : Adds t is last t') (shape : Shape t K O) :
    X.Code c.config.label c.config.index is := by
  obtain ⟨b, open_, label, index⟩ := h.at_
  rw [label, index]
  exact code_of_placed placed adds shape open_

theorem spared (placed : X.Placed t t') (adds : Adds t is last t') (shape : Shape t K O) :
    ∀ q ∈ X.site.body.allocas, ∀ rhs, Instr.assign q rhs ∉ is := by
  obtain ⟨_, d, _, there, within, _⟩ := placed
  obtain ⟨b, open_, _, there'⟩ := adds.body
  cases there.symm.trans there'
  obtain ⟨b', open', formed, _, _⟩ := shape.body
  cases open_.symm.trans open'
  intro q hq rhs mem
  have assigned := adds.assigned q rhs mem
  rcases within.fresh q hq with old | new
  · have := formed.allocas q old
    omega
  · omega

variable {s' : Config}

theorem Ready.quiet (h : X.Ready c) (code : X.Code c.config.label c.config.index is)
    (run : X.site.exec is c.config = some s')
    (spared : ∀ q ∈ X.site.body.allocas, ∀ rhs, Instr.assign q rhs ∉ is) :
    X.Ready ⟨c.seen, s', c.view⟩ := by
  obtain ⟨_, _, _, memory, temps⟩ := X.site.exec_frame run
  refine ⟨run_quiet code run h.along, ?_, ?_, ?_, h.self⟩
  · change X.course.Held c.view s'.memory
    rw [memory]
    exact h.held
  · intro a x hx
    change s'.memory a = some x
    rw [memory]
    exact h.image a x hx
  · intro q hq
    exact (temps q (spared q hq)).trans (h.allocas q hq)

variable (X) in
/-- What was there before the new code is still there. -/
structure Later (t : State) (c c' : Point) : Prop where
  grown : c.view.Extends c'.view
  temps : ∀ q, q.id < t.fresh.next → c'.config.temps q = c.config.temps q
  slots : ∀ q ∈ X.site.body.allocas,
    c'.config.memory (X.slotAt q) = c.config.memory (X.slotAt q)

theorem Later.trans {c' c'' : Point} (h : X.Later t c c') (k : X.Later t c' c'') :
    X.Later t c c'' :=
  ⟨h.grown.trans k.grown, fun q hq => (k.temps q hq).trans (h.temps q hq),
    fun q hq => (k.slots q hq).trans (h.slots q hq)⟩

theorem Later.since {c' : Point} (le : t.fresh.next ≤ t'.fresh.next) (h : X.Later t' c c') :
    X.Later t c c' :=
  ⟨h.grown, fun q hq => h.temps q (Nat.lt_of_lt_of_le hq le), h.slots⟩

theorem Later.eval {c' : Point} (h : X.Later t c c') {v : Operand} (below : v.Below t.fresh.next) :
    X.eval c' v = X.eval c v := by
  cases v with
  | temp q => exact h.temps q below
  | self | arg | const | symbol | null | int => rfl

theorem Later.quiet (run : X.site.exec is c.config = some s')
    (fresh : ∀ q rhs, Instr.assign q rhs ∈ is → t.fresh.next ≤ q.id) :
    X.Later t c ⟨c.seen, s', c.view⟩ := by
  obtain ⟨_, _, _, memory, temps⟩ := X.site.exec_frame run
  refine ⟨.refl, fun q hq => temps q fun rhs mem => ?_, fun q _ => by rw [memory]⟩
  have := fresh q rhs mem
  omega

theorem Later.value {c' : Point} (h : X.Later t c c') {v : Operand} {x : Val}
    (hv : v.Below t.fresh.next ∧ c.view.Rep x (X.eval c v)) :
    v.Below t.fresh.next ∧ c'.view.Rep x (X.eval c' v) := by
  refine ⟨hv.1, ?_⟩
  rw [h.eval hv.1]
  exact hv.2.mono h.grown

theorem slot_alloca (shape : Shape t K O) (le : State.Le t t') (placed : X.Placed t t')
    {a : Operand} (mem : .inl a ∈ K) :
    ∃ q ∈ X.site.body.allocas, a = .temp q ∧ q.id < t.fresh.next := by
  obtain ⟨b, open_, formed, slots, _⟩ := shape.body
  obtain ⟨q, hq, rfl⟩ := slots a mem
  obtain ⟨d, open', first⟩ := le.2 b open_
  obtain ⟨_, d', _, there, within, _⟩ := placed
  cases open'.symm.trans there
  exact ⟨q, within.kept q (first.kept q hq), rfl, formed.allocas q hq⟩

theorem Later.kept {p : Spot backend} {c' : Point} (h : X.Later t c c') (shape : Shape t K O)
    (le : State.Le t t') (placed : X.Placed t t') (located : X.Located p t K σ c) :
    (X.model N).Kept K c c' := by
  intro s hs x slot
  cases s with
  | inl a =>
    obtain ⟨q, hq, rfl, below⟩ := slot_alloca shape le placed hs
    obtain ⟨y, hy, rep⟩ := slot
    refine ⟨y, ?_, rep.mono h.grown⟩
    have same : X.eval c (.temp q) = X.slotAt q := located.allocas q hq
    rw [h.eval (show Operand.Below _ (.temp q) from below), same, h.slots q hq, ← same]
    exact hy
  | inr v => exact (h.value ⟨located.firm v hs, slot⟩).2

variable (X) in
/-- The run comes to the end of the new code. -/
def Goes (t t' : State) (K : List (Slot backend)) (σ : Store) (c : Point) (Q : Point → Prop) :
    Prop :=
  ∃ c', X.Located .here t' K σ c' ∧ X.Later t c c' ∧ Q c'

theorem Goes.moves {σ' : Store} {Q R : Point → Prop} (h : X.Goes t t' K σ' c Q)
    (shape : Shape t K O) (le : State.Le t t') (placed : X.Placed t t')
    (located : X.Located .here t K σ c) (imp : ∀ c', X.Later t c c' → Q c' → R c') :
    (X.model N).Moves K t' σ' c R := by
  obtain ⟨c', there, later, q⟩ := h
  exact ⟨c', there, later.kept shape le placed located, imp c' later q⟩

theorem Later.values {c' : Point} (h : X.Later t c c') (le : State.Le t t') :
    (X.model N).Values t t' c c' := by
  intro v x hv
  have := h.value hv
  exact ⟨this.1.mono le.1, this.2⟩

theorem Later.raws {c' : Point} (h : X.Later t c c') (le : State.Le t t') :
    (X.model N).Raws t t' c c' := by
  intro r n hr
  refine ⟨hr.1.mono le.1, ?_⟩
  rw [h.eval hr.1]
  exact hr.2

theorem Located.arrive {σ' : Store} {c' : Point} (h : X.Located .here t K σ c)
    (adds : Adds t is last t') (ready : X.Ready c')
    (label : c'.config.label = c.config.label)
    (index : c'.config.index = c.config.index + is.length) (store : c'.view.store = σ') :
    X.Located .here t' K σ' c' := by
  refine ⟨ready, store, fun v hv => (h.firm v hv).mono adds.next, ?_⟩
  obtain ⟨b, open_, at_label, at_index⟩ := h.at_
  obtain ⟨d, open', _, there⟩ := adds.body
  cases open_.symm.trans open'
  refine ⟨_, there, label.trans at_label, ?_⟩
  rw [index, at_index]
  simp [Builder.extend]

theorem goes_quiet (h : X.Located .here t K σ c) (placed : X.Placed t t')
    (adds : Adds t is false t') (shape : Shape t K O)
    (run : X.site.exec is c.config = some s') {Q : Point → Prop} (q : Q ⟨c.seen, s', c.view⟩) :
    X.Goes t t' K σ c Q := by
  have ready := h.toReady.quiet (h.code placed adds shape) run (spared placed adds shape)
  obtain ⟨label, index, _⟩ := X.site.exec_frame run
  exact ⟨_, h.arrive adds ready label index h.store,
    .quiet run fun q rhs mem => (adds.assigned q rhs mem).1, q⟩

theorem Ready.slot (framed : X.Framed) (h : X.Ready c) {ty : Ty} {v p : Operand} {q : Temp}
    (code : X.Code c.config.label c.config.index (.store ty v p :: is))
    (mem : q ∈ X.site.body.allocas) (address : X.eval c p = X.slotAt q) :
    X.Ready ⟨c.seen, c.config.write (X.slotAt q) (X.eval c v), c.view⟩ := by
  have reserved : X.geometry.reserved (X.slotAt q) := .inl ⟨q, mem, rfl⟩
  have step := step_store code address (h.held.kept _ reserved)
  refine ⟨.keeps h.along code.head.2 step reserved, ?_, ?_, h.allocas, h.self⟩
  · refine h.held.other (fun a free => ?_) fun a used => ?_
    · refine Function.update_of_ne (fun same : a = X.slotAt q => free ?_) _ _
      rw [same]
      exact reserved
    · change (Function.update c.config.memory (X.slotAt q) _ a).isSome
      by_cases same : a = X.slotAt q
      · rw [same, Function.update_self]
        rfl
      · rw [Function.update_of_ne same]
        exact h.held.kept a used
  · intro a x hx
    have differ : a ≠ X.slotAt q := by
      intro same
      rw [same, framed.apart q mem] at hx
      cases hx
    exact (Function.update_of_ne differ _ _).trans (h.image a x hx)

theorem Ready.object (h : X.Ready c) {a : BitVec 64} {p i : Nat} {d : Cell} {W : View 64}
    {x : BitVec 64} (inside : c.view.Inside p (headerWords + i))
    (address : a = X.geometry.word (c.view.place p) (headerWords + i))
    (view : W = c.view.setCell p i d)
    (along : X.course.Along c.seen (c.config.write a x) W)
    (held : X.course.Held W (Function.update c.config.memory a (some x))) :
    X.Ready ⟨c.seen, c.config.write a x, W⟩ ∧ X.Later t c ⟨c.seen, c.config.write a x, W⟩ := by
  subst address view
  have clear := h.held.clear p _ inside
  refine ⟨⟨along, held, fun b y hy => ?_, h.allocas, h.self⟩,
    View.extends_setCell .., fun _ _ => rfl, fun q hq => ?_⟩
  · have differ : b ≠ X.geometry.word (c.view.place p) (headerWords + i) := by
      intro same
      refine clear (.inr ?_)
      change (X.image (X.geometry.word (c.view.place p) (headerWords + i))).isSome
      rw [← same, hy]
      rfl
    exact (Function.update_of_ne differ _ _).trans (h.image b y hy)
  · exact Function.update_of_ne (fun same => clear (.inl ⟨q, hq, same.symm⟩)) _ _

theorem Ready.field (h : X.Ready c) {ty : Ty} {v p : Operand} {r i : Nat} {o : Obj} {d : Cell}
    {x : Val} (code : X.Code c.config.label c.config.index (.store ty v p :: is))
    (address : X.eval c p = X.geometry.word (c.view.place r) (headerWords + i))
    (found : c.view.store.heap[r]? = some o) (hd : o.cells[i]? = some d) (pointer : d.isPointer)
    (rep : c.view.Rep x (X.eval c v)) :
    X.Ready ⟨c.seen, c.config.write (X.eval c p) (X.eval c v), c.view.setCell r i (.ref x)⟩ ∧
      X.Later t c
        ⟨c.seen, c.config.write (X.eval c p) (X.eval c v), c.view.setCell r i (.ref x)⟩ := by
  have inside := View.inside_cell found hd
  have step := step_store code rfl (show (c.config.memory (X.eval c p)).isSome by
    rw [address]
    exact h.held.mapped r _ inside)
  refine h.object inside address rfl ?_ ?_
  · refine .stores h.along code.head.2 (x := X.eval c v) ?_ found hd pointer rep
    change _ = Progress.writes (X.geometry.word (c.view.place r) (headerWords + i)) _ _
    rw [← address]
    exact step
  · rw [address]
    exact h.held.setCell found hd pointer rep

theorem Ready.box (h : X.Ready c) {ty : Ty} {v p : Operand} {r : Nat} {int : ClassLayout}
    (code : X.Code c.config.label c.config.index (.store ty v p :: is))
    (address : X.eval c p = X.geometry.word (c.view.place r) headerWords)
    (known : X.setting.classes.find Builtin.intName = .ok int)
    (found : c.view.store.heap[r]? = some ⟨int.tag, [.unset]⟩) :
    X.Ready ⟨c.seen, c.config.write (X.eval c p) (X.eval c v),
        c.view.setCell r 0 (.word (X.eval c v).toInt)⟩ ∧
      X.Later t c ⟨c.seen, c.config.write (X.eval c p) (X.eval c v),
        c.view.setCell r 0 (.word (X.eval c v).toInt)⟩ := by
  have inside := View.inside_cell (i := 0) found rfl
  have step := step_store code rfl (show (c.config.memory (X.eval c p)).isSome by
    rw [address]
    exact h.held.mapped r _ inside)
  refine h.object inside address rfl ?_ ?_
  · refine .boxes h.along code.head.2 (x := X.eval c v) ?_ known found
    change _ = Progress.writes (X.geometry.word (c.view.place r) headerWords) _ _
    rw [← address]
    exact step
  · rw [address]
    exact h.held.setCell (i := 0) found rfl rfl rfl

theorem Ready.call (h : X.Ready c) {i : Instr} {k : Call}
    {back : BitVec 64 × Memory 64 → Config} {e : Event} {r : BitVec 64 × Memory 64} {W : View 64}
    (code : X.Code c.config.label c.config.index (i :: is))
    (asks : X.site.Asks c.config i k back) (answer : X.site.outside k = some r)
    (means : X.means c.view k e) (after : X.setting.after e c.view.store = some W.store)
    (grown : c.view.Extends W) (held : X.course.Held W r.2)
    (spared : X.Spared c.config.memory r.2) (memory : (back r).memory = r.2)
    (temps : ∀ q ∈ X.site.body.allocas, (back r).temps q = c.config.temps q) :
    X.Ready ⟨c.seen ++ [.call k], back r, W⟩ := by
  refine ⟨run_call code asks answer means after grown (memory ▸ held) h.along, ?_, ?_, ?_, ?_⟩
  · change X.course.Held W (back r).memory
    rw [memory]
    exact held
  · intro a x hx
    change (back r).memory a = some x
    rw [memory, spared a (.inr (by rw [hx]; rfl))]
    exact h.image a x hx
  · exact fun q hq => (temps q hq).trans (h.allocas q hq)
  · change X.site.self = W.place X.setting.self
    rw [h.self]
    exact (grown.2 _ h.held.self).symm

end Scenario

end ClassBackend.Llvm
