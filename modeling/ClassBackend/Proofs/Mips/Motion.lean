import ClassBackend.Proofs.Mips.Model

/-! From the end of the code so far to the end of new code. -/
namespace ClassBackend.Mips

open Meaning Machine Lowering

/-- Nothing but these registers is different. -/
def Cpu.Agrees (D : List Reg) (s s' : Cpu) : Prop :=
  s'.mem = s.mem ∧ ∀ q, q ∉ D → s'.get q = s.get q

theorem Cpu.Agrees.refl (D : List Reg) (s : Cpu) : s.Agrees D s := ⟨rfl, fun _ _ => rfl⟩

theorem Cpu.Agrees.trans {D D' : List Reg} {s s' s'' : Cpu} (h : s.Agrees D s')
    (k : s'.Agrees D' s'') : s.Agrees (D ++ D') s'' :=
  ⟨k.1.trans h.1, fun q hq => (k.2 q (fun mem => hq (List.mem_append_right _ mem))).trans
    (h.2 q (fun mem => hq (List.mem_append_left _ mem)))⟩

theorem Cpu.Agrees.set {D : List Reg} {s s' : Cpu} (h : s.Agrees D s') {d : Reg}
    (hd : d ∈ D) (x : BitVec 32) : s.Agrees D (s'.set d x) := by
  refine ⟨h.1, fun q hq => ?_⟩
  have differ : q ≠ d := fun same => hq (same ▸ hd)
  rw [Cpu.get_set_ne _ _ differ]
  exact h.2 q hq

def Unlabelled (I : List Instr) : Prop := ∀ b, Instr.label (.block b) ∉ I

theorem Unlabelled.append {I J : List Instr} (h : Unlabelled I) (k : Unlabelled J) :
    Unlabelled (I ++ J) := by
  intro b hb
  rcases List.mem_append.mp hb with hb | hb
  · exact h b hb
  · exact k b hb

theorem intoAccCode_unlabelled (v : Reg) : Unlabelled (intoAccCode v) := by
  intro b
  unfold intoAccCode
  split
  · simp
  · simp

/-- The second state has more code, and the rest is the same. -/
structure Adds (t : State) (I : List Instr) (t' : State) : Prop where
  code : t'.code.toList = t.code.toList ++ I
  fresh : t'.fresh = t.fresh
  unlabelled : Unlabelled I

theorem Adds.size {t t' : State} {I : List Instr} (h : Adds t I t') :
    t'.code.size = t.code.size + I.length := by
  rw [← Array.length_toList, h.code, List.length_append, Array.length_toList]

theorem Adds.trans {t t' t'' : State} {I J : List Instr} (h : Adds t I t')
    (k : Adds t' J t'') : Adds t (I ++ J) t'' := by
  refine ⟨?_, k.fresh.trans h.fresh, h.unlabelled.append k.unlabelled⟩
  rw [k.code, h.code, List.append_assoc]

variable {F : List Int} {t t' : State} {K K' : List (Slot backend)} {O : List BlockName}
variable {I : List Instr}

theorem Shape.grow (h : Shape F t K O) (adds : Adds t I t')
    (frame : ∃ f, t'.frame = some f ∧ f.spOffset = top F K') (fits : Word.fits (top F K') = true)
    (stacked : Stacked F K') : Shape F t' K' O := by
  have old : ∀ b, .label (.block b) ∈ t'.code.toList → .label (.block b) ∈ t.code.toList := by
    intro b hb
    rw [adds.code, List.mem_append] at hb
    exact hb.resolve_right (adds.unlabelled b)
  refine ⟨frame, fits, stacked, ?_, ?_, h.nodup⟩
  · intro b hb
    rw [adds.fresh]
    exact h.labels b (old b hb)
  · intro b hb
    rw [adds.fresh]
    exact ⟨(h.opened b hb).1, fun placed => (h.opened b hb).2 (old b placed)⟩

theorem Shape.keep (h : Shape F t K O) (adds : Adds t I t') (frame : t'.frame = t.frame) :
    Shape F t' K O := by
  refine h.grow adds ?_ h.fits h.stacked
  rw [frame]
  exact h.frame

namespace Scenario

variable {X : Scenario} {σ : Store} {c : Point} {s' : Cpu} {D : List Reg}

theorem same (adds : Adds t I t') (frame : t'.frame = t.frame) : (X.model F).Same t t' :=
  ⟨⟨I, adds.code.symm⟩, fun h => h.keep adds frame⟩

theorem code_of_placed (placed : (X.model F).placed t t')
    (adds : t'.code.toList = t.code.toList ++ I) : X.Code t.code.size I := by
  intro j i hi
  have inside := (List.getElem?_eq_some_iff.mp hi).1
  have size : t'.code.size = t.code.size + I.length := by
    rw [← Array.length_toList, adds, List.length_append, Array.length_toList]
  obtain ⟨⟨rest, whole⟩, allowed⟩ := placed
  refine ⟨?_, allowed _ (Nat.le_add_right ..) (by omega)⟩
  change X.site.code[t.code.size + j]? = some i
  rw [← whole, adds, List.append_assoc, List.getElem?_append_right (by simp),
    Array.length_toList, Nat.add_sub_cancel_left, List.getElem?_append_left inside]
  exact hi

theorem Ready.quiet (h : X.Ready c) (code : X.Code c.config.pc I)
    (run : X.site.exec I c.config.cpu = some s') (agree : c.config.cpu.Agrees D s')
    (fp : .fp ∉ D) (self : .s0 ∉ D) :
    X.Ready ⟨c.seen, ⟨c.config.pc + I.length, s'⟩, c.view⟩ := by
  refine ⟨run_quiet code run h.along, ?_, ?_, ?_, ?_⟩
  · change X.course.Held c.view s'.mem
    rw [agree.1]
    exact h.held
  · intro a x hx
    change s'.mem a = some x
    rw [agree.1]
    exact h.image a x hx
  · exact (agree.2 _ fp).trans h.fp
  · exact (agree.2 _ self).trans h.self

theorem Located.pc (h : X.Located F .here t K σ c) : c.config.pc = t.code.size := h.at_

theorem Located.code (h : X.Located F .here t K σ c) (placed : (X.model F).placed t t')
    (adds : t'.code.toList = t.code.toList ++ I) : X.Code c.config.pc I := by
  rw [h.pc]
  exact code_of_placed placed adds

theorem Located.shift (h : X.Located F .here t K σ c) (placed : (X.model F).placed t t')
    (adds : t'.code.toList = t.code.toList ++ I)
    (run : X.site.exec I c.config.cpu = some s') (agree : c.config.cpu.Agrees D s')
    (fp : .fp ∉ D) (self : .s0 ∉ D) {L : List (Slot backend)}
    (room : L.length ≤ F.length + X.room)
    (sp : s'.get .sp = X.frameWord (top F L)) :
    X.Located F .here t' L σ ⟨c.seen, ⟨c.config.pc + I.length, s'⟩, c.view⟩ := by
  have size : t'.code.size = t.code.size + I.length := by
    rw [← Array.length_toList, adds, List.length_append, Array.length_toList]
  refine ⟨h.toReady.quiet (h.code placed adds) run agree fp self, h.store, room, sp, ?_⟩
  change c.config.pc + I.length = t'.code.size
  rw [h.pc, size]

theorem kept_quiet (agree : c.config.cpu.Agrees D s') {n : Nat} (K : List (Slot backend)) :
    (X.model F).Kept K c ⟨c.seen, ⟨n, s'⟩, c.view⟩ := by
  rintro s - x ⟨y, hy, rep⟩
  refine ⟨y, ?_, rep⟩
  change s'.mem _ = _
  rw [agree.1]
  exact hy

theorem moves_quiet (h : X.Located F .here t K σ c) (placed : (X.model F).placed t t')
    (adds : t'.code.toList = t.code.toList ++ I)
    (run : X.site.exec I c.config.cpu = some s') (agree : c.config.cpu.Agrees D s')
    (spared : [.fp, .s0, .sp].Disjoint D) {Q : Point → Prop}
    (q : Q ⟨c.seen, ⟨c.config.pc + I.length, s'⟩, c.view⟩) :
    (X.model F).Moves K t' σ c Q := by
  refine ⟨_, h.shift placed adds run agree ?_ ?_ h.room ?_, kept_quiet agree K, q⟩
  · exact fun mem => spared (by simp) mem
  · exact fun mem => spared (by simp) mem
  · rw [agree.2 _ fun mem => spared (by simp) mem]
    exact h.sp

theorem values_quiet (agree : c.config.cpu.Agrees D s') (spared : valueRegs.Disjoint D)
    {n : Nat} : (X.model F).Values t t' c ⟨c.seen, ⟨n, s'⟩, c.view⟩ := by
  rintro v x ⟨mem, rep⟩
  refine ⟨mem, ?_⟩
  change c.view.Rep x (s'.get v)
  rw [agree.2 v fun hv => spared mem hv]
  exact rep

theorem frameWord_add (X : Scenario) (off n : Int) :
    X.frameWord off + BitVec.ofInt 32 n = X.frameWord (off + n) := by
  unfold frameWord
  rw [BitVec.ofInt_add, BitVec.add_assoc]

theorem Ready.frame (framed : X.Framed) (h : X.Ready c) {r b : Reg} {off : Int} {n : Int}
    (code : X.Code c.config.pc (.sw r off b :: I))
    (address : c.config.cpu.get b + BitVec.ofInt 32 off = X.frameWord n)
    (inside : X.InFrame n) :
    X.Ready ⟨c.seen, ⟨c.config.pc + 1, c.config.cpu.store (X.frameWord n) (c.config.cpu.get r)⟩,
      c.view⟩ := by
  have reserved : X.geometry.reserved (X.frameWord n) := .inl ⟨n, inside, rfl⟩
  refine ⟨run_frame code address inside h.held h.along, ?_, ?_, h.fp, h.self⟩
  · refine h.held.other (fun a free => ?_) fun a used => ?_
    · refine Function.update_of_ne (fun same : a = X.frameWord n => free ?_) _ _
      rw [same]
      exact reserved
    · change (Function.update c.config.cpu.mem (X.frameWord n) _ a).isSome
      by_cases same : a = X.frameWord n
      · rw [same, Function.update_self]
        rfl
      · rw [Function.update_of_ne same]
        exact h.held.kept a used
  · intro a x hx
    have differ : a ≠ X.frameWord n := by
      intro same
      rw [same, framed.apart n inside] at hx
      cases hx
    exact (Function.update_of_ne differ _ _).trans (h.image a x hx)

theorem slot_frame (framed : X.Framed) {word : Int} {x : BitVec 32} {n : Nat} {s : Slot backend}
    {v : Val} (differ : offset s ≠ word) (inside : X.InFrame word) (there : X.InFrame (offset s))
    (h : X.SlotHas c s v) :
    X.SlotHas ⟨c.seen, ⟨n, c.config.cpu.store (X.frameWord word) x⟩, c.view⟩ s v := by
  obtain ⟨y, hy, rep⟩ := h
  refine ⟨y, ?_, rep⟩
  have apart : X.frameWord (offset s) ≠ X.frameWord word :=
    fun same => differ (framed.word_inj there inside same)
  exact (Function.update_of_ne apart _ _).trans hy

theorem Ready.field (h : X.Ready c) {r b : Reg} {off : Int} {p i : Nat} {o : Obj} {d : Cell}
    {v : Val} (code : X.Code c.config.pc (.sw r off b :: I))
    (address : c.config.cpu.get b + BitVec.ofInt 32 off =
      X.geometry.word (c.view.place p) (headerWords + i))
    (found : c.view.store.heap[p]? = some o) (hd : o.cells[i]? = some d) (pointer : d.isPointer)
    (rep : c.view.Rep v (c.config.cpu.get r)) :
    X.Ready ⟨c.seen, ⟨c.config.pc + 1, c.config.cpu.store
      (X.geometry.word (c.view.place p) (headerWords + i)) (c.config.cpu.get r)⟩,
      c.view.setCell p i (.ref v)⟩ := by
  refine ⟨run_field code address h.held found hd pointer rep h.along, ?_, ?_, h.fp, h.self⟩
  · exact h.held.setCell found hd pointer rep
  · intro a x hx
    have differ : a ≠ X.geometry.word (c.view.place p) (headerWords + i) := by
      intro same
      have reserved : X.geometry.reserved (X.geometry.word (c.view.place p) (headerWords + i)) := by
        refine .inr ?_
        rw [← same, hx]
        rfl
      exact h.held.clear p _ (View.inside_cell found hd) reserved
    exact (Function.update_of_ne differ _ _).trans (h.image a x hx)

theorem Ready.box (h : X.Ready c) {r b : Reg} {off : Int} {p : Nat} {int : ClassLayout}
    (code : X.Code c.config.pc (.sw r off b :: I))
    (address : c.config.cpu.get b + BitVec.ofInt 32 off =
      X.geometry.word (c.view.place p) headerWords)
    (known : X.setting.classes.find Builtin.intName = .ok int)
    (found : c.view.store.heap[p]? = some ⟨int.tag, [.unset]⟩) :
    X.Ready ⟨c.seen, ⟨c.config.pc + 1, c.config.cpu.store
      (X.geometry.word (c.view.place p) headerWords) (c.config.cpu.get r)⟩,
      c.view.setCell p 0 (.word (c.config.cpu.get r).toInt)⟩ := by
  refine ⟨run_box code address h.held known found h.along, ?_, ?_, h.fp, h.self⟩
  · exact h.held.setCell (i := 0) found rfl rfl rfl
  · intro a x hx
    have differ : a ≠ X.geometry.word (c.view.place p) headerWords := by
      intro same
      have reserved : X.geometry.reserved (X.geometry.word (c.view.place p) headerWords) := by
        refine .inr ?_
        rw [← same, hx]
        rfl
      exact h.held.clear p _ (View.inside_cell (i := 0) found rfl) reserved
    exact (Function.update_of_ne differ _ _).trans (h.image a x hx)

theorem slot_field (h : X.Ready c) {p i n : Nat} {o : Obj} {d d' : Cell} {x : BitVec 32}
    (found : c.view.store.heap[p]? = some o) (hd : o.cells[i]? = some d) {s : Slot backend}
    {v : Val} (there : X.InFrame (offset s)) (hs : X.SlotHas c s v) :
    X.SlotHas ⟨c.seen, ⟨n, c.config.cpu.store
      (X.geometry.word (c.view.place p) (headerWords + i)) x⟩, c.view.setCell p i d'⟩ s v := by
  obtain ⟨y, hy, rep⟩ := hs
  refine ⟨y, ?_, rep.mono (View.extends_setCell ..)⟩
  have apart : X.frameWord (offset s) ≠ X.geometry.word (c.view.place p) (headerWords + i) :=
    fun same => h.held.clear p _ (View.inside_cell found hd) (.inl ⟨_, there, same.symm⟩)
  exact (Function.update_of_ne apart _ _).trans hy

theorem Preserves.sub {rs rs' : List Reg} {s : Cpu} (h : Preserves rs s s') (less : rs' ⊆ rs) :
    Preserves rs' s s' := fun q hq => h q (less hq)

theorem Ready.call (h : X.Ready c) {i : Instr} {a : BitVec 32} {e : Event} {W : View 32}
    (code : X.Code c.config.pc (i :: I)) (calls : Calls (X := X) i c.config.cpu a)
    (answer : X.site.outside a c.config.cpu = some s')
    (means : X.means c.view ⟨a, c.config.cpu⟩ e)
    (after : X.setting.after e c.view.store = some W.store) (grown : c.view.Extends W)
    (held : X.course.Held W s'.mem) (image : ∀ a x, X.image a = some x → s'.mem a = some x)
    (preserved : Preserves [.s0, .fp] c.config.cpu s') :
    X.Ready ⟨c.seen ++ [.call ⟨a, c.config.cpu⟩], ⟨c.config.pc + 1, s'⟩, W⟩ := by
  refine ⟨run_call code calls answer means after grown held h.along, held, image, ?_, ?_⟩
  · exact (preserved .fp (by simp)).trans h.fp
  · change s'.get .s0 = W.place X.setting.self
    rw [preserved .s0 (by simp), h.self]
    exact (grown.2 _ h.held.self).symm

end Scenario

end ClassBackend.Mips
