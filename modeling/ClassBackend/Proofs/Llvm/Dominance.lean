import ClassBackend.Proofs.Llvm.ControlFlow

/-! Definitions and uses of the temporaries of a function. A use is dominated by the definition if
that lies on every path from the entry to the use. A certificate names, for each block, temporaries
that are defined wherever the block is entered; it holds along every path if it holds along every
edge. -/
namespace ClassBackend.Llvm

/-- A line of a block: a stack slot, or an instruction. -/
inductive Line where
  | alloca (slot : Temp)
  | instr (i : Instr)

def Rhs.operands : Rhs → List Operand
  | .load _ p => [p]
  | .element _ p _ => [p]
  | .row _ p i => [p, i]
  | .entry p _ => [p]
  | .arith _ a b | .compare _ _ a b => [a, b]
  | .phi _ => []
  | .call _ callee args => callee :: args.map (·.2)

namespace Instr

/-- What the instruction reads where it stands. A `phi` reads nothing there. -/
def operands : Instr → List Operand
  | .assign _ rhs => rhs.operands
  | .store _ v p => [v, p]
  | .callVoid callee args => callee :: args.map (·.2)
  | .condBr c _ _ => [c]
  | .ret v => [v]
  | .br _ | .unreachable => []

def incoming (i : Instr) : List (Operand × Label) := i.incoming?.getD []

def result? : Instr → Option Temp
  | .assign t _ => some t
  | _ => none

end Instr

namespace Line

def operands : Line → List Operand
  | .alloca _ => []
  | .instr i => i.operands

def incoming : Line → List (Operand × Label)
  | .alloca _ => []
  | .instr i => i.incoming

def result? : Line → Option Temp
  | .alloca t => some t
  | .instr i => i.result?

def targets : Line → List Label
  | .alloca _ => []
  | .instr i => i.targets

def text : Line → String
  | .alloca t => (Operand.temp t).text ++ " = alloca ptr"
  | .instr i => i.text

end Line

/-- What the lines define. -/
def definitions (ls : List Line) : List Temp := ls.filterMap Line.result?

structure Passage where
  label : Label
  lines : List Line

def Passage.exits (c : Passage) : List Label := c.lines.flatMap Line.targets

def Block.passage (slots : List Temp) (b : Block Label Instr) : Passage :=
  ⟨b.label, slots.map .alloca ++ b.instrs.toList.map .instr⟩

/-- The blocks as they are written: the slots stand at the head of the first. -/
def passages (slots : List Temp) : List (Block Label Instr) → List Passage
  | [] => []
  | b :: bs => b.passage slots :: bs.map (Block.passage [])

def Function.passages (f : Function) : List Passage :=
  Llvm.passages f.body.allocas.toList f.body.blocks

theorem bodyLines_passages (f : Function) :
    f.body.bodyLines = f.passages.flatMap fun c =>
      (c.label.text ++ ":") :: c.lines.map fun l => "  " ++ l.text := by
  have lines (slots : List Temp) (b : Block Label Instr) :
      Builder.blockLines slots b = (b.label.text ++ ":") ::
        (b.passage slots).lines.map fun l => "  " ++ l.text := by
    simp [Builder.blockLines, Block.passage, Line.text, Function.comp_def, CodeText.labelText,
      CodeText.slotText, CodeText.instrText, String.append_assoc]
  unfold Builder.bodyLines Function.passages
  cases f.body.blocks with
  | nil => rfl
  | cons b bs =>
    simp only [passages, List.flatMap_cons, List.flatMap_map, lines]
    exact congrArg _ (List.flatMap_congr fun b _ => lines [] b)

/-- The blocks that are run through one after the other, from the entry to where this one
begins. -/
inductive Path (cs : List Passage) : List Passage → Passage → Prop
  | entry {c : Passage} : cs.head? = some c → Path cs [] c
  | step {ps : List Passage} {c d : Passage} :
    Path cs ps c → d ∈ cs → d.label ∈ c.exits → Path cs (ps ++ [c]) d

/-- What is defined along a path and at the head of the block it leads to. -/
def reaching (ps : List Passage) (head : List Line) : List Temp :=
  definitions (ps.flatMap Passage.lines ++ head)

structure SingleAssignment (formals : Nat) (cs : List Passage) : Prop where
  once : ((definitions (cs.flatMap Passage.lines)).map Temp.text).Nodup
  /-- Slots stand at the head of the entry block and nowhere else. -/
  slots : ∃ (slots : List Temp) (first : Passage) (rest : List Passage),
    cs = first :: rest ∧ first.label = .entry ∧
    (∃ is : List Instr, first.lines = slots.map .alloca ++ is.map .instr) ∧
    ∀ c ∈ rest, ∃ is : List Instr, c.lines = is.map .instr
  arguments : ∀ c ∈ cs, ∀ l ∈ c.lines, ∀ i,
    (.arg i ∈ l.operands ∨ .arg i ∈ l.incoming.map (·.1)) → i < formals
  defined : ∀ c ∈ cs, ∀ l ∈ c.lines, ∀ t,
    (.temp t ∈ l.operands ∨ .temp t ∈ l.incoming.map (·.1)) →
      t ∈ definitions (cs.flatMap Passage.lines)
  dominated : ∀ ps c, Path cs ps c → ∀ n l, c.lines[n]? = some l → ∀ t, .temp t ∈ l.operands →
    t ∈ reaching ps (c.lines.take n)
  /-- What a `phi` reads is defined at the end of the block that it comes from. -/
  incoming : ∀ d ∈ cs, ∀ l ∈ d.lines, ∀ t src, (.temp t, src) ∈ l.incoming →
    ∀ ps c, Path cs ps c → c.label = src → t ∈ reaching ps c.lines

/-- A value that may be read where these temporaries are defined. -/
def Available (formals : Nat) (K : List Temp) : Operand → Prop
  | .temp t => t ∈ K
  | .arg i => i < formals
  | _ => True

theorem Available.mono {formals : Nat} {K K' : List Temp} {v : Operand}
    (h : Available formals K v) (grown : K ⊆ K') : Available formals K' v := by
  cases v with
  | temp t => exact grown h
  | _ => exact h

/-- Temporaries known to be defined where a block is entered, values known to be available at the
end of one, and the number of formals. -/
structure Certificate where
  formals : Nat
  starts : BlockName → Option (List Temp)
  arms : List (Operand × Label)

def Certificate.start (w : Certificate) : Label → Option (List Temp)
  | .entry => some []
  | .block b => w.starts b

/-- The second certificate says all that the first says. -/
structure Certificate.Le (w w' : Certificate) : Prop where
  formals : w.formals = w'.formals
  starts : ∀ b T, w.starts b = some T → w'.starts b = some T
  arms : w.arms ⊆ w'.arms

namespace Certificate

variable {w w' w'' : Certificate} {K K' : List Temp} {i : Instr} {is js : List Instr}

theorem Le.refl (w : Certificate) : w.Le w := ⟨rfl, fun _ _ h => h, fun _ h => h⟩

theorem Le.trans (h : w.Le w') (h' : w'.Le w'') : w.Le w'' where
  formals := h.formals.trans h'.formals
  starts b T hb := h'.starts b T (h.starts b T hb)
  arms _ ha := h'.arms (h.arms ha)

theorem Le.start (h : w.Le w') {l : Label} {T : List Temp} (hl : w.start l = some T) :
    w'.start l = some T := by
  cases l with
  | entry => exact hl
  | block b => exact h.starts b T hl

/-- The instruction may stand where these temporaries are defined. -/
structure Fine (w : Certificate) (K : List Temp) (i : Instr) : Prop where
  operands : ∀ v ∈ i.operands, Available w.formals K v
  incoming : i.incoming ⊆ w.arms

theorem Fine.mono (h : w.Fine K i) (known : w.Le w') (grown : K ⊆ K') : w'.Fine K' i where
  operands v hv := known.formals ▸ (h.operands v hv).mono grown
  incoming _ ha := known.arms (h.incoming ha)

/-- One after the other. -/
def Flows (w : Certificate) : List Temp → List Instr → Prop
  | _, [] => True
  | K, i :: is => w.Fine K i ∧ w.Flows (K ++ i.result?.toList) is

def results (is : List Instr) : List Temp := is.filterMap Instr.result?

theorem Flows.mono (h : w.Flows K is) (known : w.Le w') (grown : K ⊆ K') : w'.Flows K' is := by
  induction is generalizing K K' with
  | nil => trivial
  | cons i is ih =>
    refine ⟨h.1.mono known grown, ih h.2 ?_⟩
    exact List.append_subset.mpr
      ⟨List.subset_append_of_subset_left _ grown, List.subset_append_right ..⟩

theorem results_cons : results (i :: is) = i.result?.toList ++ results is := by
  unfold results
  cases h : i.result? <;> simp [h]

theorem Flows.append (h : w.Flows K is) (h' : w.Flows (K ++ results is) js) :
    w.Flows K (is ++ js) := by
  induction is generalizing K with
  | nil => simpa [results] using h'
  | cons i is ih =>
    refine ⟨h.1, ih h.2 ?_⟩
    rwa [results_cons, ← List.append_assoc] at h'

theorem Flows.at (h : w.Flows K (is ++ i :: js)) : w.Fine (K ++ results is) i := by
  induction is generalizing K with
  | nil => simpa [results] using h.1
  | cons j is ih =>
    rw [results_cons, ← List.append_assoc]
    exact ih h.2

end Certificate

namespace Certificate

variable {w : Certificate} {slots : List Temp} {bs : List (Block Label Instr)}
variable {b : Block Label Instr}

/-- A block keeps to the certificate, inside and on its edges. -/
def Checks (w : Certificate) (slots : List Temp) (b : Block Label Instr) : Prop :=
  ∃ S, w.start b.label = some S ∧ w.Flows (slots ++ S) b.instrs.toList ∧
    ∀ l ∈ b.exits, ∃ T, w.start l = some T ∧ T ⊆ slots ++ S ++ results b.instrs.toList

/-- The temporaries of a function: its slots, and the results of its instructions. -/
def temps (slots : List Temp) (bs : List (Block Label Instr)) : List Temp :=
  slots ++ bs.flatMap fun b => results b.instrs.toList

structure Covers (w : Certificate) (slots : List Temp) (bs : List (Block Label Instr)) : Prop where
  entry : ∃ b rest, bs = b :: rest ∧ b.label = .entry
  once : (temps slots bs).Nodup
  defined : ∀ l T, w.start l = some T → T ⊆ temps slots bs
  blocks : ∀ b ∈ bs, w.Checks slots b
  arms : ∀ a ∈ w.arms, ∃ b ∈ bs, b.label = a.2 ∧
    ∃ S, w.start b.label = some S ∧ Available w.formals (slots ++ S ++ results b.instrs.toList) a.1

section Passages

theorem definitions_instrs (is : List Instr) : definitions (is.map .instr) = results is := by
  simp [definitions, results, List.filterMap_map, Function.comp_def, Line.result?]

theorem definitions_slots (slots : List Temp) : definitions (slots.map .alloca) = slots := by
  simp [definitions, List.filterMap_map, Function.comp_def, Line.result?]

theorem definitions_append (ls ls' : List Line) :
    definitions (ls ++ ls') = definitions ls ++ definitions ls' := List.filterMap_append

theorem definitions_passage (slots : List Temp) (b : Block Label Instr) :
    definitions (b.passage slots).lines = slots ++ results b.instrs.toList := by
  rw [Block.passage, definitions_append, definitions_slots, definitions_instrs]

theorem definitions_passages (h : bs ≠ []) :
    definitions ((passages slots bs).flatMap Passage.lines) = temps slots bs := by
  cases bs with
  | nil => exact absurd rfl h
  | cons b bs =>
    have rest : definitions ((bs.map (Block.passage [])).flatMap Passage.lines) =
        bs.flatMap fun b => results b.instrs.toList := by
      induction bs with
      | nil => rfl
      | cons c cs ih =>
        rw [List.map_cons, List.flatMap_cons, definitions_append, definitions_passage,
          ih (by simp), List.flatMap_cons, List.nil_append]
    rw [passages, List.flatMap_cons, definitions_append, definitions_passage, rest, temps,
      List.flatMap_cons, List.append_assoc]

theorem exits_passage (slots : List Temp) (b : Block Label Instr) :
    (b.passage slots).exits = b.exits := by
  simp [Passage.exits, Block.passage, Block.exits, Line.targets, List.flatMap_map]

theorem mem_passages {c : Passage} (h : c ∈ passages slots bs) :
    ∃ b ∈ bs, ∃ head, head ⊆ slots ∧ c = b.passage head := by
  cases bs with
  | nil => cases h
  | cons b bs =>
    rcases List.mem_cons.mp h with rfl | h
    · exact ⟨b, List.mem_cons_self .., slots, fun _ h => h, rfl⟩
    · obtain ⟨d, hd, rfl⟩ := List.mem_map.mp h
      exact ⟨d, List.mem_cons_of_mem _ hd, [], List.nil_subset _, rfl⟩

end Passages

theorem temp_text_injective : Function.Injective Temp.text := by
  intro t t' same
  obtain ⟨_, id⟩ := numbered_inj (s := "t") (by decide) (by decide) same
  cases t
  cases t'
  simp_all

/-- Along every path, all is defined that the certificate says. -/
theorem Covers.reached (h : w.Covers slots bs) {ps : List Passage} {c : Passage}
    (path : Path (passages slots bs) ps c) :
    ∃ b ∈ bs, ∃ head, c = b.passage head ∧ ∀ S, w.start b.label = some S →
      slots ++ S ⊆ definitions (ps.flatMap Passage.lines) ++ head := by
  induction path with
  | entry first =>
    obtain ⟨b, rest, rfl, entry⟩ := h.entry
    cases first
    refine ⟨b, List.mem_cons_self .., slots, rfl, fun S hS => ?_⟩
    rw [entry] at hS
    cases hS
    simp [definitions]
  | @step ps c d _ there leaves ih =>
    obtain ⟨b, hb, head, rfl, known⟩ := ih
    obtain ⟨S, hS, _, edges⟩ := h.blocks b hb
    obtain ⟨b', hb', head', _, rfl⟩ := mem_passages there
    rw [exits_passage] at leaves
    obtain ⟨T, hT, defined⟩ := edges _ leaves
    refine ⟨b', hb', head', rfl, fun T' hT' => ?_⟩
    cases hT.symm.trans hT'
    have whole : definitions ((ps ++ [b.passage head]).flatMap Passage.lines) =
        definitions (ps.flatMap Passage.lines) ++ head ++ results b.instrs.toList := by
      rw [List.flatMap_append, definitions_append, List.flatMap_singleton, definitions_passage,
        List.append_assoc]
    have grown : slots ++ S ++ results b.instrs.toList ⊆
        definitions ((ps ++ [b.passage head]).flatMap Passage.lines) := by
      rw [whole]
      exact List.append_subset.mpr
        ⟨List.subset_append_of_subset_left _ (known S hS), List.subset_append_right ..⟩
    refine List.subset_append_of_subset_left _ (List.append_subset.mpr ⟨?_, ?_⟩)
    · exact fun t ht => grown (List.mem_append_left _ (List.mem_append_left _ ht))
    · exact fun t ht => grown (defined ht)

theorem line_at {head : List Temp} {n : Nat} {l : Line}
    (at_ : (b.passage head).lines[n]? = some l) :
    (∃ t, l = .alloca t) ∨ ∃ front i back, l = .instr i ∧ b.instrs.toList = front ++ i :: back ∧
      (b.passage head).lines.take n = head.map .alloca ++ front.map .instr := by
  rw [Block.passage] at at_ ⊢
  by_cases early : n < head.length
  · rw [List.getElem?_append_left (by simpa using early), List.getElem?_map] at at_
    obtain ⟨t, _, rfl⟩ := Option.map_eq_some_iff.mp at_
    exact .inl ⟨t, rfl⟩
  · have late : head.length ≤ n := Nat.le_of_not_lt early
    rw [List.getElem?_append_right (by simpa using late), List.length_map, List.getElem?_map] at at_
    obtain ⟨i, hi, rfl⟩ := Option.map_eq_some_iff.mp at_
    obtain ⟨inside, rfl⟩ := List.getElem?_eq_some_iff.mp hi
    refine .inr ⟨b.instrs.toList.take (n - head.length), _,
      b.instrs.toList.drop (n - head.length + 1), rfl, ?_, ?_⟩
    · rw [List.getElem_cons_drop, List.take_append_drop]
    rw [List.take_append, List.length_map, List.take_of_length_le (by simpa using late),
      List.map_take]

theorem Covers.fine (h : w.Covers slots bs) (hb : b ∈ bs) {front back : List Instr} {i : Instr}
    (split : b.instrs.toList = front ++ i :: back) :
    ∃ S, w.start b.label = some S ∧ w.Fine (slots ++ S ++ results front) i := by
  obtain ⟨S, hS, flows, _⟩ := h.blocks b hb
  rw [split] at flows
  exact ⟨S, hS, flows.at⟩

theorem Covers.known_defined (h : w.Covers slots bs) (hb : b ∈ bs) {S : List Temp}
    (hS : w.start b.label = some S) {r : List Instr} (sub : results r ⊆
      results b.instrs.toList) : slots ++ S ++ results r ⊆ temps slots bs := by
  refine List.append_subset.mpr ⟨List.append_subset.mpr ⟨?_, h.defined _ _ hS⟩, fun t ht => ?_⟩
  · exact List.subset_append_left ..
  · exact List.mem_append_right _ (List.mem_flatMap.mpr ⟨b, hb, sub ht⟩)

theorem Covers.reads_line (h : w.Covers slots bs) {c : Passage} (hc : c ∈ passages slots bs)
    {l : Line} (hl : l ∈ c.lines) {v : Operand} (hv : v ∈ l.operands ∨ v ∈ l.incoming.map (·.1)) :
    Available w.formals (temps slots bs) v := by
  obtain ⟨b, hb, head, _, rfl⟩ := mem_passages hc
  obtain ⟨n, at_⟩ := List.mem_iff_getElem?.mp hl
  obtain ⟨t, rfl⟩ | ⟨front, i, back, rfl, split, _⟩ := line_at at_
  · simp [Line.operands, Line.incoming] at hv
  · obtain ⟨S, hS, fine⟩ := h.fine hb split
    rcases hv with operand | arm
    · have sub : results front ⊆ results b.instrs.toList := by
        rw [split, results, results, List.filterMap_append]
        exact List.subset_append_left ..
      exact (fine.operands v operand).mono (h.known_defined hb hS sub)
    · obtain ⟨a, ha, rfl⟩ := List.mem_map.mp arm
      obtain ⟨d, hd, _, T, hT, there⟩ := h.arms a (fine.incoming ha)
      exact there.mono (h.known_defined hd hT fun _ ht => ht)

/-- A function that a certificate covers is in static single assignment form. -/
theorem Covers.singleAssignment (h : w.Covers slots bs)
    (labels : (bs.map (·.label.text)).Nodup) :
    SingleAssignment w.formals (passages slots bs) := by
  have nonempty : bs ≠ [] := by
    obtain ⟨b, rest, rfl, _⟩ := h.entry
    exact List.cons_ne_nil _ _
  constructor
  · rw [definitions_passages nonempty]
    exact h.once.map temp_text_injective
  · obtain ⟨b, rest, rfl, entry⟩ := h.entry
    refine ⟨slots, _, _, rfl, entry, ⟨_, rfl⟩, fun c hc => ?_⟩
    obtain ⟨d, _, rfl⟩ := List.mem_map.mp hc
    exact ⟨_, rfl⟩
  · exact fun c hc l hl i read => h.reads_line hc hl read
  · rw [definitions_passages nonempty]
    exact fun c hc l hl t read => h.reads_line hc hl read
  · intro ps c path n l at_ t read
    obtain ⟨b, hb, head, rfl, known⟩ := h.reached path
    obtain ⟨_, rfl⟩ | ⟨front, i, back, rfl, split, before⟩ := line_at at_
    · cases read
    · obtain ⟨S, hS, fine⟩ := h.fine hb split
      rw [reaching, before, definitions_append, definitions_append, definitions_slots,
        definitions_instrs, ← List.append_assoc]
      -- the operand is known where its block starts, or set earlier in the block
      rcases List.mem_append.mp (fine.operands _ read) with early | late
      · exact List.mem_append_left _ (known S hS early)
      · exact List.mem_append_right _ late
  · intro d hd l hl t src arm ps c path here
    obtain ⟨b, hb, head, _, rfl⟩ := mem_passages hd
    obtain ⟨n, at_⟩ := List.mem_iff_getElem?.mp hl
    obtain ⟨_, rfl⟩ | ⟨front, i, back, rfl, split, _⟩ := line_at at_
    · cases arm
    · obtain ⟨_, _, fine⟩ := h.fine hb split
      obtain ⟨b', hb', label, S, hS, there⟩ := h.arms _ (fine.incoming arm)
      -- an arm is read at the end of the block it comes from, so the path ends there
      obtain ⟨b'', hb'', head', rfl, known⟩ := h.reached path
      have same : b'' = b' := List.inj_on_of_nodup_map labels hb'' hb'
        (congrArg Label.text (Eq.trans here label.symm))
      subst same
      rw [reaching, definitions_append, definitions_passage, ← List.append_assoc]
      rcases List.mem_append.mp there with early | late
      · exact List.mem_append_left _ (known S hS early)
      · exact List.mem_append_right _ late

end Certificate

end ClassBackend.Llvm
