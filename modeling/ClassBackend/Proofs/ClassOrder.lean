import ClassBackend.Proofs.Emission.ClassDriver
import ClassBackend.Proofs.Initialization
import ClassBackend.Proofs.Mips.References

/-! A unit class by class. The driver comes to the classes in the order of their tags, and what it
leaves are the functions of each class: its initializer, and then its methods unless the class is
built in. -/
namespace ClassBackend

open Lowering

namespace Transcript

variable {B : Backend} {ι : Type}

/-- The code begins with the head of the function with that label. -/
def Begins (head : String → ι → Prop) (is : List ι) (label : String) : Prop :=
  ∃ i js, head label i ∧ is = i :: js

/-- The finished functions and the open one have these labels. -/
def Labelled (head : String → ι → Prop) (w : Place ι) (labels : List String) : Prop :=
  ∃ ls l, labels = ls ++ [l] ∧ List.Forall₂ (Begins head) w.done ls ∧ Begins head w.code l

variable (T : Transcript B ι) (head : String → ι → Prop)

@[reducible] def labelling : Account B :=
  { T.account with
    idle := fun labels _ t => ∃ fs, T.idle fs t ∧ List.Forall₂ (Begins head) fs labels
    frame := fun w labels _ => Labelled head w labels }

variable {T head}

theorem Begins.append {is js : List ι} {label : String} (h : Begins head is label) :
    Begins head (is ++ js) label := by
  obtain ⟨i, rest, first, rfl⟩ := h
  exact ⟨i, rest ++ js, first, rfl⟩

theorem Labelled.mono {w w' : Place ι} {labels : List String} (h : Labelled head w labels)
    (grown : w.Le w') : Labelled head w' labels := by
  obtain ⟨ls, l, rfl, done, begun⟩ := h
  obtain ⟨js, code⟩ := grown.code
  exact ⟨ls, l, rfl, grown.done ▸ done, code ▸ begun.append⟩

theorem labelling_lawful (law : T.account.Lawful) : (T.labelling head).Lawful :=
  { law with
    toOrdered := { T.ordered with frame := fun grown labelled => labelled.mono grown } }

theorem labelling_framed (bounds : T.Bounds)
    (begins : ∀ fs s label n s', T.idle fs s → B.beginFunction label n s = .ok ((), s') →
      ∃ is, T.inside fs is s' ∧ Begins head is label) : (T.labelling head).Framed where
  start := ⟨[], bounds.start, .nil⟩
  beginFunction := by
    intro labels p _ _ label _ ⟨fs, there, done⟩ run
    obtain ⟨is, there', begun⟩ := begins _ _ _ _ _ there run
    exact ⟨⟨fs, is, p⟩, ⟨rfl, there'⟩, labels, label, rfl, done, begun⟩
  formal _ _ := bounds.formal.keeps
  endFunction := by
    intro _ _ _ _ _ _ _ ⟨_, there⟩ ⟨ls, l, same, done, begun⟩ _ run
    obtain ⟨js, there'⟩ := bounds.end_ there run
    exact ⟨_, there', same ▸ List.rel_append done (.cons begun.append .nil)⟩

/-- The functions of a unit are those of its classes, in the order of the classes. -/
theorem functions_in_order {script : Script ι} (law : T.Lawful script)
    (begins : ∀ fs s label n s', T.idle fs s → B.beginFunction label n s = .ok ((), s') →
      ∃ is, T.inside fs is s' ∧ Begins head is label) {p : Program} {t : ClassTable}
    (h : ClassTable.build p = .ok t) {s : Session B} (emitted : Lowering.emitUnit B t = .ok s) :
    ∃ fs, T.idle fs s.target ∧ List.Forall₂ (Begins head) fs t.functions :=
  Account.emitUnit_idle (labelling_framed law.toBounds begins) (labelling_lawful law.account)
    (fun _ _ => ⟨fun _ => trivial, trivial, fun _ _ => trivial⟩) (Resolved.emitUnit_of_ok h emitted)

end Transcript

variable {p : Program} {t : ClassTable}

namespace Mips

def Heads (label : String) (i : Instr) : Prop := i = .label (.symbol label)

/-- The code is made of functions with these labels, and they are the only symbols in it. -/
structure HoldsFunctions (s : State) (labels : List String) : Prop where
  code : ∃ fs : List (List Instr), s.code.toList = fs.flatten ∧
    List.Forall₂ (Transcript.Begins Heads) fs labels
  symbols : (codeLabels s.code.toList).filterMap Label.symbol? = labels

theorem emitUnit_holds (h : ClassTable.build p = .ok t) {s : Session backend}
    (emitted : Lowering.emitUnit backend t = .ok s) : HoldsFunctions s.target t.functions := by
  have begins (fs s label n s') (there : transcript.idle fs s)
      (run : backend.beginFunction label n s = .ok ((), s')) :
      ∃ is, transcript.inside fs is s' ∧ Transcript.Begins Heads is label :=
    ⟨_, beginFunction_adds there run, _, _, rfl, rfl⟩
  have stands := emitUnit_stands (Resolved.emitUnit_of_ok h emitted)
  exact ⟨Transcript.functions_in_order transcript_lawful begins h emitted, stands.refers.symbols⟩

end Mips

namespace Llvm

def Heads (label : String) (l : CodeLine) : Prop := ∃ formals, l = .define label formals

/-- No function is open, and those that are finished have these labels. -/
structure HoldsFunctions (s : State) (labels : List String) : Prop where
  closed : s.function = none
  finished : s.functions.toList.map (·.label) = labels

theorem emitUnit_holds (h : ClassTable.build p = .ok t) {s : Session backend}
    (emitted : Lowering.emitUnit backend t = .ok s) : HoldsFunctions s.target t.functions := by
  have begins (fs s label n s') (there : transcript.idle fs s)
      (run : backend.beginFunction label n s = .ok ((), s')) :
      ∃ is, transcript.inside fs is s' ∧ Transcript.Begins Heads is label :=
    ⟨_, beginFunction_written there run, _, _, ⟨n, rfl⟩, rfl⟩
  obtain ⟨_, ⟨closed, rfl⟩, labelled⟩ :=
    Transcript.functions_in_order transcript_lawful begins h emitted
  have labels (f : Function) (label : String) (begun : Transcript.Begins Heads f.listing label) :
      f.label = label := by
    obtain ⟨_, _, ⟨n, rfl⟩, same⟩ := begun
    cases same
    rfl
  have named := (List.forall₂_map_left_iff.mp labelled).imp labels
  exact ⟨closed, List.forall₂_eq_eq_eq ▸ List.forall₂_map_left_iff.mpr named⟩

end Llvm

namespace Driver

/-- The driver ends over every built class table. It comes to the classes in the order of their
tags, to each once and with the scopes of the class and its ancestors open, and what it leaves are
the functions of the classes in this order. -/
theorem classes_in_order (p : Program) (t : ClassTable) (h : ClassTable.build p = .ok t) :
    (∀ B : Backend, ∃ (vs : List (Visit B)) (r : _), Drives t vs r) ∧
    (∀ (vs : List (Visit Mips.backend)) (s : _), Drives t vs (.ok ((), s)) →
      Mips.HoldsFunctions s.target t.functions) ∧
    ∀ (vs : List (Visit Llvm.backend)) (s : _), Drives t vs (.ok ((), s)) →
      Llvm.HoldsFunctions s.target t.functions :=
  ⟨fun B => exists_drives B h, fun _ _ drives => Mips.emitUnit_holds h drives.unit,
    fun _ _ drives => Llvm.emitUnit_holds h drives.unit⟩

theorem Drives.emitted {B : Backend} {vs : List (Visit B)} {r : Except Fault (Unit × Session B)}
    (h : Drives t vs r) (emits : (Lowering.emitUnit B t).toOption.isSome = true) :
    ∃ s, r = .ok ((), s) := by
  rw [h.unit] at emits
  cases r with
  | error f => cases emits
  | ok x => exact ⟨x.2, rfl⟩

/-- The classes of a program with several heirs of one class, and an heir of one of these. -/
theorem chained_in_order : ∃ t, ClassTable.build chained.withBuiltins = .ok t ∧
    t.classes.map (·.name) =
      ["Object", "IO", "Int", "Bool", "String", "Base", "Heir", "Main"] ∧
    t.functions = ["Object_init", "IO_init", "Int_init", "Bool_init", "String_init", "Base_init",
      "Base.size", "Heir_init", "Main_init", "Main.main"] ∧
    (∃ (vs : List (Visit Mips.backend)) (s : _), Drives t vs (.ok ((), s)) ∧
      vs.map (·.cls.tag) = List.range 8 ∧ Mips.HoldsFunctions s.target t.functions) ∧
    ∃ (vs : List (Visit Llvm.backend)) (s : _), Drives t vs (.ok ((), s)) ∧
      vs.map (·.cls.tag) = List.range 8 ∧ Llvm.HoldsFunctions s.target t.functions := by
  have built : ((ClassTable.build chained.withBuiltins).toOption.map fun t =>
      (t.classes.map (·.name), t.functions)) =
      some (["Object", "IO", "Int", "Bool", "String", "Base", "Heir", "Main"],
        ["Object_init", "IO_init", "Int_init", "Bool_init", "String_init", "Base_init",
          "Base.size", "Heir_init", "Main_init", "Main.main"]) := by
    decide +kernel
  have emits : ((ClassTable.build chained.withBuiltins).toOption.map fun t =>
      ((Lowering.emitUnit Mips.backend t).toOption.isSome,
        (Lowering.emitUnit Llvm.backend t).toOption.isSome)) = some (true, true) := by
    decide +kernel
  cases table : ClassTable.build chained.withBuiltins with
  | error f =>
    rw [table] at built
    cases built
  | ok t =>
    rw [table] at built emits
    obtain ⟨names, functions⟩ := Prod.mk.inj (Option.some.inj built)
    obtain ⟨mips, llvm⟩ := Prod.mk.inj (Option.some.inj emits)
    have length : t.classes.length = 8 := by simpa using congrArg List.length names
    obtain ⟨drives, holdsMips, holdsLlvm⟩ := classes_in_order _ t table
    obtain ⟨vs, r, first⟩ := drives Mips.backend
    obtain ⟨s, rfl⟩ := first.emitted mips
    obtain ⟨ws, r, second⟩ := drives Llvm.backend
    obtain ⟨u, rfl⟩ := second.emitted llvm
    exact ⟨t, rfl, names, functions,
      ⟨vs, s, first, length ▸ first.all s rfl, holdsMips vs s first⟩,
      ⟨ws, u, second, length ▸ second.all u rfl, holdsLlvm ws u second⟩⟩

end Driver

end ClassBackend
