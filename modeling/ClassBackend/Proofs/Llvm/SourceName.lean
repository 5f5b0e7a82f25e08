import ClassBackend.Compile
import ClassBackend.Proofs.Llvm.Literals
import ClassBackend.Proofs.Lowering.Simulation

/-! The line of a module with the name of its source. The name is written as it is, so the line says
what it should only for names in which nothing has a meaning of its own. -/
namespace ClassBackend.Llvm

open Lowering

/-- The line is one line, and its literal is read as the name. -/
def NamesSource (line name : String) : Prop :=
  '\n' ∉ line.toList ∧ ∃ literal, line.toList = "source_filename = \"".toList ++ literal ∧
    readLiteral literal = some (name.toUTF8.toList, [])

/-- No character means anything but itself inside a literal. -/
def Unescaped (cs : List Char) : Prop :=
  '"' ∉ cs ∧ ∀ a b, ['\\', a, b] <:+: cs → hexByte? a b = none

/-- A name that can be written as it is. -/
def PlainName (name : String) : Prop := '\n' ∉ name.toList ∧ Unescaped name.toList

section Names

variable {c : Char} {cs rest : List Char} {bs : List UInt8}

theorem encode_pos (c : Char) : 0 < (String.utf8EncodeChar c).length := by
  rw [String.length_utf8EncodeChar]
  exact c.utf8Size_pos

theorem readLiteral_length (h : readLiteral cs = some (bs, rest)) :
    bs.length < (cs.flatMap String.utf8EncodeChar).length := by
  induction cs using readLiteral.induct generalizing bs rest with
  | case1 a b cs x value ih =>
    simp only [readLiteral_escape value, Option.map_eq_some_iff, Prod.exists, Prod.mk.injEq] at h
    obtain ⟨read, _, found, rfl, rfl⟩ := h
    have shorter := ih found
    have slash := encode_pos '\\'
    simp only [List.flatMap_cons, List.length_append, List.length_cons]
    omega
  | case2 a b cs value ih =>
    simp only [readLiteral, value, Option.map_eq_some_iff, Prod.exists, Prod.mk.injEq] at h
    obtain ⟨read, _, found, rfl, rfl⟩ := h
    have shorter := ih found
    rw [List.flatMap_cons, List.length_append, List.length_append]
    omega
  | case3 cs plain =>
    simp only [readLiteral] at h
    cases h
    have quote := encode_pos '"'
    rw [List.flatMap_cons, List.length_append, List.length_nil]
    omega
  | case4 c cs plain other ih =>
    rw [readLiteral_other other fun a b r slash same => (plain a b r slash same).elim] at h
    simp only [Option.map_eq_some_iff, Prod.exists, Prod.mk.injEq] at h
    obtain ⟨read, _, found, rfl, rfl⟩ := h
    have shorter := ih found
    rw [List.flatMap_cons, List.length_append, List.length_append]
    omega
  | case5 => cases h

theorem digits_inside {a b : Char} {r : List Char} {x : UInt8} (value : hexByte? a b = some x)
    (h : cs ++ ['"'] = a :: b :: r) : ∃ r', cs = a :: b :: r' ∧ r = r' ++ ['"'] := by
  match cs, h with
  | [], h => simp at h
  | [_], h =>
    obtain ⟨rfl, rfl, _⟩ := by simpa using h
    rw [hexByte_quote_right] at value
    cases value
  | _ :: _ :: r', h =>
    obtain ⟨rfl, rfl, rfl⟩ := by simpa using h
    exact ⟨r', rfl, rfl⟩

theorem unescaped_cons : Unescaped (c :: cs) ↔ c ≠ '"' ∧
    (∀ a b r, c = '\\' → cs = a :: b :: r → hexByte? a b = none) ∧ Unescaped cs := by
  constructor
  · rintro ⟨quotes, escapes⟩
    rw [List.mem_cons, not_or] at quotes
    refine ⟨fun same => quotes.1 same.symm, ?_, quotes.2, ?_⟩
    · rintro a b r rfl rfl
      exact escapes a b (List.prefix_append ['\\', a, b] r).isInfix
    · exact fun a b inside => escapes a b (inside.trans (List.suffix_cons c cs).isInfix)
  · rintro ⟨quote, escape, quotes, escapes⟩
    constructor
    · rw [List.mem_cons, not_or]
      exact ⟨fun same => quote same.symm, quotes⟩
    · intro a b inside
      rcases List.infix_cons_iff.mp inside with ⟨r, first⟩ | later
      · obtain ⟨rfl, rfl⟩ := List.cons.inj first
        exact escape a b r rfl rfl
      · exact escapes a b later

/-- A text without a quote or an escape in it is read as itself, and no other text is. -/
theorem unescaped_iff (cs : List Char) :
    Unescaped cs ↔ readLiteral (cs ++ ['"']) = some (cs.flatMap String.utf8EncodeChar, []) := by
  induction cs with
  | nil => exact ⟨fun _ => rfl, fun _ => ⟨by simp, fun a b inside => by simp at inside⟩⟩
  | cons c cs ih =>
    rw [unescaped_cons, List.cons_append]
    by_cases quote : c = '"'
    · subst quote
      have first : readLiteral ('"' :: (cs ++ ['"'])) = some ([], cs ++ ['"']) := rfl
      simp [first]
    by_cases escape : ∃ a b r x, c = '\\' ∧ cs = a :: b :: r ∧ hexByte? a b = some x
    · obtain ⟨a, b, r, x, rfl, rfl, value⟩ := escape
      constructor
      · rintro ⟨_, plain, _⟩
        rw [plain a b r rfl rfl] at value
        cases value
      · -- three characters are read as one byte, so what is read is too short
        intro read
        change readLiteral ('\\' :: a :: b :: (r ++ ['"'])) = _ at read
        simp only [readLiteral_escape value, Option.map_eq_some_iff, Prod.exists,
          Prod.mk.injEq] at read
        obtain ⟨bs, _, found, same, rfl⟩ := read
        have shorter := readLiteral_length found
        have lengths := congrArg List.length same
        simp only [List.flatMap_append, List.flatMap_cons, List.flatMap_nil, List.length_append,
          List.length_cons, List.length_nil] at shorter lengths
        have quote : (String.utf8EncodeChar '"').length = 1 := rfl
        have slash := encode_pos '\\'
        have := encode_pos a
        have := encode_pos b
        omega
    · have plain : ∀ a b r, c = '\\' → cs = a :: b :: r → hexByte? a b = none := by
        intro a b r slash behind
        cases value : hexByte? a b with
        | none => rfl
        | some x => exact absurd ⟨a, b, r, x, slash, behind, value⟩ escape
      have read : ∀ a b r, c = '\\' → cs ++ ['"'] = a :: b :: r → hexByte? a b = none := by
        intro a b r slash behind
        cases value : hexByte? a b with
        | none => rfl
        | some x =>
          obtain ⟨r', rfl, _⟩ := digits_inside value behind
          exact absurd ⟨a, b, r', x, slash, rfl, value⟩ escape
      rw [readLiteral_other quote read, ih, List.flatMap_cons]
      constructor
      · rintro ⟨_, _, found⟩
        rw [found, Option.map_some]
      · intro found
        simp only [Option.map_eq_some_iff, Prod.exists, Prod.mk.injEq] at found
        obtain ⟨bs, _, found, same, rfl⟩ := found
        cases List.append_cancel_left same
        exact ⟨quote, plain, found⟩

theorem sourceLine_toList (name : String) : (Module.sourceLine name).toList =
    "source_filename = \"".toList ++ (name.toList ++ ['"']) := by
  unfold Module.sourceLine
  have quote : "\"".toList = ['"'] := by decide
  generalize "source_filename = \"" = opening
  rw [String.toList_append, String.toList_append, quote]
  exact List.append_assoc ..

/-- The line names the source for plain names and for no other. -/
theorem namesSource_iff (name : String) :
    NamesSource (Module.sourceLine name) name ↔ PlainName name := by
  have start : '\n' ∉ "source_filename = \"".toList := by decide
  unfold NamesSource PlainName
  rw [sourceLine_toList, unescaped_iff, utf8_eq]
  generalize "source_filename = \"".toList = opening at start
  apply and_congr
  · simp [start]
  · constructor
    · rintro ⟨literal, same, read⟩
      rw [List.append_cancel_left same]
      exact read
    · exact fun read => ⟨_, rfl, read⟩

end Names

section Runs

variable {t : ClassTable} {m : Module}

def Module.named (m : Module) (name : String) : Module := { m with sourceName := name }

theorem assemble_named (name : String) :
    Module.assemble name t = (Module.assemble "" t).map (·.named name) := by
  unfold Module.assemble
  cases emitUnit backend t with
  | error f => rfl
  | ok s =>
    simp only [bind, Except.bind, Module.ofState]
    cases s.target.function with
    | some f => rfl
    | none =>
      simp only [Module.build, bind, Except.bind]
      cases Module.constantsOf t (Module.complete t s.pool) with
      | error f => rfl
      | ok constants =>
        cases t.find Builtin.mainName with
        | error f => rfl
        | ok main => rfl

theorem named_lines (m : Module) :
    ∃ rest, ∀ name,
      (m.named name).lines = "; ModuleID = 'coolc'" :: Module.sourceLine name :: rest := by
  apply Exists.intro
  intro name
  simp only [Module.lines, Module.named, List.cons_append, List.nil_append, List.append_assoc]
  exact rfl

end Runs

def textOf (lines : List String) : String := String.join (lines.map (· ++ "\n"))

/-- Whether a program compiles has nothing to do with the name of its source, and nor has any other
line than that of the name. -/
theorem compile_named (p : Program) (gcTest : Bool) :
    (∃ f, ∀ name, compile p .llvm gcTest name = .error f) ∨
    ∃ rest, ∀ name, compile p .llvm gcTest name =
      .ok (textOf ("; ModuleID = 'coolc'" :: Module.sourceLine name :: rest)) := by
  unfold compile
  cases ClassTable.build p.withBuiltins with
  | error f => exact .inl ⟨f, fun _ => rfl⟩
  | ok t =>
    cases assembled : Module.assemble "" t with
    | error f =>
      refine .inl ⟨f, fun name => ?_⟩
      have same := assemble_named (t := t) name
      rw [assembled] at same
      simp only [bind, Except.bind, same, Except.map]
    | ok m =>
      obtain ⟨rest, lines⟩ := named_lines m
      refine .inr ⟨rest, fun name => ?_⟩
      have same := assemble_named (t := t) name
      rw [assembled] at same
      simp only [bind, Except.bind, same, Except.map, pure, Except.pure, Module.text, lines]
      rfl

/-- A module names its source for plain names only, and all its other lines are the same for all
names. -/
theorem compile_namesSource (p : Program) (gcTest : Bool) :
    (∃ f, ∀ name, compile p .llvm gcTest name = .error f) ∨
    ∃ rest, ∀ name, compile p .llvm gcTest name =
        .ok (textOf ("; ModuleID = 'coolc'" :: Module.sourceLine name :: rest)) ∧
      (NamesSource (Module.sourceLine name) name ↔ PlainName name) := by
  rcases compile_named p gcTest with failed | ⟨rest, written⟩
  · exact .inl failed
  · exact .inr ⟨rest, fun name => ⟨written name, namesSource_iff name⟩⟩

def idle : Program := ⟨[
  ⟨"Main", some "IO", [
    .method "main" [] "Int" (some (.int ⟨"Int", 1⟩ 0))], "main.cl"⟩]⟩

/-- A quote in the name ends the literal. -/
theorem quotedName_lost : ∃ rest, compile idle .llvm false "a\"b.cl" =
      .ok (textOf ("; ModuleID = 'coolc'" :: Module.sourceLine "a\"b.cl" :: rest)) ∧
    ¬NamesSource (Module.sourceLine "a\"b.cl") "a\"b.cl" := by
  have compiles : (compile idle .llvm false "a\"b.cl").toOption.isSome = true := by decide +kernel
  rcases compile_named idle false with ⟨f, failed⟩ | ⟨rest, written⟩
  · rw [failed] at compiles
    cases compiles
  · refine ⟨rest, written _, fun names => ?_⟩
    have plain := (namesSource_iff _).mp names
    exact plain.2.1 (by decide)

end ClassBackend.Llvm
