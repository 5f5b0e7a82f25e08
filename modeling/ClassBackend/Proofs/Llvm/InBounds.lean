import Mathlib.Data.List.Pairwise
import ClassBackend.Proofs.Llvm.Accesses
import ClassBackend.Proofs.Llvm.ClassObjects
import ClassBackend.Proofs.Llvm.Closed
import ClassBackend.Proofs.Llvm.SingleAssignment

/-! Memory of a module: the structs of its classes, the objects that it has as constants, the sizes
that it asks for, and the accesses of its code. All of them agree. -/
namespace ClassBackend.Llvm

open Lowering Hierarchy

variable {p : Program} {t : ClassTable} {m : Module} {k : ClassLayout}

/-- The lines of a function, those of its slots among them. -/
def Function.lines (f : Function) : List Line := f.passages.flatMap Passage.lines

structure Function.Accesses (f : Function) (t : ClassTable) : Prop where
  /-- The element of an address is there, and what is loaded or stored through it has its type. -/
  elements : ∀ q s base i, .instr (.assign q (.element s base i)) ∈ f.lines →
    ∃ ty, Element t f.lines s base i ty ∧
      (∀ r ty', .instr (.assign r (.load ty' (.temp q))) ∈ f.lines → ty' = ty) ∧
      ∀ v ty', .instr (.store ty' v (.temp q)) ∈ f.lines → ty' = ty
  loads : ∀ r ty a, .instr (.assign r (.load ty a)) ∈ f.lines → Leads t f.lines a ty
  stores : ∀ ty v a, .instr (.store ty v a) ∈ f.lines → Leads t f.lines a ty
  sizes : ∀ r ty args, .instr (.assign r (.call ty (.symbol Routine.gcAlloc.symbol) args)) ∈
    f.lines → Sized t f.lines args
  allocates : ∀ args, .instr (.callVoid (.symbol Routine.gcAlloc.symbol) args) ∉ f.lines

def Constant : Ty → Operand → Prop
  | .i64, v => ∃ n, v = .int n
  | .ptr, v => v = .null ∨ (∃ c, v = .const c) ∨ ∃ s, v = .symbol s

/-- Constants of these types behind the header of an object of the class. -/
structure Image (types : List Ty) (k : ClassLayout) (es : List (Ty × Operand)) : Prop where
  types : es.map (·.1) = types
  constants : ∀ e ∈ es, Constant e.1 e.2
  header : [(.i64, .int k.tag), (.i64, .int (slotSize * (structTypes k).length : Nat)),
    (.ptr, .symbol (Linkage.dispatchTable k.name))] <+: es

/-- An object in a global is one of `Int`, `Bool` or `String`; rows describe all classes. -/
def Global.Fits (t : ClassTable) : Global → Prop
  | .pointers .. | .bytes .. => True
  | .object _ s es => s ∈ ClassTable.unboxed ∧
    ∃ k ∈ t.classes, k.name = s ∧ Image (structTypes k) k es
  | .records _ s rows => s = classObject ∧ List.Forall₂ (Image classObjectTypes) t.classes rows

structure Module.InBounds (m : Module) (p : Program) (t : ClassTable) : Prop where
  structs : m.structs = ⟨classObject, classObjectTypes⟩ ::
    t.classes.map fun k => ⟨k.name, structTypes k⟩
  named : (t.classes.map (·.name)).Nodup
  heirs : ∀ k ∈ t.classes, ∀ d ∈ t.classes, Descends p.classes d.name k.name →
    structTypes k <+: structTypes d
  code : ∀ f ∈ m.functions, f.text = definitionText f.signature f.passages ∧ f.Accesses t
  globals : ∀ g ∈ m.globals, g.Fits t
  table : m.Describes t
  /-- The class whose object the entry point asks for. -/
  main : m.main ∈ t.classes ∧ Sized t [] (Module.header m.main)

section Lines

theorem lines_eq (f : Function) : f.lines = linesOf f.slots f.listing := by
  have instrs (is : List Instr) : (is.map CodeLine.instr).filterMap CodeLine.line? =
      is.map .instr := by
    simp [List.filterMap_map, Function.comp_def, CodeLine.line?]
  have code (bs : List (Block Label Instr)) :
      (bs.flatMap fun c => .block c.label :: c.instrs.toList.map .instr).filterMap CodeLine.line? =
        bs.flatMap fun c => c.instrs.toList.map .instr := by
    induction bs with
    | nil => rfl
    | cons c bs ih =>
      rw [List.flatMap_cons, List.filterMap_append, ih, List.flatMap_cons,
        List.filterMap_cons_none rfl, instrs]
  have rest (bs : List (Block Label Instr)) : (bs.map (Block.passage [])).flatMap Passage.lines =
      bs.flatMap fun c => c.instrs.toList.map .instr := by
    rw [List.flatMap_map]
    rfl
  rw [linesOf, Function.listing, bodyListing, List.filterMap_cons_none rfl, code, Function.lines,
    Function.passages]
  cases blocks : f.body.blocks with
  | nil => simp [Builder.blocks] at blocks
  | cons b bs =>
    rw [passages, List.flatMap_cons, rest, List.flatMap_cons, ← List.append_assoc]
    rfl

theorem definition_unique {ls : List Line} (once : (definitions ls).Nodup) {l l' : Line} {q : Temp}
    (hl : l ∈ ls) (hl' : l' ∈ ls) (result : l.result? = some q) (result' : l'.result? = some q) :
    l = l' := by
  have apart : ls.Pairwise fun l l' => ∀ q, l.result? = some q → l'.result? ≠ some q := by
    have results := List.pairwise_filterMap.mp once
    exact results.imp fun differ q first second => differ q first q second rfl
  have symm : Std.Symm fun l l' : Line => ∀ q, l.result? = some q → l'.result? ≠ some q :=
    ⟨fun _ _ differ q first second => differ q second first⟩
  by_contra other
  exact apart.forall hl hl' other q result result'

end Lines

section Types

variable {f : Function} {s : String} {base : Operand} {i : Nat} {ty ty' : Ty} {ls : List Line}

/-- An element has one type. A class that has the name of the table's rows has boxed fields only,
as the rows have. -/
theorem Element.unique (ordinary : p.Ordinary) (h : ClassTable.build p.withBuiltins = .ok t)
    (element : Element t ls s base i ty) (element' : Element t ls s base i ty') : ty = ty' := by
  have row {i : Nat} {ty ty' : Ty} (declared : Declared t classObject i ty)
      (type : classObjectTypes[i]? = some ty') : ty = ty' := by
    obtain ⟨k, hk, name, there⟩ := declared
    have plain : k.name ∉ ClassTable.unboxed := by
      rw [name]
      decide
    have below : i < 4 := (List.getElem?_eq_some_iff.mp type).1
    obtain rfl | header : i = 3 ∨ i < 3 := by omega
    · simp only [structTypes, List.cons_append, List.nil_append, List.getElem?_cons_succ,
        List.getElem?_map, Option.map_eq_some_iff] at there
      obtain ⟨f, hf, rfl⟩ := there
      rw [fieldType_boxed (ClassTable.fields_boxed ordinary h hk plain f (List.mem_of_getElem? hf))]
      exact Option.some.inj type
    · rw [structTypes, List.getElem?_append_left header] at there
      have same : classObjectTypes[i]? = some ty := by
        rw [← there, show classObjectTypes = [.i64, .i64, .ptr] ++ [.ptr] from rfl,
          List.getElem?_append_left header]
      exact Option.some.inj (same.symm.trans type)
  cases element with
  | object declared =>
    cases element' with
    | object declared' =>
      obtain ⟨k, hk, name, there⟩ := declared
      obtain ⟨k', hk', name', there'⟩ := declared'
      cases ClassTable.eq_of_name h hk hk' (name.trans name'.symm)
      exact Option.some.inj (there.symm.trans there')
    | row _ type => exact row declared type
  | row _ type =>
    cases element' with
    | object declared => exact (row declared type).symm
    | row _ type' => exact Option.some.inj (type.symm.trans type')

theorem Leads.type (ordinary : p.Ordinary) (h : ClassTable.build p.withBuiltins = .ok t)
    (once : (definitions ls).Nodup) {q : Temp}
    (there : .instr (.assign q (.element s base i)) ∈ ls) (element : Element t ls s base i ty)
    (leads : Leads t ls (.temp q) ty') : ty' = ty := by
  cases leads with
  | slot slot => cases definition_unique once there slot rfl rfl
  | element there' element' =>
    cases definition_unique once there there' rfl rfl
    exact element'.unique ordinary h element
  | entry entry => cases definition_unique once there entry rfl rfl

theorem Function.accesses (ordinary : p.Ordinary) (h : ClassTable.build p.withBuiltins = .ok t)
    (once : (definitions f.lines).Nodup) (typed : Typed t f.slots f.listing) : f.Accesses t := by
  have suits (ins : Instr) (there : .instr ins ∈ f.lines) : Suits t f.lines ins := by
    rw [lines_eq] at there ⊢
    exact typed ins (instr_mem_linesOf.mp there)
  constructor
  · intro q s base i there
    obtain ⟨ty, element⟩ := suits _ there
    exact ⟨ty, element, fun r ty' load => Leads.type ordinary h once there element (suits _ load),
      fun v ty' store => Leads.type ordinary h once there element (suits _ store)⟩
  · exact fun r ty a load => suits _ load
  · exact fun ty v a store => suits _ store
  · exact fun r ty args call => suits _ call rfl
  · exact fun args call => suits _ call rfl

end Types

section Data

theorem structTypes_prefix (h : ClassTable.build p = .ok t) {d : ClassLayout} (hk : k ∈ t.classes)
    (hd : d ∈ t.classes) (up : Descends p.classes d.name k.name) :
    structTypes k <+: structTypes d := by
  obtain ⟨more, whole⟩ := ClassTable.heir_fields h hk hd up
  exact ⟨more.map fun f => fieldType f.ty, by
    rw [structTypes, structTypes, ← whole, List.map_append, List.append_assoc]⟩

theorem header_constant (k : ClassLayout) : ∀ e ∈ Module.header k, Constant e.1 e.2 := by
  simp [Module.header, Constant]

theorem header_image {types : List Ty} {es : List (Ty × Operand)} (k : ClassLayout)
    (behind : [.i64, .i64, .ptr] ++ es.map (·.1) = types) (constants : ∀ e ∈ es, Constant e.1 e.2) :
    Image types k (Module.header k ++ es) where
  types := by rw [List.map_append, ← behind]; rfl
  constants := List.forall_mem_append.mpr ⟨header_constant k, constants⟩
  header := by
    rw [header_eq]
    exact List.prefix_append ..

theorem builtin_types (ordinary : p.Ordinary) (h : ClassTable.build p.withBuiltins = .ok t)
    {b : ClassDecl} (builtin : b ∈ Builtin.classes) (below : b.parent = some Builtin.objectName)
    (found : t.find b.name = .ok k) : k ∈ t.classes ∧ k.name = b.name ∧
      structTypes k = [.i64, .i64, .ptr] ++ (Layout.ownFields b).map fun f => fieldType f.ty := by
  obtain ⟨inherited, own⟩ := ClassTable.builtin_fields ordinary h builtin below found
  refine ⟨ClassTable.mem_of_find found, ClassTable.name_of_find found, ?_⟩
  rw [structTypes, ClassLayout.fields, inherited, own, List.nil_append]

theorem constants_fit (ordinary : p.Ordinary) (h : ClassTable.build p.withBuiltins = .ok t)
    {pool : Pool} {constants : List Global} (made : Module.constantsOf t pool = .ok constants) :
    ∀ g ∈ constants, g.Fits t := by
  obtain ⟨int, bool, string, hint, hbool, hstring, rfl⟩ := constantsOf_made made
  have object {b : ClassDecl} {k : ClassLayout} (builtin : b ∈ Builtin.classes)
      (below : b.parent = some Builtin.objectName) (found : t.find b.name = .ok k)
      (unboxed : b.name ∈ ClassTable.unboxed) {label : String} {es : List (Ty × Operand)}
      (types : (Layout.ownFields b).map (fun f => fieldType f.ty) = es.map (·.1))
      (constants : ∀ e ∈ es, Constant e.1 e.2) :
      (Global.object label b.name (Module.header k ++ es)).Fits t := by
    obtain ⟨hk, name, struct⟩ := builtin_types ordinary h builtin below found
    refine ⟨unboxed, k, hk, name, header_image k ?_ constants⟩
    rw [struct, types]
  intro g mem
  rcases List.mem_append.mp mem with mem | texts
  · rcases List.mem_append.mp mem with ints | bools
    · obtain ⟨⟨c, v⟩, _, rfl⟩ := List.mem_map.mp ints
      exact object (b := Builtin.int) (by simp [Builtin.classes]) rfl hint (by decide) rfl
        (by simp [Constant])
    · have value (v : Bool) : (Module.boolObject bool v).Fits t := by
        unfold Module.boolObject
        exact object (b := Builtin.bool) (by simp [Builtin.classes]) rfl hbool (by decide) rfl
          (by simp [Constant])
      rcases List.mem_pair.mp bools with rfl | rfl
      · exact value false
      · exact value true
  · obtain ⟨⟨⟨c, s, length⟩, i⟩, _, mem⟩ := List.mem_flatMap.mp texts
    rcases List.mem_pair.mp mem with rfl | rfl
    · trivial
    · exact object (b := Builtin.string) (by simp [Builtin.classes]) rfl hstring (by decide) rfl
        (by simp [Constant])

theorem dispatchTables_fit (t : ClassTable) : ∀ g ∈ Module.dispatchTablesOf t, g.Fits t := by
  intro g mem
  obtain ⟨k, _, rfl⟩ := List.mem_map.mp mem
  trivial

theorem classTables_fit (t : ClassTable) (pool : Pool) :
    ∀ g ∈ Module.classTablesOf t pool, g.Fits t := by
  intro g mem
  rcases List.mem_pair.mp mem with rfl | rfl
  · refine ⟨rfl, ?_⟩
    rw [List.forall₂_map_right_iff]
    exact List.forall₂_same.mpr fun k _ => header_image k rfl (by simp [Constant])
  · trivial

end Data

theorem Certified.once {f : Function} (h : Certified f) : (definitions f.lines).Nodup := by
  obtain ⟨w, _, covers⟩ := h
  obtain ⟨b, rest, blocks, _⟩ := covers.entry
  rw [Function.lines, Function.passages, Certificate.definitions_passages (by simp [blocks])]
  exact covers.once

theorem assemble_inBounds (ordinary : p.Ordinary) (h : ClassTable.build p.withBuiltins = .ok t)
    {sourceName : String} (assembled : Module.assemble sourceName t = .ok m) :
    m.InBounds p.withBuiltins t := by
  obtain ⟨s, constants, main, emitted, pooled, found, rfl⟩ := assemble_made assembled
  have typed := emitUnit_typed ordinary h emitted
  have certified := emitUnit_certified (Resolved.emitUnit_of_ok h emitted)
  have hmain := ClassTable.mem_of_find found
  constructor
  · rfl
  · exact ClassTable.names_nodup h
  · exact fun k hk d hd up => structTypes_prefix h hk hd up
  · exact fun f hf => ⟨f.text_eq, f.accesses ordinary h (certified f hf).once (typed f hf)⟩
  · intro g mem
    rcases List.mem_append.mp mem with front | tables
    · rcases List.mem_append.mp front with dispatch | constant
      · exact dispatchTables_fit t g dispatch
      · exact constants_fit ordinary h pooled g constant
    · exact classTables_fit t _ g tables
  · exact assemble_describes h assembled
  · exact ⟨hmain, header_eq main ▸ .header hmain⟩

/-- In what a program is compiled to, the accesses to objects stay inside and have the types of
their structs; so have the objects that are there from the start, and sizes are those of the
structs. -/
theorem compile_inBounds (p : Program) (ordinary : p.Ordinary) (gcTest : Bool)
    (sourceName text : String) (h : compile p .llvm gcTest sourceName = .ok text) :
    ∃ t m, ClassTable.build p.withBuiltins = .ok t ∧ Module.assemble sourceName t = .ok m ∧
      text = m.text ∧ m.InBounds p.withBuiltins t := by
  obtain ⟨t, m, built, assembled, rfl⟩ := compile_llvm_ok.mp h
  exact ⟨t, m, built, assembled, rfl, assemble_inBounds ordinary built assembled⟩

/-- Numbers and texts in the fields of a class and its heir, which makes objects of its own
class. -/
def counting : Program := ⟨[
  ⟨"Counter", some "Object", [
    .attribute "count" "Int" (some (.int ⟨"Int", 1⟩ 1)),
    .attribute "last" "Counter" none,
    .method "step" [⟨"n", "Int"⟩] "Int" (some (.assign ⟨"Int", 2⟩ "count"
      (.binary ⟨"Int", 2⟩ .plus (.ident ⟨"Int", 2⟩ "count") (.ident ⟨"Int", 2⟩ "n")))),
    .method "twin" [] "SELF_TYPE" (some (.new ⟨"SELF_TYPE", 3⟩ "SELF_TYPE"))], "main.cl"⟩,
  ⟨"Named", some "Counter", [
    .attribute "label" "String" (some (.str ⟨"String", 4⟩ "one")),
    .attribute "on" "Bool" none], "main.cl"⟩,
  ⟨"Main", some "Object", [.method "main" [] "Int" (some (.dispatch ⟨"Int", 5⟩
    (.new ⟨"Named", 5⟩ "Named") none "step" [.unary ⟨"Int", 5⟩ .neg (.int ⟨"Int", 5⟩ 6)]))],
    "main.cl"⟩]⟩

theorem counting_inBounds : counting.Ordinary ∧ ∃ text,
    compile counting .llvm false "main.cl" = .ok text ∧
    ∃ t m, ClassTable.build counting.withBuiltins = .ok t ∧ Module.assemble "main.cl" t = .ok m ∧
      text = m.text ∧ m.InBounds counting.withBuiltins t := by
  have ordinary : counting.Ordinary := ⟨by decide, by decide, by decide⟩
  have compiles : (compile counting .llvm false "main.cl").toOption.isSome = true := by
    decide +kernel
  cases made : compile counting .llvm false "main.cl" with
  | error f => rw [made] at compiles; cases compiles
  | ok text => exact ⟨ordinary, text, rfl, compile_inBounds _ ordinary _ _ _ made⟩

end ClassBackend.Llvm
