import ClassBackend.Proofs.Llvm.Transcript
import ClassBackend.Proofs.Mips.Transcript

/-! No initializer expression is evaluated before every field of the object has its default. Each
initializer is written step by step as planned, and with the calls of parents' initializers
replaced by their code the defaults of the whole chain of classes come first. -/
namespace ClassBackend

open Initializer Lowering Meaning

/-- What the initializers of a chain of classes store, for an object of the last one. -/
structure ClassTable.FillsObjects (t : ClassTable) : Prop where
  /-- Over the chain, each field gets the default of its type once, in its own slot. -/
  defaults : ∀ k ∈ t.classes, ((ancestors t k).flatMap defaults).Perm (defaultsFrom 0 k.fields)
  /-- The slots of the initializer expressions are those of their attributes. -/
  inits : ∀ k ∈ t.classes, ∀ a ∈ ancestors t k, ∀ i x, a.decl.attributes[i]? = some x →
    k.fields[a.ownStart + i]? = some ⟨x.name, x.ty, a.name⟩

/-- Code of initializers, by the name of the class, among the functions of a unit. -/
structure Initializes {ι : Type} (t : ClassTable) (script : Transcript.Script ι) (pool : Pool)
    (functions : List (List ι)) (code : Listing ι) : Prop where
  /-- Each class has its initializer and then its methods. -/
  functions : ∃ methods : String → List (List ι), functions =
    t.classes.flatMap fun k => (code k.name).flatMap Prod.snd :: methods k.name
  written : ∀ k ∈ t.classes, Transcript.Recorded script ⟨t, k⟩ pool (plan k) (code k.name)
  /-- The defaults of the class and its ancestors, itself first, and then the expressions of all of
  them, the root first. -/
  order : ∀ k ∈ t.classes, ∃ ps, Inlined code (code k.name) ps ∧
    stores ps = (ancestors t k).flatMap Initializer.defaults ++
      (ancestors t k).reverse.flatMap Initializer.inits

variable {p : Program} {t : ClassTable} {B : Backend} {ι : Type}

theorem ClassTable.fillsObjects (h : ClassTable.build p = .ok t) : t.FillsObjects where
  defaults _ hk := defaults_perm h hk
  inits _ hk _ ha _ _ there := init_slot h hk ha there

theorem Transcript.initializes {T : Transcript B ι} {script : Script ι} {s : Session B}
    (law : T.Lawful script) (h : ClassTable.build p = .ok t)
    (emitted : Lowering.emitUnit B t = .ok s) :
    ∃ functions code, T.idle functions s.target ∧ Initializes t script s.pool functions code := by
  obtain ⟨code, methods, there, written⟩ := emitUnit_writes law h emitted
  refine ⟨_, code, there, ⟨methods, rfl⟩, written, fun k hk => ?_⟩
  exact inlined_order h (fun j hj => (written j hj).1) hk

/-- Every field has its default before the first initializer expression is evaluated, in the units
of both backends. -/
theorem assemble_defaultsFirst (p : Program) (t : ClassTable) (h : ClassTable.build p = .ok t) :
    t.FillsObjects ∧
    (∀ gcTest a, Mips.assemble gcTest t = .ok a → ∃ pool functions code,
      Mips.Data.emit gcTest t pool = .ok a.data ∧ a.code = functions.flatten ∧
      Initializes t Mips.script pool functions code) ∧
    ∀ sourceName m, Llvm.Module.assemble sourceName t = .ok m → ∃ pool code,
      Llvm.Module.constantsOf t (Llvm.Module.complete t pool) = .ok m.constants ∧
      Initializes t Llvm.script pool (m.functions.map Llvm.Function.listing) code := by
  refine ⟨ClassTable.fillsObjects h, fun gcTest a assembled => ?_, fun name m assembled => ?_⟩
  · obtain ⟨s, data, emitted, laid, rfl⟩ := Mips.assemble_made assembled
    obtain ⟨functions, code, there, initializes⟩ :=
      Transcript.initializes Mips.transcript_lawful h emitted
    exact ⟨s.pool, functions, code, laid, there, initializes⟩
  · obtain ⟨s, constants, main, emitted, pooled, _, rfl⟩ := Llvm.assemble_made assembled
    obtain ⟨functions, code, ⟨_, rfl⟩, initializes⟩ :=
      Transcript.initializes Llvm.transcript_lawful h emitted
    exact ⟨s.pool, code, pooled, initializes⟩

/-- Fields of every kind of default, and an heir whose initializer reads a field above it. -/
def chained : Program := ⟨[
  ⟨"Base", some "Object", [
    .attribute "size" "Int" (some (.int ⟨"Int", 1⟩ 3)),
    .attribute "name" "String" none,
    .method "size" [] "Int" (some (.ident ⟨"Int", 2⟩ "size"))], "base.cl"⟩,
  ⟨"Heir", some "Base", [
    .attribute "flag" "Bool" none,
    .attribute "next" "Base" none,
    .attribute "twice" "Int" (some (.binary ⟨"Int", 4⟩ .plus (.ident ⟨"Int", 4⟩ "size")
      (.ident ⟨"Int", 4⟩ "size")))], "heir.cl"⟩,
  ⟨"Main", some "Object", [
    .method "main" [] "Heir" (some (.new ⟨"Heir", 5⟩ "Heir"))], "main.cl"⟩]⟩

theorem chained_defaultsFirst : ∃ t, ClassTable.build chained.withBuiltins = .ok t ∧
    t.FillsObjects ∧
    (∃ a pool functions code, Mips.assemble false t = .ok a ∧
      Mips.Data.emit false t pool = .ok a.data ∧ a.code = functions.flatten ∧
      Initializes t Mips.script pool functions code) ∧
    ∃ m pool code, Llvm.Module.assemble "main.cl" t = .ok m ∧
      Llvm.Module.constantsOf t (Llvm.Module.complete t pool) = .ok m.constants ∧
      Initializes t Llvm.script pool (m.functions.map Llvm.Function.listing) code := by
  obtain ⟨t, a, m, built, assembled, assembled', -⟩ := bothBuilt_of_check
    (p := chained.withBuiltins) (f := Mips.assemble false) (g := Llvm.Module.assemble "main.cl")
    (c := fun _ _ _ => true) (by decide +kernel)
  obtain ⟨fills, mips, llvm⟩ := assemble_defaultsFirst _ t built
  obtain ⟨pool, functions, code, units⟩ := mips false a assembled
  obtain ⟨pool', code', units'⟩ := llvm "main.cl" m assembled'
  exact ⟨t, built, fills, ⟨a, pool, functions, code, assembled, units⟩,
    ⟨m, pool', code', assembled', units'⟩⟩

end ClassBackend
