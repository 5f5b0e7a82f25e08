import ClassBackend.Proofs.Llvm.Cases
import ClassBackend.Proofs.Mips.Cases

/-! A case takes the branch that is nearest. At each case of a program, and whatever stands around
it, a machine with an object of any class comes out of the tests at the branch whose type is the
first ancestor of the class that some branch has, and at the abort where no branch has one. -/
namespace ClassBackend

open Hierarchy Lowering Machine Transcript

/-- In the units of both backends, the tests of a case select the nearest branch. -/
theorem assemble_selectsNearest (p : Program) (t : ClassTable)
    (h : ClassTable.build p.withBuiltins = .ok t) :
    (∀ gcTest a, Mips.assemble gcTest t = .ok a → ∃ pool,
      Mips.Data.emit gcTest t pool = .ok a.data ∧
      ∀ k ∈ t.classes, ∀ i e bs, .caseOf i e bs ∈ k.expressions →
        Mips.transcript.Selects Mips.monitor p.withBuiltins.classes ⟨t, k⟩ pool a.code e bs) ∧
    ∀ sourceName m, Llvm.Module.assemble sourceName t = .ok m → ∃ pool,
      Llvm.Module.constantsOf t (Llvm.Module.complete t pool) = .ok m.constants ∧
      ∀ k ∈ t.classes, ∀ i e bs, .caseOf i e bs ∈ k.expressions → ∃ f ∈ m.functions,
        Llvm.transcript.Selects Llvm.monitor p.withBuiltins.classes ⟨t, k⟩ pool f.listing e bs := by
  refine ⟨fun gcTest a assembled => ?_, fun name m assembled => ?_⟩
  · obtain ⟨distinct, pool, data, has⟩ := Mips.assemble_has h assembled
    exact ⟨pool, data, fun k hk i e bs he => Mips.selects_of_has distinct h (has k hk _ he)⟩
  · obtain ⟨pool, constants, has⟩ := Llvm.assemble_has h assembled
    refine ⟨pool, constants, fun k hk i e bs he => ?_⟩
    obtain ⟨f, hf, distinct, there⟩ := has k hk _ he
    exact ⟨f, hf, Llvm.selects_of_has distinct h there⟩

section Starts

variable {t : ClassTable} {k C : ClassLayout} {pool : Pool} {e : Expr} {bs : List (Branch Expr)}

theorem Mips.exists_start {code before es gs ts : List Mips.Instr}
    {qs : List (Stretch Mips.backend Mips.Instr)}
    (there : Mips.transcript.CaseAt ⟨t, k⟩ pool e bs code before .s0 es gs ts qs)
    (words : ∀ k ∈ t.classes, ∃ y : BitVec 32, y.toInt = k.tag) (hC : C ∈ t.classes) :
    ∃ u c, Mips.monitor.Start u t code (before ++ es ++ gs) qs .s0 (8 : BitVec 32) C c := by
  obtain ⟨_, _, _, _, _, _, _, _, _, tests, _⟩ := there
  obtain @⟨_, _, _, _, _, _, _, _, _, _, _, entry, _, chain⟩ := tests
  obtain ⟨n, rfl, _⟩ := Mips.entry_puts entry
  obtain ⟨o, slots⟩ := Mips.arms_slot chain
  obtain ⟨y, tag⟩ := words C hC
  let regs : Mips.Reg → BitVec 32 :=
    Function.update (Function.update (fun _ => 8) .fp 0) .sp (BitVec.ofInt 32 o)
  let cpu : Mips.Cpu := ⟨regs, fun _ => some y⟩
  have slot {q : Stretch Mips.backend Mips.Instr} (hq : q ∈ qs) :
      cpu.get .sp = cpu.get .fp + BitVec.ofInt 32 q.access := by
    rw [slots q hq]
    exact (BitVec.zero_add _).symm
  exact ⟨⟨code, fun _ => 0, fun _ _ => none⟩, ⟨(before ++ es ++ gs).length, cpu⟩, rfl, rfl, rfl,
    ⟨y, rfl, tag⟩, fun q hq => ⟨slot hq, rfl⟩, words⟩

theorem Llvm.exists_start {f : Llvm.Function} {before es gs ts : List Llvm.CodeLine}
    {qs : List (Stretch Llvm.backend Llvm.CodeLine)}
    (there : Llvm.transcript.CaseAt ⟨t, k⟩ pool e bs f.listing before .self es gs ts qs)
    (words : ∀ k ∈ t.classes, ∃ y : BitVec 64, y.toInt = k.tag) (hC : C ∈ t.classes) :
    ∃ u c, Llvm.monitor.Start u t f.listing (before ++ es ++ gs) qs .self (8 : BitVec 64) C c := by
  obtain ⟨_, _, _, _, _, ns, after, whole, _, tests, _⟩ := there
  obtain @⟨_, _, _, _, _, _, _, drawn, _, _, _, entry, _, _⟩ := tests
  obtain ⟨_, rfl, _⟩ := Llvm.entry_puts entry
  obtain ⟨y, tag⟩ := words C hC
  have split : f.listing = before ++ es ++ gs ++ (Llvm.tagLines drawn.fresh.next .self ++
      (Stretch.codes qs ++ ns ++ after)) := by
    rw [whole]
    simp only [List.append_assoc]
  obtain ⟨l, n, behind⟩ := Llvm.exists_behind split
  obtain ⟨c, here, memory⟩ : ∃ c : Llvm.Config, c.Behind (before ++ es ++ gs) ∧
      c.memory = fun _ => some y :=
    ⟨_, behind l (fun _ => 0) fun _ => some y, rfl⟩
  have mapped (a : BitVec 64) : c.memory a = some y := by rw [memory]
  exact ⟨⟨f.body, [], fun _ => 0, 8, fun _ => 0, fun _ => none⟩, c, ⟨f, rfl, rfl⟩, here, rfl,
    ⟨y, mapped _, tag⟩, fun q _ => Option.isSome_of_eq_some (mapped _), words⟩

end Starts

section Taken

variable {B : Backend} {ι : Type} {T : Transcript B ι} {X : Monitor B ι} {ds : List ClassDecl}
variable {cx : Context} {p : Pool} {code before es gs ts : List ι} {e : Expr} {C : ClassLayout}
variable {bs : List (Branch Expr)} {v : B.Value} {qs : List (Stretch B ι)} {n : Nat}

/-- Some machine starts the tests with an object of the class, and comes out at the branch of that
number with the object in its slot. -/
def Transcript.Takes (T : Transcript B ι) (X : Monitor B ι) (cx : Context) (p : Pool)
    (code : List ι) (e : Expr) (bs : List (Branch Expr)) (C : ClassLayout) (n : Nat) : Prop :=
  ∃ before v es gs ts qs front q back u c x d,
    T.CaseAt cx p e bs code before v es gs ts qs ∧ qs = front ++ q :: back ∧ q.number = n ∧
    X.Start u cx.classes code (before ++ es ++ gs) qs v x C c ∧
    (X.engine u).Arrives (X.Testing u (before ++ es ++ gs) ts qs) c d ∧
    X.behind u (bodyPlace (before ++ es ++ gs) ts front q) d ∧ X.slot u d q.access x

theorem Transcript.Selects.takes (h : T.Selects X ds cx p code e bs)
    (known : C ∈ cx.classes.classes) (near : Nearest ds C.name bs n)
    (starts : ∀ {before v es gs ts qs}, T.CaseAt cx p e bs code before v es gs ts qs →
      ∃ u c x, X.Start u cx.classes code (before ++ es ++ gs) qs v x C c) :
    T.Takes X cx p code e bs C n := by
  obtain ⟨before, v, es, gs, ts, qs, there, selects⟩ := h
  obtain ⟨u, c, x, start⟩ := starts there
  have mem : n ∈ qs.map (·.number) := by
    obtain ⟨_, inside, _⟩ := near
    rw [there.branches.1.mem_iff]
    exact List.mem_range.mpr (List.getElem?_eq_some_iff.mp inside).1
  obtain ⟨q, hq, rfl⟩ := List.mem_map.mp mem
  obtain ⟨front, back, parts⟩ := List.append_of_mem hq
  obtain ⟨decides, holds⟩ := (selects u c x C known start).1 front q back parts
  obtain ⟨d, out, behind⟩ := decides.mp near
  exact ⟨before, v, es, gs, ts, qs, front, q, back, u, c, x, d, there, parts, rfl, start, out,
    behind, holds d out behind⟩

theorem Transcript.CaseAt.self {a : Info}
    (h : T.CaseAt cx p (.ident a selfName) bs code before v es gs ts qs) : v = B.selfObject := by
  obtain ⟨_, _, _, _, _, _, _, _, _, tests, _⟩ := h
  obtain @⟨_, _, _, _, _, _, _, _, ⟨run, _⟩, _, _, _, _, _⟩ := tests
  rw [Resolved.lower, Resolved.identifier, if_pos rfl] at run
  exact (pure_ok.mp run).1.symm

end Taken

def selfCase : Program := ⟨[⟨"Main", some "Object", [
  .method "main" [] "Object" (some (.caseOf ⟨"Object", 1⟩ (.ident ⟨"SELF_TYPE", 1⟩ "self") [
    ⟨"x", "Object", .ident ⟨"Object", 2⟩ "x"⟩, ⟨"y", "Main", .ident ⟨"Main", 3⟩ "y"⟩]))],
  "main.cl"⟩]⟩

def Expr.selfBranches? : Expr → Option (List String)
  | .caseOf _ (.ident _ name) bs => if name = selfName then some (bs.map (·.ty)) else none
  | _ => none

theorem Expr.selfBranches?_some {e : Expr} {types : List String}
    (h : e.selfBranches? = some types) :
    ∃ i a bs, e = .caseOf i (.ident a selfName) bs ∧ bs.map (·.ty) = types := by
  unfold Expr.selfBranches? at h
  split at h
  · split at h
    · rename_i i a name bs self
      subst self
      exact ⟨i, a, bs, rfl, Option.some.inj h⟩
    · cases h
  · cases h

theorem selfCase_takesMain : ∃ t k i e bs, ClassTable.build selfCase.withBuiltins = .ok t ∧
    k ∈ t.classes ∧ k.name = "Main" ∧ .caseOf i e bs ∈ k.expressions ∧
    bs.map (·.ty) = ["Object", "Main"] ∧
    (∃ a pool, Mips.assemble false t = .ok a ∧
      Mips.transcript.Takes Mips.monitor ⟨t, k⟩ pool a.code e bs k 1) ∧
    ∃ m pool, Llvm.Module.assemble "main.cl" t = .ok m ∧ ∃ f ∈ m.functions,
      Llvm.transcript.Takes Llvm.monitor ⟨t, k⟩ pool f.listing e bs k 1 := by
  obtain ⟨t, asm, m, built, assembled, assembled', checked⟩ := bothBuilt_of_check
    (p := selfCase.withBuiltins) (f := Mips.assemble false) (g := Llvm.Module.assemble "main.cl")
    (c := fun t _ _ => t.classes.all (fun k => k.tag < 100) &&
      t.classes.any fun k => k.name == "Main" &&
        k.expressions.any fun e => e.selfBranches? == some ["Object", "Main"])
    (by decide +kernel)
  obtain ⟨mips, llvm⟩ := assemble_selectsNearest _ t built
  simp only [Bool.and_eq_true, List.all_eq_true, List.any_eq_true, beq_iff_eq,
    decide_eq_true_eq] at checked
  obtain ⟨small, k, hk, named, e, he, self⟩ := checked
  obtain ⟨i, a, bs, rfl, types⟩ := Expr.selfBranches?_some self
  have near : Nearest selfCase.withBuiltins.classes k.name bs 1 := by
    simp only [List.map_eq_cons_iff, List.map_eq_nil_iff] at types
    obtain ⟨b, _, rfl, other, b', _, rfl, same, rfl⟩ := types
    refine ⟨b', rfl, ?_, fun c _ up => ?_, fun m c less there alike => ?_⟩
    · rw [named, same]
      exact .refl
    · rwa [same, ← named]
    · obtain rfl : m = 0 := by omega
      cases there
      rw [other, same] at alike
      exact absurd alike (by decide)
  have words : ∀ k ∈ t.classes, ∃ y : BitVec 32, y.toInt = k.tag := by
    intro k hk
    have low := small k hk
    refine ⟨BitVec.ofInt 32 k.tag, Mips.fits_toInt ?_⟩
    simp only [Mips.Word.fits, Bool.and_eq_true, decide_eq_true_eq]
    omega
  have words' : ∀ k ∈ t.classes, ∃ y : BitVec 64, y.toInt = k.tag := by
    intro k hk
    have low := small k hk
    exact ⟨BitVec.ofInt 64 k.tag, Llvm.fits_toInt (by omega) (by omega)⟩
  obtain ⟨pool, _, selects⟩ := mips false asm assembled
  obtain ⟨pool', _, selects'⟩ := llvm "main.cl" m assembled'
  obtain ⟨f, hf, selects'⟩ := selects' k hk i _ bs he
  refine ⟨t, k, i, _, bs, built, hk, named, he, types, ⟨asm, pool, assembled, ?_⟩, m, pool',
    assembled', f, hf, ?_⟩
  · refine (selects k hk i _ bs he).takes hk near fun there => ?_
    obtain rfl := there.self
    obtain ⟨u, c, start⟩ := Mips.exists_start there words hk
    exact ⟨u, c, _, start⟩
  · refine selects'.takes hk near fun there => ?_
    obtain rfl := there.self
    obtain ⟨u, c, start⟩ := Llvm.exists_start there words' hk
    exact ⟨u, c, _, start⟩

end ClassBackend
