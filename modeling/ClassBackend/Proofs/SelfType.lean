import ClassBackend.Compile
import ClassBackend.Proofs.Llvm.Exits
import ClassBackend.Proofs.Mips.Exits
import ClassBackend.Proofs.Mips.Image

/-! New objects of the class of `self`. The code looks the class up when it runs, and does what the
code for that class does. -/
namespace ClassBackend

open Lowering Machine

namespace Lowering

variable {B : Backend} {cx : Context} {info : Info} {k : ClassLayout}
variable {s s' : Session B} {v : B.Value}

end Lowering

namespace ClassTable

variable {p : Program} {t : ClassTable}

end ClassTable

section Runs

variable {t : ClassTable} {k : ClassLayout} {pool : Pool} {e : Expr}

def Expr.made? : Expr → Option String
  | .new _ ty => some ty
  | _ => none

namespace Mips

/-- The object in `$a0` is copied to the place, and the copy is the answer. -/
def Cpu.copied (s : Cpu) (place : BitVec 32) : Cpu :=
  let bytes := (s.mem (s.get .a0 + BitVec.ofNat 32 4)).elim 0 (4 * ·.toNat)
  Cpu.set ⟨s.regs, fun a =>
    if (a - place).toNat < bytes then s.mem (s.get .a0 + (a - place)) else s.mem a⟩ .a0 place

def heap : BitVec 32 := Assembly.dataBase + 196608

def Assembly.bare (a : Assembly) (k : ClassLayout) : Bool :=
  (Data.wordsAt (Linkage.prototype k.name) a.data).take 2 == [.num k.tag, .num 3]

variable {a : Assembly} {items : List Data.Item}

section Copies

variable {u : Site} {s : Cpu} {bytes : BitVec 32}

end Copies

end Mips

namespace Llvm

variable {m : Module} {f : Function}

end Llvm

def ClassTable.makes (t : ClassTable) (current ty : String) : Bool :=
  t.classes.any fun k => k.name == current && k.expressions.any (·.made? == some ty)

end Runs

end ClassBackend
