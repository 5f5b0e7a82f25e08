/-! Names in emitted code. Those that are fresh in a compilation unit, temporaries and block labels,
share a counter, so that no number is used twice. -/
namespace ClassBackend

structure Temp where
  id : Nat
  deriving DecidableEq, Repr

/-- A branch target inside one method. The hint says what the block is for. -/
structure BlockName where
  hint : String
  id : Nat
  deriving DecidableEq, Repr

def Temp.text (t : Temp) : String := "t" ++ toString t.id
def BlockName.text (b : BlockName) : String := b.hint ++ toString b.id

structure Fresh where
  next : Nat := 1
  deriving DecidableEq, Repr

namespace Fresh

def temp (f : Fresh) : Temp × Fresh := (⟨f.next⟩, ⟨f.next + 1⟩)
def block (f : Fresh) (hint : String) : BlockName × Fresh := (⟨hint, f.next⟩, ⟨f.next + 1⟩)

end Fresh

end ClassBackend

/-! Names of what is emitted once for each class, and of the two tables of all classes. -/
namespace ClassBackend.Linkage

def dispatchTable (cls : String) : String := cls ++ "_dispTab"
def prototype (cls : String) : String := cls ++ "_protObj"
def initializer (cls : String) : String := cls ++ "_init"
def struct (cls : String) : String := "%" ++ cls
def method (cls name : String) : String := cls ++ "." ++ name

def classNames : String := "class_nameTab"
def classObjects : String := "class_objTab"

end ClassBackend.Linkage
