import SsaCodegen.Ir.Ty
/-! The registers of a target as an allocator sees them: numbered, each of one
class, some allocatable in a fixed order of preference, some kept by callees. -/
namespace SsaCodegen

inductive RegClass where
  | gpr | fpr
  deriving DecidableEq, Repr, Inhabited

def RegClass.all : List RegClass := [.gpr, .fpr]

def RegClass.name : RegClass → String
  | .gpr => "gpr"
  | .fpr => "fpr"

def Ty.regClass (t : Ty) : RegClass := if t.isFloat then .fpr else .gpr

structure RegisterFile where
  names : List String
  classes : List RegClass
  allocatableGpr : List Nat
  allocatableFpr : List Nat
  calleeSaved : List Nat
  deriving DecidableEq, Repr

namespace RegisterFile

def name (r : RegisterFile) (n : Nat) : String := r.names.getD n "?"

def class? (r : RegisterFile) (n : Nat) : Option RegClass := r.classes[n]?

def allocatable (r : RegisterFile) : RegClass → List Nat
  | .gpr => r.allocatableGpr
  | .fpr => r.allocatableFpr

def isAllocatable (r : RegisterFile) (n : Nat) : Bool :=
  r.allocatableGpr.contains n || r.allocatableFpr.contains n

def isCalleeSaved (r : RegisterFile) (n : Nat) : Bool := r.calleeSaved.contains n

end RegisterFile
end SsaCodegen
