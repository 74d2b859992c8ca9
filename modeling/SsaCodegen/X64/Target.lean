import SsaCodegen.Settings
import SsaCodegen.X64.Registers
/-! The target: its settings and the limits it puts on frames and functions. -/
namespace SsaCodegen.X64

structure Limits where
  maxFrameBytes : Nat := 0x100000
  maxFunctionBytes : Nat := 0x40000000
  deriving DecidableEq, Repr, Inhabited

namespace Limits

def frameLimit (l : Limits) : Nat := (BitVec.ofNat 32 l.maxFrameBytes).toNat

def functionLimit (l : Limits) : Nat := (BitVec.ofNat 32 l.maxFunctionBytes).toNat

end Limits

structure Target where
  flags : Flags := {}
  limits : Limits := {}
  deriving DecidableEq, Repr, Inhabited

namespace Target

def name : String := "x86_64"

def defaultCallConv : CallConv := .systemV

def knownNames : List String := [name, "x86-64"]

structure Unsupported where
  name : String
  deriving DecidableEq, Repr

def Unsupported.message (u : Unsupported) : String := "unsupported target '" ++ u.name ++ "'"

def lookup (requested : String) (flags : Flags) : Except Unsupported Target :=
  if knownNames.contains requested then .ok { flags := flags } else .error ⟨requested⟩

def host (flags : Flags) : Except Unsupported Target := lookup name flags

end Target
end SsaCodegen.X64
