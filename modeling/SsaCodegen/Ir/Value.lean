import SsaCodegen.Decimal.Binary64
/-! Operands: a reference to an SSA value, or an inline literal. Literals are kept
as 64-bit words, so two floats are equal when their patterns are. -/
namespace SsaCodegen

inductive Value where
  | temp (id : Nat)
  | int (word : BitVec 64)
  | bool (flag : Bool)
  | float (bits : BitVec 64)
  deriving DecidableEq, Repr, Inhabited

namespace Value

def temp? : Value → Option Nat
  | .temp id => some id
  | _ => none

def isTemp (v : Value) : Bool := v.temp?.isSome

def isConst (v : Value) : Bool := !v.isTemp

def isFloatConst : Value → Bool
  | .float _ => true
  | _ => false

def tempId (v : Value) : Nat := v.temp?.getD 0

def intConst? : Value → Option (BitVec 64)
  | .int word => some word
  | .bool flag => some (BitVec.ofNat 64 flag.toNat)
  | _ => none

def intPayload (v : Value) : BitVec 64 := v.intConst?.getD 0

def floatBits : Value → BitVec 64
  | .float bits => bits
  | _ => 0

def text : Value → String
  | .temp id => "v" ++ toString id
  | .int word => toString word.toInt
  | .bool flag => if flag then "true" else "false"
  | .float bits => (Decimal.Binary64.ofBits bits).text

theorem tempIff {v : Value} {id : Nat} : v.temp? = some id ↔ v = .temp id := by
  cases v <;> simp [temp?]

end Value

def valueName (id : Nat) : String := "v" ++ toString id

end SsaCodegen
