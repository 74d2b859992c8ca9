import SsaCodegen.Decimal.Significant
/-! The text of a 64-bit float pattern: seventeen significant digits, which always
read back as the same number. A NaN shows its sign but not its payload. -/
namespace SsaCodegen.Decimal

structure Binary64 where
  negative : Bool
  exponent : Nat
  fraction : Nat
  deriving DecidableEq, Repr

namespace Binary64

def ofBits (bits : BitVec 64) : Binary64 :=
  ⟨bits.getLsbD 63, (bits.extractLsb' 52 11).toNat, (bits.extractLsb' 0 52).toNat⟩

def isSpecial (f : Binary64) : Bool := f.exponent == 2047

def isNan (f : Binary64) : Bool := f.isSpecial && f.fraction != 0

def significand (f : Binary64) : Nat :=
  if f.exponent = 0 then f.fraction else (1 <<< 52) + f.fraction

def scale (f : Binary64) : Nat := if f.exponent = 0 then 1 else f.exponent

def digitsKept : Nat := 17

def magnitudeText (f : Binary64) : List Char :=
  if f.isNan then ['n', 'a', 'n']
  else if f.isSpecial then ['i', 'n', 'f']
  else if f.significand = 0 then ['0']
  else
    generalText digitsKept
      (significant digitsKept (f.significand <<< (f.scale - 1075)) (1 <<< (1075 - f.scale)))

def text (f : Binary64) : String :=
  String.ofList ((if f.negative then ['-'] else []) ++ f.magnitudeText)

end Binary64
end SsaCodegen.Decimal
