/-! A positive rational number written with a fixed count of significant decimal
digits. The digits are those of the nearest number on that decimal grid; of two
equally near ones the even is taken. -/
namespace SsaCodegen.Decimal

def roundHalfEven (num den : Nat) : Nat :=
  let q := num / den
  let r := num % den
  if den < 2 * r || (den == 2 * r && q % 2 == 1) then q + 1 else q

def digitCount (n : Nat) : Nat := (Nat.toDigits 10 n).length

def leadingExponent (num den : Nat) : Int :=
  if den ≤ num then (digitCount (num / den) : Int) - 1
  else -(digitCount ((den + num - 1) / num - 1) : Int)

structure Scientific where
  digits : Nat
  exponent : Int
  deriving DecidableEq, Repr

def powerOfTen (n : Nat) : Nat := Nat.pow 10 n

def significant (count num den : Nat) : Scientific :=
  let x := leadingExponent num den
  let shift := (count : Int) - 1 - x
  let d :=
    if 0 ≤ shift then roundHalfEven (num * powerOfTen shift.toNat) den
    else roundHalfEven num (den * powerOfTen (-shift).toNat)
  if d = powerOfTen count then ⟨powerOfTen (count - 1), x + 1⟩ else ⟨d, x⟩

def dropTrailingZeros (cs : List Char) : List Char :=
  (cs.reverse.dropWhile (· == '0')).reverse

def zeros (n : Nat) : List Char := List.replicate n '0'

def exponentText (x : Int) : List Char :=
  let ds := Nat.toDigits 10 x.natAbs
  (if x < 0 then ['e', '-'] else ['e', '+']) ++ zeros (2 - ds.length) ++ ds

def withFraction (whole fraction : List Char) : List Char :=
  if fraction.isEmpty then whole else whole ++ '.' :: fraction

/-- Positional for exponents from -4 to below `count`, otherwise with an exponent;
zeros at the end of the fraction are dropped. -/
def generalText (count : Nat) (s : Scientific) : List Char :=
  let ds := dropTrailingZeros (Nat.toDigits 10 s.digits)
  if s.exponent < -4 || (count : Int) ≤ s.exponent then
    withFraction (ds.take 1) (ds.drop 1) ++ exponentText s.exponent
  else if s.exponent < 0 then
    withFraction ['0'] (zeros ((-s.exponent).toNat - 1) ++ ds)
  else
    let places := s.exponent.toNat + 1
    withFraction (ds.take places ++ zeros (places - ds.length)) (ds.drop places)

end SsaCodegen.Decimal
