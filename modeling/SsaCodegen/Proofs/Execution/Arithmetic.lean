import Mathlib.Algebra.Group.Int.Defs
import Mathlib.Algebra.Group.Nat.Defs
import SsaCodegen.Opt.ConstantFold
/-! Integer operations by the integers that words stand for. Results wrap at the width of their
type, shifts take their amount modulo it, and a division that has no result traps. What is
folded is what would have been computed, and a power of two is divided by shifting. -/
namespace SsaCodegen

abbrev Word := BitVec 64

def Ty.canonical (ty : Ty) (word : Word) : Word :=
  match ty with
  | .i32 => (word.setWidth 32).signExtend 64
  | .b1 => if word = 0 then 0 else 1
  | _ => word

theorem narrowExtended (low : BitVec 32) : (low.signExtend 64).setWidth 32 = low := by
  refine BitVec.eq_of_toNat_eq ?_
  rw [BitVec.toNat_setWidth, BitVec.toNat_signExtend, BitVec.toNat_setWidth]
  split <;> omega

theorem Ty.canonicalTwice (ty : Ty) (word : Word) :
    ty.canonical (ty.canonical word) = ty.canonical word := by
  cases ty with
  | i32 => exact congrArg (BitVec.signExtend 64) (narrowExtended _)
  | b1 => by_cases zero : word = 0 <;> simp [canonical]
  | _ => rfl

namespace Arithmetic
variable {n : Nat}

def result (op : Opcode) (a b : BitVec n) : Option Int :=
  let amount := b.toNat % n
  match op with
  | .iadd => some (a.toInt + b.toInt)
  | .isub => some (a.toInt - b.toInt)
  | .imul => some (a.toInt * b.toInt)
  | .band => some (a.toNat &&& b.toNat : Nat)
  | .bor => some (a.toNat ||| b.toNat : Nat)
  | .bxor => some (a.toNat ^^^ b.toNat : Nat)
  | .ishl => some (a.toNat * 2 ^ amount : Nat)
  | .ushr => some (a.toNat / 2 ^ amount : Nat)
  | .sshr => some (a.toInt / 2 ^ amount)
  | .udiv => if b.toNat = 0 then none else some (a.toNat / b.toNat : Nat)
  | .urem => if b.toNat = 0 then none else some (a.toNat % b.toNat : Nat)
  | .sdiv =>
    if b.toInt = 0 ∨ (a.toInt = -2 ^ (n - 1) ∧ b.toInt = -1) then none
    else some (a.toInt.tdiv b.toInt)
  | .srem =>
    if b.toInt = 0 ∨ (a.toInt = -2 ^ (n - 1) ∧ b.toInt = -1) then none
    else some (a.toInt.tmod b.toInt)
  | _ => none

def operate (op : Opcode) (ty : Ty) (a b : Word) : Option Word :=
  ((result op (a.setWidth ty.bits) (b.setWidth ty.bits)).map (BitVec.ofInt ty.bits)).map
    (BitVec.signExtend 64)

def compare (c : IntCond) (a b : BitVec n) : Bool :=
  match c with
  | .eq => a.toNat = b.toNat
  | .ne => a.toNat ≠ b.toNat
  | .slt => a.toInt < b.toInt
  | .sle => a.toInt ≤ b.toInt
  | .sgt => a.toInt > b.toInt
  | .sge => a.toInt ≥ b.toInt
  | .ult => a.toNat < b.toNat
  | .ule => a.toNat ≤ b.toNat
  | .ugt => a.toNat > b.toNat
  | .uge => a.toNat ≥ b.toNat

theorem holdsCompares (c : IntCond) (a b : BitVec n) : c.holds a b = compare c a b := by
  cases c with
  | eq => simp only [IntCond.holds, compare, BitVec.toNat_inj, Bool.beq_eq_decide_eq]
  | ne => simp [IntCond.holds, compare, BitVec.toNat_inj, bne, Bool.beq_eq_decide_eq]
  | _ => rfl

theorem wraps {x : BitVec n} {z : Int} (same : x.toInt = z.bmod (2 ^ n)) : BitVec.ofInt n z = x :=
  BitVec.eq_of_toInt_eq ((BitVec.toInt_ofInt z).trans same.symm)

theorem fits {x : BitVec n} {k : Nat} (same : x.toNat = k) : BitVec.ofInt n k = x := by
  rw [BitVec.ofInt_natCast, ← same, BitVec.ofNat_toNat, BitVec.setWidth_eq]

open ConstantFold (evalBinary isFoldable foldBinary exponent? reduceStrength)

theorem guarded {p q : Prop} [Decidable p] [Decidable q] {x : BitVec n} {z : Int} (same : q ↔ p)
    (wrapped : BitVec.ofInt n z = x) :
    (if p then none else some x) = (if q then none else some z).map (BitVec.ofInt n) := by
  by_cases traps : p
  · rw [if_pos traps, if_pos (same.mpr traps)]
    rfl
  · rw [if_neg traps, if_neg fun also => traps (same.mp also), Option.map_some, wrapped]

theorem undivided (positive : 0 < n) (a b : BitVec n) :
    (b.toInt = 0 ∨ (a.toInt = -2 ^ (n - 1) ∧ b.toInt = -1)) ↔
      (b = 0 || (a == BitVec.intMin n && b == -1)) = true := by
  have one : (-1 : BitVec n).toInt = -1 := by
    have all : (-1 : BitVec n) = BitVec.allOnes n := BitVec.neg_one_eq_allOnes
    rw [all, BitVec.toInt_allOnes, if_pos positive]
  rw [← BitVec.toInt_intMin_of_pos positive, ← one, ← BitVec.toInt_zero (w := n), BitVec.toInt_inj,
    BitVec.toInt_inj, BitVec.toInt_inj]
  simp

theorem evaluates (op : Opcode) (positive : 0 < n) (a b : BitVec n) :
    evalBinary op a b = (result op a b).map (BitVec.ofInt n) := by
  cases op with
  | iadd => exact congrArg some (wraps (BitVec.toInt_add a b)).symm
  | isub => exact congrArg some (wraps BitVec.toInt_sub).symm
  | imul => exact congrArg some (wraps (BitVec.toInt_mul a b)).symm
  | band => exact congrArg some (fits (BitVec.toNat_and a b)).symm
  | bor => exact congrArg some (fits (BitVec.toNat_or a b)).symm
  | bxor => exact congrArg some (fits (BitVec.toNat_xor a b)).symm
  | ishl =>
    refine congrArg some (wraps ?_).symm
    rw [BitVec.toInt_shiftLeft, Nat.shiftLeft_eq]
  | ushr =>
    refine congrArg some (fits ?_).symm
    rw [BitVec.toNat_ushiftRight, Nat.shiftRight_eq_div_pow]
  | sshr =>
    refine congrArg some ?_
    rw [BitVec.sshiftRight, Int.shiftRight_eq_div_pow]
    norm_cast
  | udiv => exact guarded (BitVec.toNat_inj (y := 0)) (fits BitVec.toNat_udiv)
  | urem => exact guarded (BitVec.toNat_inj (y := 0)) (fits BitVec.toNat_umod)
  | sdiv => exact guarded (undivided positive a b) (wraps (BitVec.toInt_sdiv a b))
  | srem =>
    refine guarded (undivided positive a b) ?_
    rw [← BitVec.toInt_srem, BitVec.ofInt_toInt]
  | _ => rfl

theorem intCases {ty : Ty} (int : ty.isInt = true) : ty = .i32 ∨ ty = .i64 := by
  cases ty <;> simp [Ty.isInt] at int ⊢

section Width
variable {ty : Ty} (int : ty.isInt = true)
include int

theorem operateEvaluates (op : Opcode) (a b : Word) : operate op ty a b =
    (evalBinary op (a.setWidth ty.bits) (b.setWidth ty.bits)).map (BitVec.signExtend 64) := by
  have positive : 0 < ty.bits := by
    rcases intCases int with rfl | rfl <;> decide
  rw [operate, ← evaluates op positive]

theorem operateCanonical (op : Opcode) (a b : Word) :
    operate op ty a (ty.canonical b) = operate op ty a b := by
  rcases intCases int with rfl | rfl
  · rw [operate, Ty.canonical, Ty.bits, narrowExtended]
    rfl
  · rfl

theorem foldsToResult (op : Opcode) (a b : Word) : foldBinary op a b ty = operate op ty a b := by
  rw [operateEvaluates int]
  rcases intCases int with rfl | rfl
  · rfl
  · have same : BitVec.signExtend 64 = (id : Word → Word) := funext BitVec.signExtend_eq
    rw [Ty.bits, BitVec.setWidth_eq, BitVec.setWidth_eq, same, Option.map_id]
    rfl

theorem exponentIff {b : Word} {k : Nat} : exponent? b ty = some k ↔
    k < ty.bits ∧ b.setWidth ty.bits = BitVec.twoPow ty.bits k := by
  have reads : (if ty = .i32 then (b.setWidth 32).toNat else b.toNat) = (b.setWidth ty.bits).toNat := by
    rcases intCases int with rfl | rfl
    · rfl
    · rw [Ty.bits, BitVec.setWidth_eq, if_neg (by decide)]
  unfold exponent?
  dsimp only
  rw [reads]
  constructor
  · intro power
    split at power
    · rename_i same
      rw [Option.some.inj power, Nat.one_shiftLeft] at same
      have small : 2 ^ k < 2 ^ ty.bits := same ▸ BitVec.isLt _
      refine ⟨(Nat.pow_lt_pow_iff_right (by decide)).mp small, BitVec.eq_of_toNat_eq ?_⟩
      rw [same, BitVec.toNat_twoPow, Nat.mod_eq_of_lt small]
    · cases power
  · intro ⟨below, same⟩
    have small := Nat.pow_lt_pow_right (show 1 < 2 by decide) below
    rw [same, BitVec.toNat_twoPow, Nat.mod_eq_of_lt small, Nat.log2_two_pow, Nat.one_shiftLeft, if_pos rfl]

variable {b : Word} {k : Nat} (power : exponent? b ty = some k) (a : Word)
include power

theorem amountOf : ((BitVec.ofNat 64 k).setWidth ty.bits).toNat % ty.bits = k := by
  have below := ((exponentIff int).mp power).1
  rw [BitVec.toNat_setWidth, BitVec.toNat_ofNat]
  rcases intCases int with rfl | rfl <;> simp only [Ty.bits] at below ⊢ <;> omega

theorem timesPower : operate .imul ty a b = operate .ishl ty a (BitVec.ofNat 64 k) := by
  rw [operateEvaluates int, operateEvaluates int, evalBinary, evalBinary, amountOf int power,
    ((exponentIff int).mp power).2, BitVec.mul_twoPow_eq_shiftLeft]

theorem powerDivides : BitVec.twoPow ty.bits k ≠ 0 := by
  intro zero
  have below := Nat.pow_lt_pow_right (show 1 < 2 by decide) ((exponentIff int).mp power).1
  have values := congrArg BitVec.toNat zero
  rw [BitVec.toNat_twoPow, Nat.mod_eq_of_lt below] at values
  exact absurd values (Nat.ne_of_gt (Nat.two_pow_pos k))

theorem overPower : operate .udiv ty a b = operate .ushr ty a (BitVec.ofNat 64 k) := by
  obtain ⟨below, same⟩ := (exponentIff int).mp power
  rw [operateEvaluates int, operateEvaluates int, evalBinary, evalBinary, amountOf int power, same,
    if_neg (powerDivides int power), BitVec.udiv_twoPow_eq_of_lt below]

theorem modPower : operate .urem ty a b = operate .band ty a (BitVec.ofNat 64 ((1 <<< k) - 1)) := by
  obtain ⟨below, same⟩ := (exponentIff int).mp power
  have positive := Nat.two_pow_pos k
  have small := Nat.pow_lt_pow_right (show 1 < 2 by decide) below
  have wide : 2 ^ ty.bits ≤ 2 ^ 64 := by
    rcases intCases int with rfl | rfl <;> decide
  have masked : a.setWidth ty.bits % BitVec.twoPow ty.bits k =
      a.setWidth ty.bits &&& (BitVec.ofNat 64 ((1 <<< k) - 1)).setWidth ty.bits := by
    refine BitVec.eq_of_toNat_eq ?_
    rw [BitVec.toNat_umod, BitVec.toNat_twoPow, Nat.mod_eq_of_lt small, BitVec.toNat_and,
      BitVec.toNat_setWidth ty.bits (BitVec.ofNat _ _), BitVec.toNat_ofNat, Nat.one_shiftLeft,
      Nat.mod_eq_of_lt (a := 2 ^ k - 1) (by omega), Nat.mod_eq_of_lt (a := 2 ^ k - 1) (by omega),
      Nat.and_two_pow_sub_one_eq_mod]
  rw [operateEvaluates int, operateEvaluates int, evalBinary, evalBinary, same,
    if_neg (powerDivides int power), masked]

end Width

theorem comparesNarrow (c : IntCond) {a b : Word} (left : Ty.i32.canonical a = a)
    (right : Ty.i32.canonical b = b) : compare c a b = compare c (a.setWidth 32) (b.setWidth 32) := by
  have signed {w : Word} (extended : Ty.i32.canonical w = w) : w.toInt = (w.setWidth 32).toInt :=
    calc w.toInt = (Ty.i32.canonical w).toInt := by rw [extended]
      _ = (w.setWidth 32).toInt := BitVec.toInt_signExtend_of_le (by decide)
  have order {w : Word} (extended : Ty.i32.canonical w = w) : w.toNat = (w.setWidth 32).toNat +
      if (w.setWidth 32).toNat < 2 ^ 31 then 0 else 2 ^ 64 - 2 ^ 32 := by
    have same := signed extended
    rw [BitVec.toInt_eq_toNat_cond, BitVec.toInt_eq_toNat_cond] at same
    split at same <;> split at same <;> split <;> omega
  cases c <;> simp only [compare, signed left, signed right, order left, order right] <;>
    refine decide_eq_decide.mpr ?_ <;> split <;> split <;> omega

theorem evaluateCompares (c : IntCond) (a b : Word) : c.evaluate a b 32 =
    compare c (a.setWidth 32) (b.setWidth 32) ∧ c.evaluate a b 64 = compare c a b :=
  ⟨holdsCompares c _ _, holdsCompares c _ _⟩

end Arithmetic
end SsaCodegen
