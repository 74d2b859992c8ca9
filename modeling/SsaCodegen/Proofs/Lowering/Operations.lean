import SsaCodegen.Proofs.Execution.Arithmetic
import SsaCodegen.Proofs.Lowering.Integers
import SsaCodegen.X64.Lower
/-! What the machine computes is what the operations of the same name compute: on words of the width of
the type the results are equal, conditions hold where comparisons do, and a division faults where the
operation traps. -/
namespace SsaCodegen.X64
open ConstantFold (evalBinary)

variable {w : Nat}

theorem aluEvaluates {op : Opcode} (alu : Recipe.ofOpcode op = .alu) (a b : BitVec w) :
    aluOpOf op ≠ .cmp ∧ evalBinary op a b = some ((aluOpOf op).apply a b) := by
  cases op <;> first | exact ⟨by decide, rfl⟩ | cases alu

theorem shiftEvaluates {op : Opcode} (shift : Recipe.ofOpcode op = .shift) (a b : BitVec w) :
    evalBinary op a b = some ((shiftOpOf op).apply a (b.toNat % w)) := by
  cases op <;> first | rfl | cases shift

section Conditions
variable (a b : BitVec w)

theorem zeroAfterSub : (Flags.ofSub a b).zero = (a == b) := by
  rw [Flags.ofSub, Bool.eq_iff_iff, beq_iff_eq, beq_iff_eq]
  refine ⟨fun zero => ?_, fun same => same ▸ BitVec.sub_self a⟩
  rw [← BitVec.sub_add_cancel a b, zero]
  exact BitVec.zero_add b

theorem lessAfterSub : ((Flags.ofSub a b).sign != (Flags.ofSub a b).overflow) = a.slt b := by
  show ((a - b).msb != BitVec.ssubOverflow a b) = a.slt b
  cases overflows : BitVec.ssubOverflow a b with
  | true =>
    -- the sign is wrong, but then the operands have different signs
    rw [BitVec.ssubOverflow_eq] at overflows
    simp only [BitVec.msb_eq_toInt] at overflows ⊢
    rw [BitVec.slt_eq_decide]
    simp only [Bool.or_eq_true, Bool.and_eq_true, Bool.not_eq_true', decide_eq_true_eq, decide_eq_false_iff_not]
      at overflows
    rcases overflows with ⟨⟨left, right⟩, below⟩ | ⟨⟨left, right⟩, above⟩
    · rw [decide_eq_true below, decide_eq_false (by omega)]
      rfl
    · rw [decide_eq_false above, decide_eq_true (by omega)]
      rfl
  | false =>
    rw [BitVec.msb_eq_toInt, BitVec.toInt_sub_of_not_ssubOverflow (by rw [overflows]; exact Bool.false_ne_true),
      Bool.bne_false, BitVec.slt_eq_decide]
    exact decide_eq_decide.mpr (by omega)

theorem condHolds (c : IntCond) : (condOf c).holds (Flags.ofSub a b) = Arithmetic.compare c a b := by
  have less := (lessAfterSub a b).trans BitVec.slt_eq_decide
  have below : (Flags.ofSub a b).carry = decide (a.toNat < b.toNat) := rfl
  have same : (Flags.ofSub a b).zero = decide (a.toNat = b.toNat) := by
    rw [zeroAfterSub, Bool.beq_eq_decide_eq]
    exact decide_eq_decide.mpr BitVec.toNat_inj.symm
  have sameInt : (Flags.ofSub a b).zero = decide (a.toInt = b.toInt) :=
    same.trans (decide_eq_decide.mpr (BitVec.toNat_inj.trans BitVec.toInt_inj.symm))
  have greater : ((Flags.ofSub a b).sign == (Flags.ofSub a b).overflow) = !decide (a.toInt < b.toInt) := by
    rw [← less, bne, Bool.not_not]
  rw [Bool.eq_iff_iff]
  cases c with
  | eq | ne | ult | uge | slt | sge => simp [condOf, Cond.holds, Arithmetic.compare, below, same, less, greater]
  | ule =>
    simp only [condOf, Cond.holds, below, same, Arithmetic.compare, Bool.or_eq_true, decide_eq_true_eq]
    omega
  | ugt =>
    simp only [condOf, Cond.holds, below, same, Arithmetic.compare, Bool.not_eq_true', Bool.or_eq_false_iff,
      decide_eq_false_iff_not, decide_eq_true_eq]
    omega
  | sle =>
    simp only [condOf, Cond.holds, less, sameInt, Arithmetic.compare, Bool.or_eq_true, decide_eq_true_eq]
    omega
  | sgt =>
    simp only [condOf, Cond.holds, less, sameInt, Arithmetic.compare, Bool.not_eq_true', Bool.or_eq_false_iff,
      decide_eq_false_iff_not, decide_eq_true_eq]
    omega

end Conditions

section Division
variable (low divisor : BitVec w)

theorem divideZeroExtended : divideUnsigned 0 low divisor =
    if divisor = 0 then none else some (low / divisor, low % divisor) := by
  have dividend : (0 : BitVec w).toNat * 2 ^ w + low.toNat = low.toNat := by
    rw [show (0 : BitVec w).toNat = 0 from BitVec.toNat_ofNat .., Nat.zero_mul, Nat.zero_add]
  have small : low.toNat / divisor.toNat < 2 ^ w := Nat.lt_of_le_of_lt (Nat.div_le_self ..) low.isLt
  unfold divideUnsigned
  dsimp only
  rw [dividend]
  by_cases absent : divisor = 0
  · rw [if_pos (.inl absent), if_pos absent]
  · rw [if_neg fun fails => fails.elim absent (Nat.not_le.mpr small), if_neg absent, ← BitVec.toNat_udiv,
      ← BitVec.toNat_umod, BitVec.ofNat_toNat, BitVec.ofNat_toNat, BitVec.setWidth_eq, BitVec.setWidth_eq]

theorem quotientOutside (nonzero : divisor.toInt ≠ 0) :
    (low.toInt.tdiv divisor.toInt < -2 ^ (w - 1) ∨ 2 ^ (w - 1) ≤ low.toInt.tdiv divisor.toInt) ↔
      low.toInt = -2 ^ (w - 1) ∧ divisor.toInt = -1 := by
  have least := low.le_toInt
  have most := low.toInt_lt
  have power : (0 : Int) < 2 ^ (w - 1) := Int.pow_pos (by decide)
  generalize low.toInt = x at *
  generalize divisor.toInt = y at *
  generalize (2 : Int) ^ (w - 1) = k at *
  by_cases unit : y = 1 ∨ y = -1
  · rcases unit with rfl | rfl
    · rw [Int.tdiv_one]
      omega
    · rw [Int.tdiv_neg, Int.tdiv_one]
      omega
  · -- any other divisor at least halves what it divides
    have half : (x.tdiv y).natAbs * 2 ≤ x.natAbs := calc
      (x.tdiv y).natAbs * 2 ≤ x.natAbs / y.natAbs * y.natAbs := by
        rw [Int.natAbs_tdiv]
        exact Nat.mul_le_mul_left _ (by omega)
      _ ≤ x.natAbs := Nat.div_mul_le_self ..
    omega

theorem divideSignExtended (positive : 0 < w) :
    divideSigned (if low.msb then BitVec.allOnes w else 0) low divisor =
      if divisor = 0 || (low == BitVec.intMin w && divisor == -1) then none
      else some (low.sdiv divisor, low.srem divisor) := by
  have dividend : (if low.msb then BitVec.allOnes w else 0).toInt * 2 ^ w + low.toNat = low.toInt := by
    rw [low.toInt_eq_msb_cond]
    split
    · rw [BitVec.toInt_allOnes, if_pos positive]
      push_cast
      omega
    · rw [show (0 : BitVec w).toInt = 0 from BitVec.toInt_zero, Int.zero_mul, Int.zero_add]
  have zero : divisor.toInt = 0 ↔ divisor = 0 := by
    rw [← BitVec.toInt_inj]
    exact Iff.of_eq (congrArg _ BitVec.toInt_zero.symm)
  have stops : (divisor = 0 ∨ low.toInt.tdiv divisor.toInt < -2 ^ (w - 1) ∨
      2 ^ (w - 1) ≤ low.toInt.tdiv divisor.toInt) ↔
      (divisor = 0 || (low == BitVec.intMin w && divisor == -1)) = true := by
    rw [← Arithmetic.undivided positive, zero]
    by_cases null : divisor = 0
    · exact iff_of_true (.inl null) (.inl null)
    · exact or_congr_right (quotientOutside low divisor fun absent => null (zero.mp absent))
  unfold divideSigned
  dsimp only
  rw [dividend, Arithmetic.wraps (BitVec.toInt_sdiv low divisor), ← BitVec.toInt_srem, BitVec.ofInt_toInt]
  exact ite_congr (propext stops) (fun _ => rfl) fun _ => rfl

def isSigned (op : Opcode) : Bool := op == .sdiv || op == .srem

def givesRemainder (op : Opcode) : Bool := op == .srem || op == .urem

def extensionOf (signed : Bool) (low : BitVec w) : BitVec w :=
  if signed then if low.msb then BitVec.allOnes w else 0 else 0

theorem divideEvaluates {op : Opcode} (div : Recipe.ofOpcode op = .div) (positive : 0 < w) :
    (divide (isSigned op) (extensionOf (isSigned op) low) low divisor).map
      (fun pair => if givesRemainder op then pair.2 else pair.1) = evalBinary op low divisor := by
  have signed := divideSignExtended low divisor positive
  have unsigned := divideZeroExtended low divisor
  cases op with
  | sdiv | srem =>
    refine (congrArg (Option.map _) signed).trans ?_
    rw [apply_ite (Option.map _)]
    rfl
  | udiv | urem =>
    refine (congrArg (Option.map _) unsigned).trans ?_
    rw [apply_ite (Option.map _)]
    rfl
  | _ => cases div

end Division
end SsaCodegen.X64
