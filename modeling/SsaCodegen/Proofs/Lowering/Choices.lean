import SsaCodegen.Proofs.Lowering.Calculations
import SsaCodegen.Proofs.Opt.FoldedSteps
/-! Instructions that go by the flags. A comparison leaves a flag as a byte, which is widened before it is
stored, and a choice looks at the low half of its condition. -/
namespace SsaCodegen.X64
open Semantics (Registers readAs comparison)

variable {u : Undefined} {f : Func} {regs : Registers} {inst : Inst} {m n : Machine}

theorem comparisonWidth (kind : Semantics.compareTy f inst = .i32 ∨ Semantics.compareTy f inst = .i64 ∨
    Semantics.compareTy f inst = .r64) (x y : Word) : comparison f inst x y =
      Arithmetic.compare inst.intCond (x.setWidth (widthOf (Semantics.compareTy f inst).isWide))
        (y.setWidth (widthOf (Semantics.compareTy f inst).isWide)) := by
  rw [comparison]
  rcases kind with ty | ty | ty <;> rw [ty] <;> rfl

theorem compareTySame {a b : Value} (operands : inst.operands = [a, b]) :
    compareTy f inst = Semantics.compareTy f inst := by
  rw [compareTy, Semantics.compareTy, Inst.operand, Inst.operand, operands]
  cases a <;> cases b <;> rfl

theorem compareGoes (placed : OperandsPlaced f regs inst m) {a b : Value} (operands : inst.operands = [a, b])
    {ty : Ty} (width : compareTy f inst = ty) (left : Structure.typeOf f a ty = ty)
    (right : Structure.typeOf f b ty = ty) (gpr : InGpr ty) : ∃ x y n,
      readAs regs ty a = some x ∧ readAs regs ty b = some y ∧
      perform u (Lower.compare f inst) m = some (.goes n) ∧ Undisturbed m n ∧
      n.flags = .ofSub (x.setWidth (widthOf ty.isWide)) (y.setWidth (widthOf ty.isWide)) := by
  obtain ⟨first, second⟩ := pairAt operands
  subst width
  obtain ⟨x, held, reads, loads, known⟩ := loadWhole (u := u) placed (.refl m) rax first left gpr
  have immRuns (n : Machine) (imm : BitVec 32) : ∃ k,
      (MachineInst.aluImm .cmp (gprOf rax) imm (compareTy f inst).isWide (Lower.shortImm inst imm)).execute? u n =
        some (.goes k) ∧ k = n.operate .cmp (gprOf rax) ((imm.signExtend 64).setWidth (widthOf _)) :=
    ⟨_, rfl, by rw [extendedShort]⟩
  have regRuns (n : Machine) : ∃ k,
      (MachineInst.alu .cmp (gprOf rax) (gprOf rcx) (compareTy f inst).isWide).execute? u n = some (.goes k) ∧
        k = n.operate .cmp (gprOf rax) (n.low (widthOf _) (gprOf rcx)) :=
    ⟨_, rfl, rfl⟩
  obtain ⟨y, n, k, reads', undisturbed, same, rfl, goes⟩ := secondGoes (u := u)
    (fun n y k => k = n.operate .cmp (gprOf rax) y) placed
    ((Undisturbed.refl m).set (r := gprOf rax) (by decide) held) second right gpr immRuns regRuns
  have low : n.low (widthOf (compareTy f inst).isWide) (gprOf rax) = x.setWidth _ := by
    rw [Machine.low, same]
    exact known.low
  refine ⟨x, y, _, reads, reads', (performAppend loads _).trans goes, undisturbed.withFlags _, ?_⟩
  rw [← low]
  rfl

theorem flagByte (r : BitVec 64) (flag : Bool) :
    ((r >>> 8 <<< 8 ||| BitVec.ofNat 64 flag.toNat).setWidth 8).setWidth 64 = BitVec.ofNat 64 flag.toNat := by
  have cleared : (r >>> 8 <<< 8).setWidth 8 = 0 := by
    refine BitVec.eq_of_toNat_eq ?_
    rw [BitVec.toNat_setWidth, BitVec.toNat_shiftLeft, BitVec.toNat_ushiftRight, Nat.shiftLeft_eq,
      Nat.shiftRight_eq_div_pow, Nat.mod_mod_of_dvd _ (by decide)]
    exact Nat.mul_mod_left _ _
  rw [BitVec.setWidth_or, cleared]
  cases flag <;> rfl

theorem flagGoes (n : Machine) (cond : Cond) : ∃ k,
    perform u [.inst (.setcc cond (regOf rax)), .inst (.movzxByte (gprOf rax) (regOf rax))] n = some (.goes k) ∧
      Undisturbed n k ∧ k.regs (gprOf rax) = BitVec.ofNat 64 (cond.holds n.flags).toNat := by
  refine ⟨_, (performInst rfl _).trans (performOne rfl), ?_, ?_⟩
  · exact (Undisturbed.set (.refl n) (r := gprOf rax) (by decide) _).set (by decide) _
  · exact flagByte (n.regs (gprOf rax)) _

theorem icmpLands (placed : OperandsPlaced f regs inst m) (apart : SlotsApart f)
    (usable : Usable f (Lower.resultLocation f inst)) (fit : FitInst f inst) (op : inst.op = .icmp)
    {a b : Value} (operands : inst.operands = [a, b]) : ∃ x y,
      readAs regs (Semantics.compareTy f inst) a = some x ∧
      readAs regs (Semantics.compareTy f inst) b = some y ∧
      Lands u f inst m (Lower.icmp f inst) (BitVec.ofNat 64 (comparison f inst x y).toNat) := by
  obtain ⟨left, right, kind⟩ := comparedTypes fit op operands
  have gpr : InGpr (Semantics.compareTy f inst) := by
    rcases kind with ty | ty | ty <;> rw [ty] <;> exact ⟨by decide, by decide⟩
  have bool : inst.ty = .b1 := by
    have types := fit.types
    simp only [Structure.typeMessages, op, List.append_eq_nil_iff, complainUnlessIff, beq_iff_eq] at types
    exact types.1
  obtain ⟨x, y, n, reads, reads', compares, undisturbed, flags⟩ := compareGoes (u := u) placed operands
    (compareTySame operands) left right gpr
  obtain ⟨k, goes, after, holds⟩ := flagGoes (u := u) n (condOf inst.intCond)
  rw [flags, condHolds, ← comparisonWidth kind] at holds
  refine ⟨x, y, reads, reads', ?_⟩
  have code : Lower.icmp f inst = Lower.compare f inst ++ [.inst (.setcc (condOf inst.intCond) (regOf rax)),
      .inst (.movzxByte (gprOf rax) (regOf rax))] ++ Lower.storeGpr f inst rax := by
    rw [Lower.icmp, Lower.storeFlag, List.append_assoc, List.append_assoc]
    rfl
  rw [code]
  refine storeLands apart usable ((performAppend compares _).trans goes) (undisturbed.trans after) ?_
  rw [holds, bool]
  cases comparison f inst x y
  · exact ⟨rfl, .inl rfl⟩
  · exact ⟨rfl, .inr rfl⟩

theorem chooseGoes (n : Machine) : ∃ k,
    perform u [.inst (.test (gprOf rcx) (gprOf rcx) false), .inst (.cmov .e (gprOf rax) (gprOf rdx) true)] n =
      some (.goes k) ∧ Undisturbed n k ∧ k.regs (gprOf rax) =
        if (n.regs (gprOf rcx)).setWidth 32 = 0 then n.regs (gprOf rdx) else n.regs (gprOf rax) := by
  refine ⟨_, (performInst rfl _).trans (performOne rfl), ?_, ?_⟩
  · exact ((Undisturbed.refl n).withFlags _).set (by decide) _
  · refine (Machine.getSame _ (gprOf rax) _).trans ?_
    show ((n.regs (if (n.regs (gprOf rcx) &&& n.regs (gprOf rcx)).setWidth 32 == 0 then gprOf rdx
      else gprOf rax)).setWidth 64).setWidth 64 = _
    rw [BitVec.setWidth_eq, BitVec.setWidth_eq, BitVec.and_self, apply_ite n.regs]
    simp only [beq_iff_eq]

theorem selectLands (placed : OperandsPlaced f regs inst m) (apart : SlotsApart f)
    (usable : Usable f (Lower.resultLocation f inst)) (gpr : InGpr inst.ty) {c a b : Value}
    (operands : inst.operands = [c, a, b]) (condition : Structure.typeOf f c .b1 = .b1)
    (left : Structure.typeOf f a inst.ty = inst.ty) (right : Structure.typeOf f b inst.ty = inst.ty) :
    ∃ z x y, readAs regs .b1 c = some z ∧ readAs regs inst.ty a = some x ∧ readAs regs inst.ty b = some y ∧
      Lands u f inst m (Lower.select f inst) (if z ≠ 0 then x else y) := by
  obtain ⟨z, flag, reads, loads, knownZ⟩ := loadGoes (u := u) placed (.refl m) rcx
    (show inst.operands[0]? = some c by rw [operands]; rfl) condition ⟨by decide, by decide⟩ false
  have first : Undisturbed m (m.set (gprOf rcx) flag) := (Undisturbed.refl m).set (by decide) _
  obtain ⟨x, one, reads', loads', knownX⟩ := loadWhole (u := u) placed first rax
    (show inst.operands[1]? = some a by rw [operands]; rfl) left gpr
  have second : Undisturbed m ((m.set (gprOf rcx) flag).set (gprOf rax) one) := first.set (by decide) _
  obtain ⟨y, other, reads'', loads'', knownY⟩ := loadWhole (u := u) placed second rdx
    (show inst.operands[2]? = some b by rw [operands]; rfl) right gpr
  obtain ⟨k, goes, after, holds⟩ := chooseGoes (u := u)
    (((m.set (gprOf rcx) flag).set (gprOf rax) one).set (gprOf rdx) other)
  refine ⟨z, x, y, reads, reads', reads'', ?_⟩
  refine storeLands apart usable ((performAppend ((performAppend ((performAppend loads _).trans loads') _).trans
    loads'') _).trans goes) ((second.set (by decide) other).trans after) ?_
  have zero : flag.setWidth 32 = 0 ↔ z = 0 := by
    rw [show flag.setWidth 32 = z.setWidth 32 from knownZ.low]
    rcases knownZ.flag rfl with rfl | rfl <;> decide
  have chosen : k.regs (gprOf rax) = if flag.setWidth 32 = 0 then other else one := holds
  by_cases null : z = 0
  · rw [chosen, if_pos (zero.mpr null), if_neg (not_not_intro null)]
    exact knownY.represents gpr
  · rw [chosen, if_neg fun absent => null (zero.mp absent), if_pos null]
    exact knownX.represents gpr

end SsaCodegen.X64
