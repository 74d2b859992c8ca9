import SsaCodegen.Proofs.Lowering.Operands
import SsaCodegen.Proofs.Lowering.Operations
/-! Operations on two integers. The first operand is calculated with in rax; the second is an immediate
where it fits, else it comes through rcx. What is left in rax or rdx goes to the place of the result. -/
namespace SsaCodegen.X64
open Semantics (Registers readAs)
open ConstantFold (evalBinary)

section Widths
variable {ty : Ty} (int : ty.isInt = true)
include int

theorem intGpr : InGpr ty := by
  rcases Arithmetic.intCases int with rfl | rfl <;> exact ⟨by decide, by decide⟩

theorem operateWidth (op : Opcode) (a b : Word) : Arithmetic.operate op ty a b =
    (evalBinary op (a.setWidth (widthOf ty.isWide)) (b.setWidth (widthOf ty.isWide))).map
      (BitVec.signExtend 64) := by
  rw [Arithmetic.operateEvaluates int]
  rcases Arithmetic.intCases int with rfl | rfl <;> rfl

theorem representsResult (result : BitVec (widthOf ty.isWide)) :
    Represents ty (ty.canonical (result.signExtend 64)) (result.setWidth 64) := by
  rcases Arithmetic.intCases int with rfl | rfl
  · have low : (result.setWidth 64).setWidth 32 = result := BitVec.setWidth_setWidth_of_le result (by decide)
    exact low.trans ((narrowExtended _).trans (narrowExtended result)).symm
  · exact (BitVec.setWidth_eq result).trans (BitVec.signExtend_eq result).symm

end Widths

def Lands (u : Undefined) (f : Func) (inst : Inst) (m : Machine) (code : List Asm) (word : Word) : Prop :=
  ∃ n, perform u code m = some (.goes n) ∧
    Represents inst.ty (inst.ty.canonical word) (n.value f (Lower.resultLocation f inst)) ∧
    Delivered f (Lower.resultLocation f inst) m n

variable {u : Undefined} {f : Func} {regs : Registers} {inst : Inst} {m n : Machine}

section Landing
variable (apart : SlotsApart f) (usable : Usable f (Lower.resultLocation f inst))
include apart usable

theorem storeLands {code : List Asm} {src : Nat} {word : Word} (goes : perform u code m = some (.goes n))
    (undisturbed : Undisturbed m n)
    (represents : Represents inst.ty (inst.ty.canonical word) (n.regs (gprOf src))) :
    Lands u f inst m (code ++ Lower.storeGpr f inst src) word := by
  obtain ⟨n', stores, value, delivered⟩ := storeGoes (u := u) usable undisturbed apart src
  refine ⟨n', (performAppend goes _).trans stores, ?_, delivered⟩
  rw [value]
  exact represents

end Landing

theorem extendedFits {imm : BitVec 32} {short : Bool} (fits : short = true → fitsInt8 imm.toInt = true) :
    extendedImm imm short = imm.signExtend 64 := by
  rw [extendedImm]
  split
  · next brief =>
    have fits := fits brief
    simp only [fitsInt8, Bool.and_eq_true, decide_eq_true_eq] at fits
    refine BitVec.eq_of_toInt_eq ?_
    rw [BitVec.toInt_signExtend_of_le (by decide), BitVec.toInt_signExtend_of_le (by decide),
      BitVec.toInt_setWidth]
    rw [BitVec.toInt_eq_toNat_bmod] at fits ⊢
    simp only [Int.bmod] at fits ⊢
    omega
  · rfl

theorem extendedShort (imm : BitVec 32) : extendedImm imm (Lower.shortImm inst imm) = imm.signExtend 64 :=
  extendedFits fun short => ((Bool.and_eq_true ..).mp short).2

theorem immediateLow {b : Value} {wide : Bool} {imm : BitVec 32} (located : inst.operands[1]? = some b)
    (found : immOperand? inst 1 wide = some imm) : ∃ payload, b.intConst? = some payload ∧
      (imm.signExtend 64).setWidth (widthOf wide) = payload.setWidth (widthOf wide) := by
  rw [immOperand?, located, Option.bind_some] at found
  cases literal : b.intConst? with
  | none =>
    rw [literal] at found
    cases found
  | some payload =>
    simp only [literal] at found
    refine ⟨payload, rfl, ?_⟩
    split at found
    · cases found
    · next fits =>
      cases found
      cases wide with
      | false => exact narrowExtended _
      | true => exact congrArg (BitVec.setWidth 64) (extendedNarrow (by simpa using fits))

theorem secondGoes {ty : Ty} {b : Value} {onImm : BitVec 32 → MachineInst} {onReg : MachineInst}
    (effect : Machine → BitVec (widthOf ty.isWide) → Machine → Prop) (placed : OperandsPlaced f regs inst m)
    (undisturbed : Undisturbed m n) (located : inst.operands[1]? = some b)
    (typed : Structure.typeOf f b ty = ty) (gpr : InGpr ty)
    (immRuns : ∀ n imm, ∃ k, (onImm imm).execute? u n = some (.goes k) ∧
      effect n ((imm.signExtend 64).setWidth (widthOf ty.isWide)) k)
    (regRuns : ∀ n, ∃ k, onReg.execute? u n = some (.goes k) ∧
      effect n (n.low (widthOf ty.isWide) (gprOf rcx)) k) :
    ∃ word n' k, readAs regs ty b = some word ∧ Undisturbed m n' ∧
      n'.regs (gprOf rax) = n.regs (gprOf rax) ∧ effect n' (word.setWidth (widthOf ty.isWide)) k ∧
      perform u (Lower.withSecond f inst ty.isWide onImm onReg) n = some (.goes k) := by
  rw [Lower.withSecond]
  split
  · next imm found =>
    obtain ⟨payload, literal, low⟩ := immediateLow located found
    obtain ⟨word, reads, known⟩ := readLiteral regs typed literal
    obtain ⟨k, goes, effects⟩ := immRuns n imm
    rw [low, known.low] at effects
    exact ⟨word, n, k, reads, undisturbed, rfl, effects, performOne goes⟩
  · obtain ⟨word, x, reads, loads, known⟩ := loadWhole (u := u) placed undisturbed rcx located typed gpr
    obtain ⟨k, goes, effects⟩ := regRuns (n.set (gprOf rcx) x)
    have low : (n.set (gprOf rcx) x).low (widthOf ty.isWide) (gprOf rcx) = word.setWidth _ := known.low
    rw [low] at effects
    exact ⟨word, _, k, reads, undisturbed.set (by decide) x, n.getOther _ _ x (by decide), effects,
      (performAppend loads _).trans (performOne goes)⟩

def Calculated {w : Nat} (n : Machine) (result : BitVec w) (k : Machine) : Prop :=
  Undisturbed n k ∧ k.regs (gprOf rax) = result.setWidth 64

theorem calculated {w : Nat} (n : Machine) (result : BitVec w) (flags : Flags) :
    Calculated n result ((n.setLow (gprOf rax) result).withFlags flags) :=
  ⟨((Undisturbed.refl n).set (by decide) _).withFlags flags, n.getSame (gprOf rax) _⟩

theorem operated {w : Nat} {op : AluOp} (writes : op ≠ .cmp) (n : Machine) (y : BitVec w) :
    Calculated n (op.apply (n.low w (gprOf rax)) y) (n.operate op (gprOf rax) y) := by
  simp only [Machine.operate, if_neg writes]
  exact calculated n _ _

def Operates (u : Undefined) (f : Func) (regs : Registers) (inst : Inst) (m : Machine) (a b : Value)
    (amountTy : Ty) (code : List Asm) : Prop :=
  ∃ x y z, readAs regs inst.ty a = some x ∧ readAs regs amountTy b = some y ∧
    Arithmetic.operate inst.op inst.ty x y = some z ∧ Lands u f inst m code z

theorem countModulo (wide : Bool) (word : Word) :
    (byteOf (word.toNat % widthOf wide)).toNat % widthOf wide =
        (word.setWidth (widthOf wide)).toNat % widthOf wide ∧
      (word.setWidth 8).toNat % widthOf wide = (word.setWidth (widthOf wide)).toNat % widthOf wide := by
  rw [byteOf, BitVec.toNat_ofNat, BitVec.toNat_setWidth, BitVec.toNat_setWidth]
  cases wide <;> simp only [widthOf, if_true, Bool.false_eq_true, if_false] <;> omega

theorem amountGoes (placed : OperandsPlaced f regs inst m) (undisturbed : Undisturbed m n) {b : Value}
    (located : inst.operands[1]? = some b) (typed : (Structure.typeOf f b .i64).isInt = true) (op : ShiftOp)
    (wide : Bool) : ∃ word k, readAs regs .i64 b = some word ∧ Undisturbed m k ∧
      k.regs (gprOf rax) = (op.apply (n.low (widthOf wide) (gprOf rax))
        ((word.setWidth (widthOf wide)).toNat % widthOf wide)).setWidth 64 ∧
      perform u (if (inst.operand 1).isConst then
          [.inst (.shiftImm op (gprOf rax) (byteOf ((inst.operand 1).intPayload.toNat % widthOf wide)) wide)]
        else Lower.loadGpr f rcx (inst.operand 1) true ++ [.inst (.shiftCl op (gprOf rax) wide)]) n =
        some (.goes k) := by
  rw [operandAt located]
  cases b with
  | float bits => cases typed
  | bool flag => cases typed
  | int payload =>
    refine ⟨payload, _, rfl, undisturbed.trans (calculated n _ _).1, ?_, performOne rfl⟩
    rw [← (countModulo wide payload).1]
    exact (calculated n _ _).2
  | temp id =>
    -- an amount may be narrower than the load; of what is loaded only cl counts
    obtain ⟨word, x, reads, loads, known⟩ := loadGoes (u := u) placed undisturbed rcx located rfl
      (intGpr typed) true
    have eight : 8 ≤ widthOf ((f.valueType id).isWide && true) := by
      cases (f.valueType id).isWide && true <;> decide
    have count : (n.set (gprOf rcx) x).low 8 (gprOf rcx) = word.setWidth 8 := lowBits known.low eight
    refine ⟨word, _, reads, (undisturbed.set (by decide) x).trans (calculated _ _ _).1, ?_,
      (performAppend (operandAt located ▸ loads) _).trans (performOne rfl)⟩
    rw [← (countModulo wide word).2, ← count]
    exact (calculated _ _ _).2

theorem lowSame (n : Machine) (r : Gpr) {wide : Bool} (x : BitVec (widthOf wide)) :
    (n.setLow r x).low (widthOf wide) r = x := by
  have less : widthOf wide ≤ 64 := by
    cases wide <;> decide
  rw [Machine.low, Machine.setLow, Machine.getSame, BitVec.setWidth_setWidth_of_le x less, BitVec.setWidth_eq]

theorem extendGoes (n : Machine) (signed wide : Bool) : ∃ k,
    (if signed then MachineInst.signExtendAccumulator wide
      else .alu .xor (gprOf rdx) (gprOf rdx) false).execute? u n = some (.goes k) ∧ Undisturbed n k ∧
    k.low (widthOf wide) (gprOf rdx) = extensionOf signed (k.low (widthOf wide) (gprOf rax)) ∧
    k.regs (gprOf rax) = n.regs (gprOf rax) ∧ k.regs (gprOf rcx) = n.regs (gprOf rcx) := by
  have others (x : Word) : Undisturbed n (n.set (gprOf rdx) x) ∧
      (n.set (gprOf rdx) x).regs (gprOf rax) = n.regs (gprOf rax) ∧
      (n.set (gprOf rdx) x).regs (gprOf rcx) = n.regs (gprOf rcx) :=
    ⟨(Undisturbed.refl n).set (by decide) x, n.getOther _ _ x (by decide), n.getOther _ _ x (by decide)⟩
  cases signed with
  | true =>
    obtain ⟨undisturbed, low, held⟩ := others
      ((extensionOf true (n.low (widthOf wide) (gprOf rax))).setWidth 64)
    refine ⟨_, rfl, undisturbed, (lowSame n _ _).trans ?_, low, held⟩
    exact congrArg (fun word => extensionOf true (word.setWidth (widthOf wide))) low.symm
  | false =>
    obtain ⟨undisturbed, low, held⟩ := others ((n.low 32 (gprOf rdx) ^^^ n.low 32 (gprOf rdx)).setWidth 64)
    refine ⟨_, rfl, undisturbed.withFlags _, ?_, low, held⟩
    refine (congrArg (BitVec.setWidth (widthOf wide)) (n.getSame (gprOf rdx) _)).trans ?_
    rw [AluOp.apply, BitVec.xor_self]
    cases wide <;> rfl

theorem divisionGoes {k : Machine} {op : Opcode} {wide : Bool} (recipe : Recipe.ofOpcode op = .div)
    (high : k.low (widthOf wide) (gprOf rdx) = extensionOf (isSigned op) (k.low (widthOf wide) (gprOf rax))) :
    (∃ result n, evalBinary op (k.low (widthOf wide) (gprOf rax)) (k.low _ (gprOf rcx)) = some result ∧
      perform u [.inst (.div (isSigned op) (gprOf rcx) wide)] k = some (.goes n) ∧ Undisturbed k n ∧
      n.regs (gprOf (if givesRemainder op then rdx else rax)) = result.setWidth 64) ∨
    evalBinary op (k.low (widthOf wide) (gprOf rax)) (k.low _ (gprOf rcx)) = none ∧
      perform u [.inst (.div (isSigned op) (gprOf rcx) wide)] k = some .faults := by
  have positive : 0 < widthOf wide := by
    cases wide <;> decide
  rw [← divideEvaluates _ _ recipe positive, ← high]
  cases quotient : divide (isSigned op) (k.low (widthOf wide) (gprOf rdx)) (k.low _ (gprOf rax))
      (k.low _ (gprOf rcx)) with
  | none => exact .inr ⟨rfl, by simp only [perform, MachineInst.execute?, quotient]⟩
  | some pair =>
    refine .inl ⟨_, _, rfl, performOne (by simp only [MachineInst.execute?, quotient]; rfl), ?_, ?_⟩
    · exact (((Undisturbed.refl k).set (by decide) _).set (by decide) _).withFlags _
    · cases givesRemainder op with
      | true => exact (k.setLow (gprOf rax) pair.1).getSame (gprOf rdx) _
      | false =>
        have kept := (k.setLow (gprOf rax) pair.1).getOther (gprOf rdx) (gprOf rax) (pair.2.setWidth 64) (by decide)
        exact kept.trans (k.getSame (gprOf rax) _)

section Binary
variable (placed : OperandsPlaced f regs inst m) (apart : SlotsApart f)
  (usable : Usable f (Lower.resultLocation f inst)) (int : inst.ty.isInt = true) {a b : Value}
  (operands : inst.operands = [a, b]) (left : Structure.typeOf f a inst.ty = inst.ty)
include placed apart usable int operands left

theorem binaryOperates {onImm : BitVec 32 → MachineInst} {onReg : MachineInst}
    (apply : BitVec (widthOf inst.ty.isWide) → BitVec (widthOf inst.ty.isWide) → BitVec (widthOf inst.ty.isWide))
    (right : Structure.typeOf f b inst.ty = inst.ty)
    (evaluates : ∀ x y, evalBinary inst.op x y = some (apply x y))
    (immRuns : ∀ n imm, ∃ k, (onImm imm).execute? u n = some (.goes k) ∧
      Calculated n (apply (n.low _ (gprOf rax)) ((imm.signExtend 64).setWidth _)) k)
    (regRuns : ∀ n, ∃ k, onReg.execute? u n = some (.goes k) ∧
      Calculated n (apply (n.low _ (gprOf rax)) (n.low _ (gprOf rcx))) k) :
    Operates u f regs inst m a b inst.ty (Lower.loadGpr f rax (inst.operand 0) inst.ty.isWide ++
      Lower.withSecond f inst inst.ty.isWide onImm onReg ++ Lower.storeGpr f inst rax) := by
  have gpr := intGpr int
  obtain ⟨first, second⟩ := pairAt operands
  obtain ⟨x, held, reads, loads, known⟩ := loadWhole (u := u) placed (.refl m) rax first left gpr
  obtain ⟨y, n, k, reads', undisturbed, same, ⟨after, holds⟩, goes⟩ := secondGoes (u := u)
    (fun n y k => Calculated n (apply (n.low _ (gprOf rax)) y) k) placed
    (Undisturbed.set (.refl m) (r := gprOf rax) (by decide) held) second right gpr immRuns regRuns
  have low : n.low (widthOf inst.ty.isWide) (gprOf rax) = x.setWidth _ := by
    rw [Machine.low, same]
    exact known.low
  rw [low] at holds
  refine ⟨x, y, _, reads, reads', (operateWidth int ..).trans (congrArg _ (evaluates ..)), ?_⟩
  refine storeLands apart usable ((performAppend loads _).trans goes) (undisturbed.trans after) ?_
  rw [holds]
  exact representsResult int _

theorem aluOperates (recipe : Recipe.ofOpcode inst.op = .alu)
    (right : Structure.typeOf f b inst.ty = inst.ty) :
    Operates u f regs inst m a b inst.ty (Lower.alu f inst) := by
  refine binaryOperates placed apart usable int operands left (aluOpOf inst.op).apply right
    (fun x y => (aluEvaluates recipe x y).2) (fun n imm => ⟨_, rfl, ?_⟩) fun n => ⟨_, rfl, ?_⟩
  · rw [extendedShort]
    exact operated (aluEvaluates recipe (0 : Word) 0).1 n _
  · exact operated (aluEvaluates recipe (0 : Word) 0).1 n _

theorem imulOperates (recipe : inst.op = .imul) (right : Structure.typeOf f b inst.ty = inst.ty) :
    Operates u f regs inst m a b inst.ty (Lower.imul f inst) := by
  refine binaryOperates placed apart usable int operands left (· * ·) right
    (fun x y => by rw [recipe]; rfl) (fun n imm => ⟨_, rfl, ?_⟩) fun n => ⟨_, rfl, ?_⟩
  · rw [extendedShort]
    exact calculated n _ _
  · exact calculated n _ _

theorem shiftOperates (recipe : Recipe.ofOpcode inst.op = .shift)
    (right : (Structure.typeOf f b .i64).isInt = true) :
    Operates u f regs inst m a b .i64 (Lower.shift f inst) := by
  obtain ⟨first, second⟩ := pairAt operands
  obtain ⟨x, held, reads, loads, known⟩ := loadWhole (u := u) placed (.refl m) rax first left (intGpr int)
  obtain ⟨y, k, reads', after, holds, goes⟩ := amountGoes (u := u) placed
    (Undisturbed.set (.refl m) (r := gprOf rax) (by decide) held) second right (shiftOpOf inst.op) inst.ty.isWide
  have low : (m.set (gprOf rax) held).low (widthOf inst.ty.isWide) (gprOf rax) = x.setWidth _ := known.low
  rw [low] at holds
  refine ⟨x, y, _, reads, reads', (operateWidth int ..).trans (congrArg _ (shiftEvaluates recipe ..)), ?_⟩
  refine storeLands apart usable ((performAppend loads _).trans goes) after ?_
  rw [holds]
  exact representsResult int _

theorem divides (recipe : Recipe.ofOpcode inst.op = .div) (right : Structure.typeOf f b inst.ty = inst.ty) :
    ∃ x y, readAs regs inst.ty a = some x ∧ readAs regs inst.ty b = some y ∧
      ((∃ z, Arithmetic.operate inst.op inst.ty x y = some z ∧ Lands u f inst m (Lower.div f inst) z) ∨
        Arithmetic.operate inst.op inst.ty x y = none ∧ perform u (Lower.div f inst) m = some .faults) := by
  have gpr := intGpr int
  obtain ⟨first, second⟩ := pairAt operands
  obtain ⟨x, dividend, reads, loads, known⟩ := loadWhole (u := u) placed (.refl m) rax first left gpr
  have scratch : Undisturbed m (m.set (gprOf rax) dividend) := (Undisturbed.refl m).set (by decide) _
  obtain ⟨y, divisor, reads', loads', known'⟩ := loadWhole (u := u) placed scratch rcx second right gpr
  obtain ⟨k, extended, after, high, kept, held⟩ := extendGoes (u := u)
    ((m.set (gprOf rax) dividend).set (gprOf rcx) divisor) (isSigned inst.op) inst.ty.isWide
  have low : k.low _ (gprOf rax) = x.setWidth (widthOf inst.ty.isWide) := by
    rw [Machine.low, kept, Machine.getOther _ _ _ _ (by decide), Machine.getSame]
    exact known.low
  have low' : k.low _ (gprOf rcx) = y.setWidth (widthOf inst.ty.isWide) := by
    rw [Machine.low, held, Machine.getSame]
    exact known'.low
  -- rdx is free until both operands are loaded, and the mark of the trap does nothing
  have code := (performAppend ((performAppend loads _).trans loads') _).trans (performInst extended
    [.trapSite .integerDivisionByZero inst.pos, .inst (.div (isSigned inst.op) (gprOf rcx) inst.ty.isWide)])
  have operates := operateWidth int inst.op x y
  rw [← low, ← low'] at operates
  refine ⟨x, y, reads, reads', ?_⟩
  rcases divisionGoes (u := u) recipe high with ⟨r, n, evaluates, goes, undisturbed, holds⟩ | ⟨traps, faults⟩
  · refine .inl ⟨_, operates.trans (congrArg _ evaluates), storeLands apart usable (code.trans goes)
      (((scratch.set (by decide) divisor).trans after).trans undisturbed) ?_⟩
    exact (congrArg (Represents inst.ty _) holds).mpr (representsResult int _)
  · exact .inr ⟨operates.trans (congrArg _ traps), performFaults (code.trans faults) _⟩

end Binary

end SsaCodegen.X64
