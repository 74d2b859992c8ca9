import SsaCodegen.Opt.ValueKey
import SsaCodegen.Proofs.Execution.Simulation
import SsaCodegen.Proofs.Verify.Structure
/-! What keys of value numbering keep of instructions. Pure instructions with one key compute
the same, whatever the values are that they read, if float operations that may be swapped can be. -/
namespace SsaCodegen
open Semantics Structure

def Surroundings.Commutes {World : Type} (o : Surroundings World) : Prop :=
  ∀ (op : Opcode) (c : FloatCond) (ty : Ty) (a b : Word),
    op = .fadd ∨ op = .fmul ∨ op = .fcmp ∧ (c = .eq ∨ c = .ne ∨ c = .uno ∨ c = .ord) →
    o.float op c ty [a, b] = o.float op c ty [b, a]

section Computed
variable {World : Type} {o : Surroundings World} {f : Func}

structure KeyOf (i : Inst) (key : ValueKey) : Prop where
  pure : i.op.isPure = true
  op : key.op = i.op
  ty : key.ty = i.ty
  cond : key.cond = i.condIndex
  callee : key.callee = i.callee
  operands : key.operands = i.orderedOperands

theorem keyOf {i : Inst} {key : ValueKey} (keyed : i.valueKey? = some key) : KeyOf i key := by
  unfold Inst.valueKey? at keyed
  split at keyed
  · rename_i both
    cases keyed
    exact ⟨(Bool.and_eq_true_iff.mp both).2, rfl, rfl, rfl, rfl, rfl⟩
  · cases keyed

theorem intCondOfIndex {c d : IntCond} (same : c.index = d.index) : c = d := by
  cases c <;> cases d <;> first | rfl | cases same

theorem floatCondOfIndex {c d : FloatCond} (same : c.index = d.index) : c = d := by
  cases c <;> cases d <;> first | rfl | cases same

theorem commutes (commuting : o.Commutes) {i : Inst} (commutative : i.isCommutative = true) (x y : Word) :
    compute o f i [x, y] = compute o f i [y, x] := by
  have operate (op : Opcode) (same : ∀ a b : BitVec i.ty.bits, Arithmetic.result op a b = Arithmetic.result op b a) :
      Arithmetic.operate op i.ty x y = Arithmetic.operate op i.ty y x := by
    rw [Arithmetic.operate, Arithmetic.operate, same]
  unfold Inst.isCommutative at commutative
  unfold compute
  cases op : i.op <;> rw [op] at commutative <;> try (cases commutative; done)
  case iadd => exact operate _ fun a b => congrArg some (Int.add_comm _ _)
  case imul => exact operate _ fun a b => congrArg some (Int.mul_comm _ _)
  case band => exact operate _ fun a b => congrArg (some ∘ Int.ofNat) (Nat.and_comm _ _)
  case bor => exact operate _ fun a b => congrArg (some ∘ Int.ofNat) (Nat.or_comm _ _)
  case bxor => exact operate _ fun a b => congrArg (some ∘ Int.ofNat) (Nat.xor_comm _ _)
  case fadd => exact congrArg some (commuting _ _ _ _ _ (.inl rfl))
  case fmul => exact congrArg some (commuting _ _ _ _ _ (.inr (.inl rfl)))
  case fcmp =>
    refine congrArg some (commuting _ _ _ _ _ (.inr (.inr ⟨rfl, ?_⟩)))
    simpa only [Bool.or_eq_true, beq_iff_eq, or_assoc] using commutative
  case icmp =>
    have same : comparison f i x y = comparison f i y x := by
      simp only [Bool.or_eq_true, beq_iff_eq] at commutative
      unfold comparison Arithmetic.compare
      rcases commutative with cond | cond <;> rw [cond]
      · exact decide_eq_decide.mpr eq_comm
      · exact decide_eq_decide.mpr ne_comm
    dsimp only
    rw [same]

theorem widthSwapped {i j : Inst} (types : typeMessages f i = []) (icmp : i.op = .icmp) {a b : Value}
    (left : i.operands = [a, b]) (right : j.operands = [b, a]) : compareTy f j = compareTy f i := by
  simp only [typeMessages, icmp, compareMessages, twoOperands, left, List.append_eq_nil_iff] at types
  have checked := types.2
  split at checked
  · rw [expectTyIff] at checked
    simp only [compareTy, Inst.operand, left, right, List.getD_cons_zero, List.getD_cons_succ]
    cases a <;> cases b <;> first | rfl | exact checked
  · cases checked

theorem commutativeOperands {i : Inst} (commutative : i.isCommutative = true) (k : Nat) :
    operandTy f i k = operandTy f i 0 := by
  unfold Inst.isCommutative at commutative
  unfold operandTy
  cases op : i.op <;> rw [op] at commutative <;> first | rfl | cases commutative

theorem readTwoIff {i : Inst} {a b : Value} (operands : i.operands = [a, b]) {regs : Registers}
    {words : List Word} : readOperands f i regs = some words ↔ ∃ x y, words = [x, y] ∧
      readAs regs (operandTy f i 0) a = some x ∧ readAs regs (operandTy f i 1) b = some y := by
  simp only [readOperands, operands, List.zipIdx_cons, List.zipIdx_nil, List.mapM_cons, List.mapM_nil]
  cases readAs regs (operandTy f i 0) a <;> cases readAs regs (operandTy f i (0 + 1)) b <;> simp [eq_comm]

theorem orderedCases (i : Inst) : i.orderedOperands = i.operands ∨
    i.isCommutative = true ∧ ∃ a b, i.operands = [a, b] ∧ i.orderedOperands = [b, a] := by
  unfold Inst.orderedOperands
  split
  · rename_i a b operands
    split
    · rename_i swaps
      exact .inr ⟨(Bool.and_eq_true_iff.mp swaps).1, a, b, operands, rfl⟩
    · exact .inl operands.symm
  · exact .inl rfl

structure Twins (i j : Inst) : Prop where
  op : j.op = i.op
  ty : j.ty = i.ty
  callee : j.callee = i.callee
  floatCond : j.floatCond = i.floatCond
  intCond : i.op = .icmp → j.intCond = i.intCond

theorem twinsOf {i j : Inst} {key : ValueKey} (left : KeyOf i key) (right : KeyOf j key)
    (quiet : i.op ≠ .fcmp → j.floatCond = i.floatCond) : Twins i j := by
  have op : j.op = i.op := right.op.symm.trans left.op
  have cond : j.condIndex = i.condIndex := right.cond.symm.trans left.cond
  unfold Inst.condIndex at cond
  rw [op] at cond
  refine ⟨op, right.ty.symm.trans left.ty, right.callee.symm.trans left.callee, ?_, fun icmp => ?_⟩
  · by_cases fcmp : i.op = .fcmp
    · rw [fcmp] at cond
      exact floatCondOfIndex cond
    · exact quiet fcmp
  · rw [icmp] at cond
    exact intCondOfIndex cond

namespace Twins
variable {i j : Inst} (twins : Twins i j)
include twins

theorem isCommutative : j.isCommutative = i.isCommutative := by
  unfold Inst.isCommutative
  rw [twins.op, twins.floatCond]
  cases kind : i.op <;> first | rfl | rw [twins.intCond kind]

theorem computes (width : i.op = .icmp ∨ i.op = .brIcmp → compareTy f j = compareTy f i) (words : List Word) :
    compute o f j words = compute o f i words := by
  unfold compute
  rw [twins.op, twins.ty, twins.callee, twins.floatCond]
  by_cases icmp : i.op = .icmp
  · have same : comparison f j = comparison f i := by
      unfold comparison
      rw [width (.inl icmp), twins.intCond icmp]
    rw [same]
  · cases kind : i.op <;> first
      | exact absurd kind icmp
      | rcases words with _ | ⟨a, _ | ⟨b, _ | ⟨c, _ | _⟩⟩⟩ <;> rfl

variable {regs : Registers} {words others : List Word} (reads : readOperands f i regs = some words)
  (reads' : readOperands f j regs = some others)
include reads reads'

theorem together (same : j.operands = i.operands) : compute o f j others = compute o f i words := by
  have width : compareTy f j = compareTy f i := by
    unfold compareTy Inst.operand
    rw [same]
  unfold readOperands at reads reads'
  rw [same, operandTySame rfl twins.op twins.ty fun _ => width] at reads'
  cases reads.symm.trans reads'
  exact twins.computes (fun _ => width) words

theorem swapped (commuting : o.Commutes) (types : typeMessages f i = []) (swaps : i.isCommutative = true)
    {a b : Value} (one : i.operands = [a, b]) (two : j.operands = [b, a]) :
    compute o f j others = compute o f i words := by
  have width : i.op = .icmp ∨ i.op = .brIcmp → compareTy f j = compareTy f i := by
    rintro (icmp | branch)
    · exact widthSwapped types icmp one two
    · simp [Inst.isCommutative, branch] at swaps
  obtain ⟨x, y, rfl, first, second⟩ := (readTwoIff one).mp reads
  obtain ⟨u, v, rfl, first', second'⟩ := (readTwoIff two).mp reads'
  rw [operandTySame rfl twins.op twins.ty width] at first' second'
  rw [commutativeOperands swaps] at second second'
  cases second.symm.trans first'
  cases first.symm.trans second'
  rw [twins.computes width, commutes commuting swaps]

end Twins

theorem keysCompute (commuting : o.Commutes) {i j : Inst} {key : ValueKey} (left : KeyOf i key)
    (right : KeyOf j key) (types : typeMessages f i = [])
    (quiet : i.op ≠ .fcmp → j.floatCond = i.floatCond) {regs : Registers} {words others : List Word}
    (reads : readOperands f i regs = some words) (reads' : readOperands f j regs = some others) :
    compute o f j others = compute o f i words := by
  have twins := twinsOf left right quiet
  have ordered : j.orderedOperands = i.orderedOperands := right.operands.symm.trans left.operands
  rcases orderedCases i with plain | ⟨swaps, a, b, operands, turned⟩ <;>
    rcases orderedCases j with plain' | ⟨swaps', c, d, operands', turned'⟩
  · exact twins.together reads reads' (by rw [← plain', ordered, plain])
  · refine twins.swapped reads reads' commuting types (twins.isCommutative ▸ swaps') ?_ operands'
    rw [← plain, ← ordered, turned']
  · refine twins.swapped reads reads' commuting types swaps operands ?_
    rw [← plain', ordered, turned]
  · refine twins.together reads reads' ?_
    cases turned'.symm.trans (ordered.trans turned)
    rw [operands, operands']

end Computed

end SsaCodegen
