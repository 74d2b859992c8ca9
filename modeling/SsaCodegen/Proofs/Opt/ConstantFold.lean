import SsaCodegen.Opt.ConstantFold
import SsaCodegen.Proofs.Flow.Cache
import SsaCodegen.Proofs.Ir.Narrow
/-! Constant folding happens in place. What an instruction folds to defines the same value at
the same type, reads no more, and takes no edge that was not there. -/
namespace SsaCodegen
open Structure

namespace ConstantFold

variable {f g : Func}

inductive Cheaper (k : Nat) : Opcode → Opcode → Nat → Prop where
  | multiply : Cheaper k .imul .ishl k
  | divide : Cheaper k .udiv .ushr k
  | remainder : Cheaper k .urem .band ((1 <<< k) - 1)

inductive Folds (f : Func) (known : Known) (i : Inst) : Inst → Prop where
  | operation {a b : Value} {x y z : BitVec 64} (foldable : isFoldable i.op = true)
      (int : i.ty.isInt = true) (operands : i.operands = [a, b]) (left : known.value? a = some x)
      (right : known.value? b = some y) (gives : foldBinary i.op x y i.ty = some z) :
      Folds f known i (asConstant i .iconst (.int z))
  | strength {a b : Value} {y : BitVec 64} {k n : Nat} {op : Opcode} (int : i.ty.isInt = true)
      (operands : i.operands = [a, b]) (right : known.value? b = some y)
      (power : exponent? y i.ty = some k) (cheaper : Cheaper k i.op op n) :
      Folds f known i { i with op := op, operands := [a, .int (BitVec.ofNat 64 n)] }
  | comparison {a b : Value} {x y : BitVec 64} (op : i.op = .icmp) (operands : i.operands = [a, b])
      (left : known.value? a = some x) (right : known.value? b = some y) :
      Folds f known i (asConstant i .bconst (.bool (i.intCond.evaluate x y (compareBits f a))))
  | branch {cond : Value} {rest : List Value} {first second : String} {c : BitVec 64} (k : Nat)
      (op : i.op = .brif) (operands : i.operands = cond :: rest)
      (targets : i.targets = [first, second]) (value : known.value? cond = some c)
      (edge : k = if c = 0 then 1 else 0) :
      Folds f known i { i with
        op := .jump
        operands := []
        targets := [i.target k]
        targetArgs := [i.argsOf k]
        enc := {} }

theorem Folds.of {known : Known} {i j : Inst} (folds : fold? f known i = some j) :
    Folds f known i j := by
  unfold fold? at folds
  split at folds
  · rename_i foldable
    split at folds
    · rename_i int
      unfold foldOperation at folds
      split at folds
      · rename_i a b operands
        split at folds
        · rename_i x y left right
          obtain ⟨z, gives, rfl⟩ := Option.map_eq_some_iff.mp folds
          exact .operation foldable int operands left right gives
        · rename_i y _ right
          obtain ⟨k, power, reduces⟩ := Option.bind_eq_some_iff.mp folds
          unfold reduceStrength at reduces
          dsimp only at reduces
          split at reduces <;> rename_i op <;> cases reduces
          · exact .strength int operands right power (op ▸ .multiply)
          · exact .strength int operands right power (op ▸ .divide)
          · exact .strength int operands right power (op ▸ .remainder)
        · cases folds
      · cases folds
    · cases folds
  · split at folds
    · rename_i op
      unfold foldCompare at folds
      split at folds
      · rename_i a b operands
        split at folds
        · rename_i x y left right
          cases folds
          exact .comparison op operands left right
        · cases folds
      · cases folds
    · rename_i op
      unfold foldBranch at folds
      split at folds
      · rename_i cond rest first second operands targets
        obtain ⟨c, value, rfl⟩ := Option.map_eq_some_iff.mp folds
        exact .branch _ op operands targets value rfl
      · cases folds
    · cases folds

theorem narrowsPlain {i : Inst} {op : Opcode} {operands : List Value} {imm : Int}
    (plain : i.op.isTerminator = false) (other : op.isTerminator = false ∧ op ≠ .prologue)
    (uses : ∀ v ∈ operands, v.temp? = none ∨ v ∈ i.operands)
    (shape : shapeMessages { i with op := op, operands := operands, imm := imm } = [])
    (types : typeMessages g { i with op := op, operands := operands, imm := imm } = [])
    (lists : i.targets ≠ [] → i.targetArgs.length = i.targets.length) :
    InstNarrows g i { i with op := op, operands := operands, imm := imm } where
  result := rfl
  ty := rfl
  ends := other.1.trans plain.symm
  opens same := absurd same other.2
  uses id used := by
    obtain ⟨v, listed, temp⟩ := List.mem_filterMap.mp used
    refine List.mem_filterMap.mpr ⟨v, ?_, temp⟩
    rcases List.mem_append.mp listed with operand | arg
    · rcases uses v operand with literal | old
      · rw [literal] at temp
        cases temp
      · exact List.mem_append_left _ old
    · exact List.mem_append_right _ arg
  targets l inside := inside
  edges e inside := inside
  shape := shape
  types := types
  lists := lists
  tidy := id

theorem foldableInfo {op : Opcode} (foldable : isFoldable op = true) :
    op.isTerminator = false ∧ op.info.result = .one ∧ op.info.successors = 0 := by
  revert foldable
  cases op <;> decide

theorem Cheaper.foldable {k n : Nat} {op op' : Opcode} (cheaper : Cheaper k op op' n) :
    isFoldable op = true ∧ isFoldable op' = true := by
  cases cheaper <;> decide

theorem foldableTypes {i : Inst} {a b : Value} (foldable : isFoldable i.op = true)
    (int : i.ty.isInt = true) (operands : i.operands = [a, b]) (types : typeMessages f i = []) :
    typeOf f a i.ty = i.ty := by
  cases op : i.op <;> rw [op] at foldable <;> try exact absurd foldable (by decide)
  all_goals
    simp only [typeMessages, op, int, if_true, twoOperands, operands, List.append_eq_nil_iff,
      expectTyIff] at types
    exact types.1

theorem strengthNarrows {i : Inst} {a b : Value} {k n : Nat} {op : Opcode} (sound : SoundInst f i)
    (int : i.ty.isInt = true) (operands : i.operands = [a, b]) (cheaper : Cheaper k i.op op n) :
    InstNarrows f i { i with op := op, operands := [a, .int (BitVec.ofNat 64 n)] } := by
  obtain ⟨foldable, -⟩ := cheaper.foldable
  obtain ⟨plain, arity, edges⟩ := foldableInfo foldable
  obtain ⟨-, result, targets⟩ := shapeIff.mp sound.shape
  have typed := foldableTypes foldable int operands sound.types
  have uses : ∀ v ∈ [a, .int (BitVec.ofNat 64 n)], v.temp? = none ∨ v ∈ i.operands := by
    simp [operands, Value.temp?]
  have literal (n : BitVec 64) : typeOf f (.int n) i.ty = i.ty := by simp [typeOf, int]
  have amount (n : BitVec 64) : (typeOf f (.int n) .i64).isInt = true := rfl
  simp only [ResultFits, arity] at result
  generalize i.op = was at cheaper
  cases cheaper
  all_goals
    refine narrowsPlain plain (by decide) uses (shapeIff.mpr
      ⟨⟨Nat.le_refl 2, .inr (Nat.le_refl 2)⟩, result, targets.trans edges⟩) ?_ sound.lists
    simp [typeMessages, twoOperands, int, typed, literal, amount]

theorem constantNarrows {i : Inst} {op : Opcode} {v : Value} (sound : SoundInst f i)
    (plain : i.op.isTerminator = false) (arity : i.op.info.result = .one)
    (edges : i.op.info.successors = 0) (literal : v.temp? = none)
    (constant : op = .iconst ∨ op = .bconst) (types : typeMessages f (asConstant i op v) = []) :
    InstNarrows f i (asConstant i op v) := by
  obtain ⟨-, result, targets⟩ := shapeIff.mp sound.shape
  simp only [ResultFits, arity] at result
  have uses : ∀ w ∈ [v], w.temp? = none ∨ w ∈ i.operands := by simp [literal]
  rcases constant with rfl | rfl
  all_goals
    exact narrowsPlain plain (by decide) uses (shapeIff.mpr
      ⟨⟨Nat.le_refl 1, .inr (Nat.le_refl 1)⟩, result, targets.trans edges⟩) types sound.lists

theorem branchNarrows {i : Inst} {first second : String} {k : Nat} (sound : SoundInst f i)
    (op : i.op = .brif) (targets : i.targets = [first, second]) (below : k < 2) :
    InstNarrows f i { i with
      op := .jump
      operands := []
      targets := [i.target k]
      targetArgs := [i.argsOf k]
      enc := {} } := by
  have lists := sound.lists (by simp [targets])
  rw [targets] at lists
  have quiet : i.result = none :=
    resultOfTerminator sound.shape (by rw [Inst.isTerminator, op]; rfl)
  have target : i.targets[k]? = some (i.target k) := by
    simp [Inst.target, targets, below]
  have args : i.targetArgs[k]? = some (i.argsOf k) := by
    simp [Inst.argsOf, lists, below]
  exact {
    result := rfl
    ty := rfl
    ends := by rw [Inst.isTerminator, Inst.isTerminator, op]; rfl
    opens := fun same => by cases same
    uses := fun id used => by
      obtain ⟨v, listed, temp⟩ := List.mem_filterMap.mp used
      refine List.mem_filterMap.mpr ⟨v, List.mem_append_right _ ?_, temp⟩
      have arg : v ∈ [] ++ [i.argsOf k].flatten := listed
      rw [List.nil_append, List.flatten_singleton] at arg
      exact List.mem_flatten.mpr ⟨_, List.mem_of_getElem? args, arg⟩
    targets := fun l inside => List.mem_singleton.mp inside ▸ List.mem_of_getElem? target
    edges := fun e inside => by
      rw [List.mem_singleton.mp inside]
      exact List.mem_of_getElem? (List.getElem?_zip_eq_some.mpr ⟨target, args⟩)
    shape := shapeIff.mpr ⟨⟨Nat.le_refl 0, .inr (Nat.le_refl 0)⟩, by
      simp only [ResultFits, quiet]
      trivial, rfl⟩
    types := rfl
    lists := fun _ => rfl
    tidy := fun _ absent => by cases absent }

theorem edgeBelow {c : BitVec 64} {k : Nat} (edge : k = if c = 0 then 1 else 0) : k < 2 := by
  split at edge <;> omega

theorem Folds.narrows {known : Known} {i j : Inst} (sound : SoundInst f i)
    (folds : Folds f known i j) : InstNarrows f i j := by
  cases folds with
  | operation foldable int operands left right gives =>
    obtain ⟨plain, arity, edges⟩ := foldableInfo foldable
    refine constantNarrows sound plain arity edges rfl (.inl rfl) ?_
    simp [asConstant, typeMessages, firstOperand, isIntConst, int]
  | strength int operands right power cheaper => exact strengthNarrows sound int operands cheaper
  | comparison op operands left right =>
    have ty : i.ty = .b1 := by
      have types := sound.types
      simp only [typeMessages, op, List.append_eq_nil_iff, complainUnlessIff, beq_iff_eq] at types
      exact types.1
    refine constantNarrows sound (by rw [op]; rfl) (by rw [op]; rfl) (by rw [op]; rfl) rfl (.inr rfl) ?_
    simp [asConstant, typeMessages, firstOperand, isBoolConst, ty]
  | branch k op operands targets value edge => exact branchNarrows sound op targets (edgeBelow edge)

theorem foldNarrows {known : Known} {i : Inst} (sound : SoundInst f i) :
    InstNarrows f i ((fold? f known i).getD i) := by
  cases folds : fold? f known i with
  | none => exact .ofSound sound
  | some j => exact (Folds.of folds).narrows sound

theorem exitPlain {i : Inst} {op : Opcode} (operands : List Value) (imm : Int)
    (plain : i.isTerminator = false) (other : op.isTerminator = false) :
    Inst.exit { i with op := op, operands := operands, imm := imm } = i.exit ∧
      (op == .brif) = (i.op == .brif) := by
  have quiet {op : Opcode} (plain : op.isTerminator = false) : (op == .brif) = false := by
    refine beq_eq_false_iff_ne.mpr fun same => ?_
    rw [same] at plain
    cases plain
  refine ⟨?_, (quiet other).trans (quiet plain).symm⟩
  rw [Inst.exit, Inst.exit, plain]
  exact Prod.ext other rfl

theorem foldExit {known : Known} {i : Inst} :
    (((fold? f known i).getD i).exit = i.exit ∧
      (((fold? f known i).getD i).op == .brif) = (i.op == .brif)) ∨
    (i.op = .brif ∧ ((fold? f known i).getD i).op = .jump) := by
  cases folds : fold? f known i with
  | none => exact .inl ⟨rfl, rfl⟩
  | some j =>
    cases Folds.of folds with
    | operation foldable => exact .inl (exitPlain _ _ (foldableInfo foldable).1 rfl)
    | strength int operands right power cheaper =>
      obtain ⟨was, now⟩ := cheaper.foldable
      exact .inl (exitPlain _ _ (foldableInfo was).1 (foldableInfo now).1)
    | comparison op => exact .inl (exitPlain _ _ (by rw [Inst.isTerminator, op]; rfl) rfl)
    | branch k op => exact .inr ⟨op, rfl⟩

theorem foldInstsAt {known : Known} {insts : List Inst} :
    (foldInsts f known insts).1.length = insts.length ∧
    ∀ (k : Nat) j, (foldInsts f known insts).1[k]? = some j →
      ∃ (i : Inst) (known : Known), insts[k]? = some i ∧ j = (fold? f known i).getD i := by
  induction insts generalizing known with
  | nil => exact ⟨rfl, fun k j absent => by cases absent⟩
  | cons inst rest ih =>
    obtain ⟨length, later⟩ := @ih (known.record ((fold? f known inst).getD inst))
    refine ⟨congrArg (· + 1) length, fun k j there => ?_⟩
    cases k with
    | zero => exact ⟨inst, known, rfl, (Option.some.inj there).symm⟩
    | succ k => exact later k j there

theorem foldBlocksAt {known : Known} {blocks : List Block} :
    (foldBlocks f known blocks).length = blocks.length ∧
    ∀ (n : Nat) b, (foldBlocks f known blocks)[n]? = some b →
      ∃ (a : Block) (known : Known), blocks[n]? = some a ∧
        b = { a with insts := (foldInsts f known a.insts).1 } := by
  induction blocks generalizing known with
  | nil => exact ⟨rfl, fun n b absent => by cases absent⟩
  | cons bb rest ih =>
    obtain ⟨length, later⟩ := @ih (foldInsts f known bb.insts).2
    refine ⟨congrArg (· + 1) length, fun n b there => ?_⟩
    cases n with
    | zero => exact ⟨bb, known, rfl, (Option.some.inj there).symm⟩
    | succ n => exact later n b there

theorem foldInstsCount {known : Known} {insts : List Inst} :
    (foldInsts f known insts).1.countP (·.op == .brif) ≤ insts.countP (·.op == .brif) ∧
    (insts.countP (·.op == .brif) ≤ (foldInsts f known insts).1.countP (·.op == .brif) →
      (foldInsts f known insts).1.map Inst.exit = insts.map Inst.exit) := by
  induction insts generalizing known with
  | nil => exact ⟨Nat.le_refl _, fun _ => rfl⟩
  | cons i rest ih =>
    obtain ⟨fewer, same⟩ := @ih (known.record ((fold? f known i).getD i))
    have made : (foldInsts f known (i :: rest)).1 = (fold? f known i).getD i ::
        (foldInsts f (known.record ((fold? f known i).getD i)) rest).1 := rfl
    rw [made, List.countP_cons, List.countP_cons, List.map_cons, List.map_cons]
    rcases @foldExit f known i with ⟨exit, kind⟩ | ⟨was, now⟩
    · rw [kind, exit]
      exact ⟨by omega, fun all => by rw [same (by omega)]⟩
    · rw [was, now, if_neg (by decide), if_pos (by decide)]
      exact ⟨by omega, fun all => by omega⟩

theorem foldBlocksCount {known : Known} {blocks : List Block} :
    ((foldBlocks f known blocks).flatMap Block.insts).countP (·.op == .brif) ≤
      (blocks.flatMap Block.insts).countP (·.op == .brif) ∧
    ((blocks.flatMap Block.insts).countP (·.op == .brif) ≤
        ((foldBlocks f known blocks).flatMap Block.insts).countP (·.op == .brif) →
      (foldBlocks f known blocks).map Block.edges = blocks.map Block.edges) := by
  induction blocks generalizing known with
  | nil => exact ⟨Nat.le_refl _, fun _ => rfl⟩
  | cons bb rest ih =>
    obtain ⟨fewer, same⟩ := @foldInstsCount f known bb.insts
    obtain ⟨fewer', same'⟩ := @ih (foldInsts f known bb.insts).2
    have made : foldBlocks f known (bb :: rest) = { bb with insts := (foldInsts f known bb.insts).1 } ::
        foldBlocks f (foldInsts f known bb.insts).2 rest := rfl
    rw [made, List.flatMap_cons, List.flatMap_cons, List.countP_append, List.countP_append,
      List.map_cons, List.map_cons]
    refine ⟨Nat.add_le_add fewer fewer', fun all => ?_⟩
    dsimp only at all
    have targets : Block.targets { bb with insts := (foldInsts f known bb.insts).1 } = bb.targets :=
      targetsOfExits (same (by omega))
    rw [same' (by omega), Block.edges, targets]
    rfl

theorem folded (f : Func) : ∃ known, (foldConstants f).1.blocks = foldBlocks f known f.blocks ∧
    (foldConstants f).1.valueTypes = f.valueTypes ∧ (foldConstants f).1.signature = f.signature := by
  unfold foldConstants
  dsimp only
  split <;> exact ⟨_, rfl, rfl, rfl⟩

end ConstantFold

open ConstantFold in
theorem foldConstantsFlow (f : Func) : FlowKept f (foldConstants f).1 := by
  unfold foldConstants
  dsimp only
  split
  · exact .noted f _ rfl
  · rename_i all
    exact .ofEdges rfl (foldBlocksCount.2 (Nat.le_of_not_lt all))

open ConstantFold in
theorem foldConstantsClean {f : Func} (clean : Clean f) : Clean (foldConstants f).1 := by
  obtain ⟨known, blocks, types, signature⟩ := folded f
  refine clean.narrow ⟨signature, types, by rw [blocks, foldBlocksAt.1], fun n b there => ?_⟩
  rw [blocks] at there
  obtain ⟨a, known, located, rfl⟩ := foldBlocksAt.2 n b there
  refine ⟨a, located, rfl, rfl, foldInstsAt.1, fun k j there => ?_⟩
  obtain ⟨i, known, was, rfl⟩ := foldInstsAt.2 k j there
  have sound := clean.wellFormed.sound a (List.mem_of_getElem? located) i (List.mem_of_getElem? was)
  exact ⟨i, was, (foldNarrows sound).inFunction types signature⟩

end SsaCodegen
