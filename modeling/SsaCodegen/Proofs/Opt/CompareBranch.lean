import SsaCodegen.Opt.CompareBranch
import SsaCodegen.Proofs.Ir.Bare
import SsaCodegen.Proofs.Ir.Prune
/-! Fusion is pruning as well. The result of a comparison that is fused was read once, by
the branch behind it, so nothing reads it in the function that comes out. -/
namespace SsaCodegen
open Structure

namespace CompareBranch

structure Fusion (encode : Inst → Option Encoding) (uses : List Nat) (compare branch fused : Inst)
    (id : Nat) : Prop where
  compares : compare.op = .icmp
  branches : branch.op = .brif
  result : compare.result = some id
  reads : .temp id ∈ branch.operands
  once : uses.getD id 0 = 1
  fused : ∃ enc, encode (fuse branch compare) = some enc ∧
    fused = { fuse branch compare with enc := enc }

theorem fusionOf {encode : Inst → Option Encoding} {uses : List Nat} {compare branch fused : Inst}
    (made : fused? encode uses branch compare = some fused) :
    ∃ id, Fusion encode uses compare branch fused id := by
  unfold fused? at made
  split at made
  · rename_i fits
    obtain ⟨enc, encoded, same⟩ := Option.map_eq_some_iff.mp made
    simp only [tests, isUsedOnce, Bool.and_eq_true, beq_iff_eq] at fits
    obtain ⟨⟨⟨compares, branches⟩, reads⟩, once⟩ := fits
    cases result : compare.result with
    | none => simp [result] at reads
    | some id =>
      cases operands : branch.operands with
      | nil => simp [result, operands] at reads
      | cons v rest =>
        simp only [result, operands, beq_iff_eq] at reads
        simp only [result, Option.map_some, Option.some.injEq] at once
        exact ⟨id, compares, branches, result, by simp [operands, reads], once, enc, encoded,
          same.symm⟩
  · cases made

theorem fuseBlockCases (encode : Inst → Option Encoding) (uses : List Nat) (bb : Block) :
    fuseBlock encode uses bb = bb ∨ ∃ before compare branch fused id,
      bb.insts = before ++ [compare, branch] ∧
      (fuseBlock encode uses bb).insts = before ++ [fused] ∧
      Fusion encode uses compare branch fused id := by
  unfold fuseBlock
  rcases reversed : bb.insts.reverse with _ | ⟨branch, _ | ⟨compare, before⟩⟩
  · exact .inl (by simp [fuseReversed, ← reversed])
  · exact .inl (by simp [fuseReversed, ← reversed])
  · have whole : bb.insts = before.reverse ++ [compare, branch] := by
      rw [← List.reverse_reverse bb.insts, reversed]
      simp
    cases made : fused? encode uses branch compare with
    | none => exact .inl (by simp [fuseReversed, made, ← whole])
    | some fused =>
      obtain ⟨id, fusion⟩ := fusionOf made
      exact .inr ⟨before.reverse, compare, branch, fused, id, whole, by simp [fuseReversed, made],
        fusion⟩

variable {encode : Inst → Option Encoding} {uses : List Nat} {compare branch fused : Inst} {id : Nat}

theorem fusionReads (fusion : Fusion encode uses compare branch fused id) {v : Nat}
    (used : v ∈ fused.usedTemps) :
    v ∈ compare.usedTemps ∨ ∃ args ∈ branch.targetArgs, .temp v ∈ args := by
  obtain ⟨enc, -, rfl⟩ := fusion.fused
  exact (Inst.memUsedTemps.mp used).imp_left Inst.operandUsed

theorem branchOperand {f : Func} {branch : Inst} (fit : FitInst f branch) (op : branch.op = .brif) :
    ∃ v, branch.operands = [v] := by
  obtain ⟨low, high⟩ := (shapeIff.mp fit.shape).1
  simp only [op, Opcode.info, Opcode.unary] at low high
  exact List.length_eq_one_iff.mp (Nat.le_antisymm (high.resolve_left (by decide)) low)

theorem Fusion.operands {f : Func} (fusion : Fusion encode uses compare branch fused id)
    (fit : FitInst f branch) : branch.operands = [.temp id] := by
  obtain ⟨v, alone⟩ := branchOperand fit fusion.branches
  have reads := fusion.reads
  rw [alone, List.mem_singleton] at reads
  rw [alone, reads]

theorem fusionFuses {f g : Func} (ok : WellFormed f) (r : Rewrites f g)
    (fusion : Fusion encode uses compare branch fused id) (left : compare ∈ f.insts)
    (right : branch ∈ f.insts) : Fuses g compare branch fused := by
  obtain ⟨enc, -, rfl⟩ := fusion.fused
  have soundC := (ok.inst left).1
  have soundB := (ok.inst right).1
  have quiet : branch.result = none :=
    resultOfTerminator soundB.shape (by rw [Inst.isTerminator, fusion.branches]; rfl)
  have targets := (shapeIff.mp soundB.shape).2.2
  have arity := (shapeIff.mp soundC.shape).1
  rw [fusion.branches] at targets
  rw [fusion.compares] at arity
  have fitB := r.toExtends.fitSelf ok soundB
  have fitC := r.toExtends.fitSelf ok soundC
  refine ⟨fusion.compares, fusion.branches, rfl, ⟨id, fusion.result, fusion.operands soundB.toFitInst⟩,
    rfl, rfl, rfl, rfl, quiet, quiet, ⟨?_, ?_, fitB.lists, fitB.edges⟩⟩
  · refine shapeIff.mpr ⟨arity, ?_, targets⟩
    simp only [ResultFits, fuse, quiet]
    trivial
  · have compared := fitC.types
    simp only [typeMessages, fusion.compares, List.append_eq_nil_iff] at compared
    exact compared.2

theorem fuseBlockReads {bb : Block} {j : Inst} (inside : j ∈ (fuseBlock encode uses bb).insts) {v : Nat}
    (used : v ∈ j.usedTemps) : v ∈ bb.insts.flatMap Inst.usedTemps := by
  rcases fuseBlockCases encode uses bb with same | ⟨before, compare, branch, fused, id, old, new, fusion⟩
  · rw [same] at inside
    exact List.mem_flatMap.mpr ⟨j, inside, used⟩
  · rw [new] at inside
    rw [old]
    rcases List.mem_append.mp inside with earlier | last
    · exact List.mem_flatMap.mpr ⟨j, List.mem_append_left _ earlier, used⟩
    · rw [List.mem_singleton.mp last] at used
      rcases fusionReads fusion used with was | ⟨args, listed, arg⟩
      · exact List.mem_flatMap.mpr ⟨compare, by simp, was⟩
      · exact List.mem_flatMap.mpr ⟨branch, by simp, Inst.argUsed listed arg⟩

def Fused (encode : Inst → Option Encoding) (f : Func) (v : Nat) : Prop :=
  ∃ bb ∈ f.blocks, ∃ before compare branch fused, bb.insts = before ++ [compare, branch] ∧
    (fuseBlock encode f.countUses bb).insts = before ++ [fused] ∧
    Fusion encode f.countUses compare branch fused v

theorem usedOnce {f : Func} (ok : WellFormed f) {v : Nat} (fused : Fused encode f v) {b : Block}
    (there : b ∈ f.blocks) {j : Inst} (inside : j ∈ (fuseBlock encode f.countUses b).insts) :
    v ∉ j.usedTemps := by
  intro used
  obtain ⟨bb, home, before, compare, branch, new, old, made, fusion⟩ := fused
  have listed : compare ∈ f.insts := Func.memInsts home (by simp [old])
  have once := fusion.once
  rw [f.countUsesAt (ok.resultBelow listed fusion.result)] at once
  obtain ⟨front, back, blocks⟩ := List.append_of_mem home
  have total : (f.insts.flatMap Inst.usedTemps).count v =
      ((front.flatMap Block.insts).flatMap Inst.usedTemps).count v +
        ((before.flatMap Inst.usedTemps).count v + compare.usedTemps.count v +
          ((branch.operands.filterMap Value.temp?).count v +
            (branch.targetArgs.flatten.filterMap Value.temp?).count v)) +
        ((back.flatMap Block.insts).flatMap Inst.usedTemps).count v := by
    simp only [Func.insts, blocks, List.flatMap_append, List.flatMap_cons, old, List.flatMap_nil,
      List.append_nil, List.count_append]
    rw [show branch.usedTemps = branch.operands.filterMap Value.temp? ++
      branch.targetArgs.flatten.filterMap Value.temp? from List.filterMap_append]
    simp only [List.count_append]
    omega
  -- the branch is the one reading that is counted; any other would make two
  have read : 0 < (branch.operands.filterMap Value.temp?).count v :=
    List.count_pos_iff.mpr (List.mem_filterMap.mpr ⟨_, fusion.reads, rfl⟩)
  have elsewhere {blocks : List Block} (listed : b ∈ blocks) :
      0 < ((blocks.flatMap Block.insts).flatMap Inst.usedTemps).count v := by
    obtain ⟨i, within, was⟩ := List.mem_flatMap.mp (fuseBlockReads inside used)
    exact List.count_pos_iff.mpr
      (List.mem_flatMap.mpr ⟨i, List.mem_flatMap.mpr ⟨b, listed, within⟩, was⟩)
  rw [blocks] at there
  rcases List.mem_append.mp there with left | right
  · have := elsewhere left
    omega
  · rcases List.mem_cons.mp right with rfl | right
    · rw [made] at inside
      rcases List.mem_append.mp inside with earlier | last
      · have : 0 < (before.flatMap Inst.usedTemps).count v :=
          List.count_pos_iff.mpr (List.mem_flatMap.mpr ⟨j, earlier, used⟩)
        omega
      · rw [List.mem_singleton.mp last] at used
        rcases fusionReads fusion used with was | ⟨args, listed, arg⟩
        · have := List.count_pos_iff.mpr was
          omega
        · have : 0 < (branch.targetArgs.flatten.filterMap Value.temp?).count v :=
            List.count_pos_iff.mpr (List.mem_filterMap.mpr
              ⟨_, List.mem_flatten.mpr ⟨args, listed, arg⟩, rfl⟩)
          omega
    · have := elsewhere right
      omega

variable {f g : Func} (ok : WellFormed f)

structure FusedTo (encode : Inst → Option Encoding) (f g : Func) : Prop where
  blocks : g.blocks = f.blocks.map (fuseBlock encode f.countUses)
  rest : g = { f with blocks := g.blocks, layoutVersion := g.layoutVersion }

namespace FusedTo
variable (made : FusedTo encode f g)
include made

theorem types : g.valueTypes = f.valueTypes := by rw [made.rest]

theorem rewrites : Rewrites f g := by
  refine ⟨by rw [made.rest], made.types ▸ List.prefix_refl _, ?_⟩
  rw [made.blocks, List.map_map]
  rfl

include ok in
theorem pruned : PrunedBlocks g (Fused encode f) f.blocks g.blocks := by
  refine .ofAt (by rw [made.blocks, List.length_map]) fun k a b left right => ?_
  rw [made.blocks, List.getElem?_map, left, Option.map_some, Option.some.injEq] at right
  subst right
  refine ⟨rfl, rfl, ?_⟩
  have home := List.mem_of_getElem? left
  rcases fuseBlockCases encode f.countUses a with same |
    ⟨before, compare, branch, fused, id, old, new, fusion⟩
  · rw [same]
    exact .refl _
  · have fuses := fusionFuses ok made.rewrites fusion (Func.memInsts home (by simp [old]))
      (Func.memInsts home (by simp [old]))
    have gone : ∀ v, compare.result = some v → Fused encode f v := fun v result => by
      cases fusion.result.symm.trans result
      exact ⟨a, home, before, compare, branch, fused, old, new, fusion⟩
    rw [old, new]
    exact .append (.fuse fuses gone)

include ok in
theorem unread {j : Inst} (inside : j ∈ g.insts) {v : Nat} (used : v ∈ j.usedTemps) :
    ¬ Fused encode f v := by
  intro fused
  obtain ⟨b, there, listed⟩ := List.mem_flatMap.mp inside
  obtain ⟨a, home, rfl⟩ := List.mem_map.mp (made.blocks ▸ there)
  exact usedOnce ok fused home listed used

include ok in
theorem wellFormed : WellFormed g :=
  ok.prune made.rewrites.signature made.types (made.pruned ok) fun _ inside _ used => made.unread ok inside used

end FusedTo
end CompareBranch

open CompareBranch in
theorem fuseCompareBranchesTo (encode : Func → Inst → Option Encoding) (f : Func) :
    FusedTo (encode f) f (fuseCompareBranches encode f).1 := by
  unfold fuseCompareBranches
  dsimp only
  split
  · rename_i same
    exact ⟨(beq_iff_eq.mp same).symm, rfl⟩
  · exact ⟨rfl, rfl⟩

open CompareBranch in
theorem fuseCompareBranchesLowered {encode : Func → Inst → Option Encoding} {f : Func}
    (legal : ∀ inst enc, encode f inst = some enc → enc.isLegal = true) (ok : Lowered f) :
    Lowered (fuseCompareBranches encode f).1 := by
  have done := fuseCompareBranchesTo encode f
  have wellFormed := ok.clean.wellFormed
  refine ⟨⟨done.wellFormed wellFormed, (done.pruned wellFormed).tidy ok.clean.tidy⟩, fun j inside => ?_⟩
  obtain ⟨b, there, listed⟩ := List.mem_flatMap.mp inside
  obtain ⟨a, home, rfl⟩ := List.mem_map.mp (done.blocks ▸ there)
  rcases fuseBlockCases (encode f) f.countUses a with same |
    ⟨before, compare, branch, new, id, old, made, fusion⟩
  · rw [same] at listed
    exact ok.encoded j (Func.memInsts home listed)
  · rw [made] at listed
    rcases List.mem_append.mp listed with earlier | last
    · exact ok.encoded j (Func.memInsts home (old ▸ List.mem_append_left _ earlier))
    · obtain ⟨enc, encoded, rfl⟩ := fusion.fused
      rw [List.mem_singleton.mp last]
      exact legal _ enc encoded

theorem fuseCompareBranchesFlow (encode : Func → Inst → Option Encoding) (f : Func) :
    FlowKept f (fuseCompareBranches encode f).1 := by
  unfold fuseCompareBranches
  dsimp only
  split
  · exact .refl f
  · exact .noted f _ rfl

end SsaCodegen
