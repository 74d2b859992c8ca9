import SsaCodegen.Proofs.Legalize.Fitted
import SsaCodegen.Proofs.Opt.PrunedRuns
/-! Fusion keeps runs. Where the target can encode the comparison and the branch it can encode the
branch that compares, so the blocks that are fused are those in which only the branch reads the
comparison. -/
namespace SsaCodegen
open Semantics
namespace CompareBranch

theorem FusedTo.runs {encode : Inst → Option Encoding} {f g : Func} (made : FusedTo encode f g) (ok : WellFormed f)
    {World : Type} (o : Surroundings World) (args : List Word) (world : World) (n : Nat) :
    run o g args world n = run o f args world n :=
  have pruned : PrunedTo (Fused encode f) f g :=
    ⟨ok, made.rewrites.signature, made.types, made.pruned ok, fun _ inside _ used => made.unread ok inside used⟩
  pruned.runs o args world n

structure Fusible (f : Func) (compare branch : Inst) : Prop where
  compares : compare.op = .icmp
  branches : branch.op = .brif
  once : ∃ id, compare.result = some id ∧ branch.operands = [.temp id] ∧
    (f.insts.flatMap Inst.usedTemps).count id = 1

def EndsFusible (f : Func) (a : Block) : Prop :=
  ∃ before compare branch, a.insts = before ++ [compare, branch] ∧ Fusible f compare branch

inductive Comes (f : Func) : Block → Block → Prop where
  | fused {a : Block} {before : List Inst} {compare branch : Inst} {enc : Encoding}
      (ends : a.insts = before ++ [compare, branch]) (fusible : Fusible f compare branch)
      (encodes : X64.encode? f (fuse branch compare) = some enc) :
      Comes f a { a with insts := before ++ [{ fuse branch compare with enc := enc }] }
  | same {a : Block} (other : ¬ EndsFusible f a) : Comes f a a

theorem fuseBlockAt (encode : Inst → Option Encoding) (uses : List Nat) {a : Block} {before : List Inst}
    {compare branch fused : Inst} (ends : a.insts = before ++ [compare, branch])
    (made : fused? encode uses branch compare = some fused) :
    fuseBlock encode uses a = { a with insts := before ++ [fused] } := by
  have reversed : a.insts.reverse = branch :: compare :: before.reverse := by simp [ends]
  simp [fuseBlock, reversed, fuseReversed, made]

section
variable {f : Func} (ok : WellFormed f) {compare branch : Inst}
include ok

theorem Fusion.fusible {encode : Inst → Option Encoding} {fused : Inst} {id : Nat} (left : compare ∈ f.insts)
    (right : branch ∈ f.insts) (fusion : Fusion encode f.countUses compare branch fused id) :
    Fusible f compare branch where
  compares := fusion.compares
  branches := fusion.branches
  once := ⟨id, fusion.result, fusion.operands (ok.inst right).1.toFitInst,
    (f.countUsesAt (ok.resultBelow left fusion.result)).symm.trans fusion.once⟩

theorem Fusible.fuses (fusible : Fusible f compare branch) (left : compare ∈ f.insts)
    (encode : Inst → Option Encoding) : fused? encode f.countUses branch compare =
      (encode (fuse branch compare)).map fun enc => { fuse branch compare with enc := enc } := by
  obtain ⟨compares, branches, id, result, operands, once⟩ := fusible
  have counted := f.countUsesAt (ok.resultBelow left result)
  rw [once, List.getD_eq_getElem?_getD] at counted
  have fits : (tests branch compare && isUsedOnce f.countUses compare) = true := by
    simp [tests, isUsedOnce, compares, branches, result, operands, counted]
  rw [fused?, if_pos fits]

end

theorem Fusible.encodes {f : Func} {compare branch : Inst} (fusible : Fusible f compare branch)
    (left : X64.Fits f compare) (right : X64.Fits f branch) :
    ∃ enc, X64.encode? f (fuse branch compare) = some enc := by
  have edges : branch.targetArgs.all List.isEmpty = true := by
    have encodable := right.encodable
    rwa [fusible.branches] at encodable
  have bare : branch.targetArgs.flatten = [] :=
    List.flatten_eq_nil_iff.mpr (X64.edgesBare right (by simp [fusible.branches]))
  have literals : X64.hasFloatConst (fuse branch compare) = false := by
    have absent : X64.hasFloatConst compare = false := by
      by_contra present
      have const := X64.literalsConstant left (Bool.not_eq_false _ ▸ present)
      exact Opcode.noConfusion (fusible.compares.symm.trans const)
    simp only [X64.hasFloatConst, Inst.uses, fuse, bare, List.append_nil, List.any_append,
      Bool.or_eq_false_iff] at absent ⊢
    exact absent.1
  refine ⟨.ofRecipe .brIcmp, ?_⟩
  unfold X64.encode?
  rw [literals, Bool.and_false]
  simp only [X64.encodable, fuse, X64.Recipe.ofOpcode, edges]
  rfl

theorem fuseBlockComes {f : Func} (ok : WellFormed f) (fitted : X64.Fitted f) {a : Block} (inside : a ∈ f.blocks) :
    Comes f a (fuseBlock (X64.encode? f) f.countUses a) := by
  by_cases ends : EndsFusible f a
  · obtain ⟨before, compare, branch, insts, fusible⟩ := ends
    have left : compare ∈ f.insts := Func.memInsts inside (by simp [insts])
    have right : branch ∈ f.insts := Func.memInsts inside (by simp [insts])
    obtain ⟨enc, encodes⟩ := fusible.encodes (fitted _ left) (fitted _ right)
    have made := fusible.fuses ok left (X64.encode? f)
    rw [encodes, Option.map_some] at made
    rw [fuseBlockAt _ _ insts made]
    exact .fused insts fusible encodes
  · rcases fuseBlockCases (X64.encode? f) f.countUses a with same |
      ⟨before, compare, branch, fused, id, insts, -, fusion⟩
    · rw [same]
      exact .same ends
    · refine absurd ⟨before, compare, branch, insts, ?_⟩ ends
      exact fusion.fusible ok (Func.memInsts inside (by simp [insts])) (Func.memInsts inside (by simp [insts]))

theorem Comes.moves {f : Func} {a b : Block} (comes : Comes f a b) : b ≠ a ↔ EndsFusible f a := by
  cases comes with
  | @fused before compare branch enc ends fusible encodes =>
    refine ⟨fun _ => ⟨before, compare, branch, ends, fusible⟩, fun _ same => ?_⟩
    have length := congrArg (fun bb : Block => bb.insts.length) same
    simp [ends] at length
  | same other => exact ⟨fun moved => absurd rfl moved, fun ends => absurd ends other⟩

end CompareBranch

open CompareBranch in
theorem fuseCompareBranchesTells (encode : Func → Inst → Option Encoding) (f : Func) :
    ((fuseCompareBranches encode f).2 = true ↔ ∃ a ∈ f.blocks, fuseBlock (encode f) f.countUses a ≠ a) ∧
      (fuseCompareBranches encode f).1.layoutVersion =
        f.layoutVersion + (fuseCompareBranches encode f).2.toNat := by
  have still : f.blocks.map (fuseBlock (encode f) f.countUses) = f.blocks ↔
      ∀ a ∈ f.blocks, fuseBlock (encode f) f.countUses a = a := by
    have same := List.map_inj_left (l := f.blocks) (f := fuseBlock (encode f) f.countUses) (g := id)
    rwa [List.map_id] at same
  unfold fuseCompareBranches
  dsimp only
  split
  · rename_i same
    have each := still.mp (beq_iff_eq.mp same)
    refine ⟨⟨fun changed => (nomatch changed), ?_⟩, rfl⟩
    rintro ⟨a, inside, moved⟩
    exact absurd (each a inside) moved
  · rename_i changed
    refine ⟨⟨fun _ => ?_, fun _ => rfl⟩, rfl⟩
    have moved := mt (still.mpr) (by simpa [Func.mapBlocks] using changed)
    simpa using moved

open CompareBranch in
/-- Fusion keeps a function well-formed, each instruction encoded and its runs the same, in a
function that the target can encode, as it can what it has legalized. A block is fused where it ends
in a comparison and a branch on its result that nothing else uses, and the layout version changes
where a block is. -/
theorem fusionKeepsRuns (f : Func) (verified : verifyFunction f = []) (fitted : X64.Fitted f) :
    let (g, changed) := fuseCompareBranches X64.encode? f
    verifyFunction g = [] ∧ X64.Fitted g ∧ Encoded g ∧
    (∀ (World : Type) (o : Surroundings World) (args : List Word) (world : World) (n : Nat),
      run o g args world n = run o f args world n) ∧
    List.Forall₂ (Comes f) f.blocks g.blocks ∧
    g = { f with blocks := g.blocks, layoutVersion := g.layoutVersion } ∧
    (changed = true ↔ ∃ a ∈ f.blocks, EndsFusible f a) ∧
    (g.layoutVersion ≠ f.layoutVersion ↔ ∃ a ∈ f.blocks, EndsFusible f a) := by
  have ok := verifiedIff.mp verified
  have made := fuseCompareBranchesTo X64.encode? f
  have fittedAfter := X64.fuseCompareBranchesFitted fitted
  obtain ⟨changed, version⟩ := fuseCompareBranchesTells X64.encode? f
  have comes (a : Block) (inside : a ∈ f.blocks) := fuseBlockComes ok fitted inside
  have moved : (∃ a ∈ f.blocks, fuseBlock (X64.encode? f) f.countUses a ≠ a) ↔ ∃ a ∈ f.blocks, EndsFusible f a :=
    exists_congr fun a => and_congr_right fun inside => (comes a inside).moves
  rw [moved] at changed
  generalize fuseCompareBranches X64.encode? f = after at made fittedAfter changed version ⊢
  refine ⟨verifiedIff.mpr (made.wellFormed ok), fittedAfter, fittedAfter.encoded,
    fun World o args world n => made.runs ok o args world n, ?_, made.rest, changed, ?_⟩
  · rw [made.blocks, List.forall₂_map_right_iff]
    exact List.forall₂_same.mpr comes
  · rw [← changed, version]
    cases after.2 <;> simp

def compareTwice : Func :=
  { signature := { params := [.i64], returns := [.i64] }
    blocks := [
      { label := "entry", params := [⟨0, .i64⟩]
        insts := [
          { result := some 1, op := .icmp, ty := .b1, intCond := .ult, operands := [.temp 0, .int 9] },
          { op := .brif, operands := [.temp 1], targets := ["small", "done"], targetArgs := [[], []] }] },
      { label := "small",
        insts := [
          { result := some 2, op := .icmp, ty := .b1, intCond := .eq, operands := [.temp 0, .int 3] },
          { op := .brif, operands := [.temp 2], targets := ["done", "chosen"], targetArgs := [[], []] }] },
      { label := "chosen",
        insts := [
          { result := some 3, op := .select, ty := .i64, operands := [.temp 2, .int 7, .temp 0] },
          { op := .ret, operands := [.temp 3] }] },
      { label := "done", insts := [{ op := .ret, operands := [.temp 0] }] }]
    valueTypes := [.i64, .b1, .b1, .i64] }

theorem compareTwiceFused :
    let f := (X64.legalize compareTwice).1
    let (g, changed) := fuseCompareBranches X64.encode? f
    (X64.legalize compareTwice).2 = .ok () ∧ verifyFunction f = [] ∧ X64.Fitted f ∧
    verifyFunction g = [] ∧ changed = true ∧ g.layoutVersion = f.layoutVersion + 1 ∧
    (g.blocks.map fun bb => bb.insts.map Inst.op) = [[.brIcmp], [.icmp, .brif], [.select, .ret], [.ret]] ∧
    run nowhere g [4] () 3 = run nowhere f [4] () 3 ∧
    (run nowhere f [4] () 3).ending = some (.returned [4]) := by
  have done : (X64.legalize compareTwice).2 = .ok () := by rfl
  have verified : verifyFunction (X64.legalize compareTwice).1 = [] := by decide +kernel
  have fitted : X64.Fitted (X64.legalize compareTwice).1 := X64.legalizeFitted (Prod.ext rfl done)
  obtain ⟨after, -, -, runs, -⟩ := fusionKeepsRuns _ verified fitted
  exact ⟨done, verified, fitted, after, by decide +kernel, by decide +kernel, by decide +kernel,
    runs Unit nowhere [4] () 3, by decide +kernel⟩

end SsaCodegen
