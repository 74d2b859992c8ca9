import SsaCodegen.Ir.Func
/-! Fusion of a comparison with the branch behind it. A block that ends in a comparison
and a branch on its result, which nothing else uses, gets one compare-and-branch, if
the target can encode that. -/
namespace SsaCodegen
namespace CompareBranch

def tests (branch compare : Inst) : Bool :=
  compare.op == .icmp && branch.op == .brif &&
    match compare.result, branch.operands with
    | some id, v :: _ => v == .temp id
    | _, _ => false

def isUsedOnce (uses : List Nat) (compare : Inst) : Bool :=
  (compare.result.map fun id => uses.getD id 0) == some 1

def fuse (branch compare : Inst) : Inst :=
  { branch with op := .brIcmp, intCond := compare.intCond, operands := compare.operands }

def fused? (encode : Inst → Option Encoding) (uses : List Nat) (branch compare : Inst) :
    Option Inst :=
  if tests branch compare && isUsedOnce uses compare then
    (encode (fuse branch compare)).map fun enc => { fuse branch compare with enc := enc }
  else none

def fuseReversed (encode : Inst → Option Encoding) (uses : List Nat) : List Inst → List Inst
  | branch :: compare :: before =>
    match fused? encode uses branch compare with
    | some inst => inst :: before
    | none => branch :: compare :: before
  | insts => insts

def fuseBlock (encode : Inst → Option Encoding) (uses : List Nat) (bb : Block) : Block :=
  { bb with insts := (fuseReversed encode uses bb.insts.reverse).reverse }

end CompareBranch

open CompareBranch in
def fuseCompareBranches (encode : Func → Inst → Option Encoding) (f : Func) : Func × Bool :=
  let g := f.mapBlocks (fuseBlock (encode f) f.countUses)
  if g.blocks == f.blocks then (f, false) else (g.noteLayoutChange, true)

end SsaCodegen
