import SsaCodegen.Flow.Dominators
/-! Unreachable blocks. Only the entry and the blocks it reaches are kept, in order. -/
namespace SsaCodegen
namespace Unreachable

def keeps (t : DomTree) (b : Nat) : Bool := b == 0 || t.isReachable b

def keptBlocks (t : DomTree) (blocks : List Block) : List Block :=
  blocks.zipIdx.filterMap fun (bb, b) => if keeps t b then some bb else none

theorem keptSublist (t : DomTree) (blocks : List Block) :
    (keptBlocks t blocks).Sublist blocks := by
  have go (bs : List Block) (k : Nat) :
      ((bs.zipIdx k).filterMap fun (bb, b) =>
        if keeps t b then some bb else none).Sublist bs := by
    induction bs generalizing k with
    | nil => exact .slnil
    | cons bb rest ih =>
      rw [List.zipIdx_cons, List.filterMap_cons]
      by_cases h : keeps t k = true <;> simp only [h, if_true]
      · exact (ih (k + 1)).cons_cons bb
      · exact (ih (k + 1)).cons bb
  exact go blocks 0

end Unreachable

open Unreachable in
def removeUnreachable (t : DomTree) (f : Func) : Func × Bool :=
  let kept := keptBlocks t f.blocks
  if kept.length = f.blocks.length then (f, false)
  else ({ f with blocks := kept }.noteLayoutChange, true)

end SsaCodegen
