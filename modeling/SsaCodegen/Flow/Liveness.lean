import SsaCodegen.Flow.Graph
import SsaCodegen.Flow.Words
/-! Liveness at block boundaries. Per block there are the values it reads before it defines
them, those it defines, those live into it and those live out of it; parameters count as
defined at the start of their block. Rounds over the blocks, the last one first, add to what
is live until nothing changes. The sets keep their storage for the next function. -/
namespace SsaCodegen

structure Liveness where
  ins : List Words := []
  outs : List Words := []
  uses : List Words := []
  defs : List Words := []
  numBlocks : Nat := 0
  numWords : Nat := 0
  deriving DecidableEq, Repr, Inhabited

namespace Liveness

def define (size : Nat) (defs : Words) (v : Nat) : Words :=
  if v < size then defs.insert v else defs

def noteRead (size : Nat) (defs uses : Words) (v : Nat) : Words :=
  if v < size && !defs.test v then uses.insert v else uses

def noteInst (size : Nat) (sets : Words × Words) (i : Inst) : Words × Words :=
  (i.usedTemps.foldl (noteRead size sets.2) sets.1, i.result.toList.foldl (define size) sets.2)

def noteBlock (size : Nat) (sets : Words × Words) (bb : Block) : Words × Words :=
  bb.insts.foldl (noteInst size) (sets.1, bb.paramIds.foldl (define size) sets.2)

def noteBlocks (size : Nat) : Nat → List Block → Liveness → Liveness
  | _, [], l => l
  | b, bb :: rest, l =>
    let sets := noteBlock size (l.uses.getD b [], l.defs.getD b []) bb
    noteBlocks size (b + 1) rest
      { l with uses := l.uses.set b sets.1, defs := l.defs.set b sets.2 }

def gather (l : Liveness) : List Nat → Words → Option Words
  | [], out => some out
  | s :: rest, out =>
    if s < l.numBlocks then l.gather rest (out.union (l.ins.getD s [])) else none

def revise (l : Liveness) (b : Nat) (out next : Words) : Liveness :=
  { l with outs := l.outs.set b out, ins := l.ins.set b next }

def visit (g : FlowGraph) (l : Liveness) (b : Nat) : Option (Liveness × Bool) :=
  (l.gather (g.successors b) (l.outs.getD b [])).map fun out =>
    let next := (l.uses.getD b []).union (out.minus (l.defs.getD b []))
    (l.revise b out next, next != l.ins.getD b [])

def sweep (g : FlowGraph) : Nat → Liveness → Option (Liveness × Bool)
  | 0, l => some (l, false)
  | b + 1, l =>
    (l.visit g b).bind fun (l, here) =>
      (sweep g b l).map fun (l, before) => (l, here || before)

def solve (g : FlowGraph) : Nat → Liveness → Option Liveness
  | 0, _ => none
  | rounds + 1, l =>
    (sweep g l.numBlocks l).bind fun (l, changed) => if changed then solve g rounds l else some l

def wordsFor (f : Func) : Nat := (f.numValues + 63) / 64

def emptied (old : Liveness) (f : Func) : Liveness :=
  let clean := Rows.reset f.blocks.length (Words.empty (wordsFor f))
  { ins := clean old.ins, outs := clean old.outs, uses := clean old.uses, defs := clean old.defs
    numBlocks := f.blocks.length, numWords := wordsFor f }

def prepare (old : Liveness) (f : Func) : Liveness :=
  noteBlocks f.numValues 0 f.blocks (old.emptied f)

/-- What is live, if the rounds come to an end. Each of them adds a value to a set, so there
are no more than bits, and one in which nothing changes. -/
def compute? (old : Liveness) (f : Func) (g : FlowGraph) : Option Liveness :=
  let l := old.prepare f
  solve g (l.numBlocks * (64 * l.numWords) + 1) l

def compute (old : Liveness) (f : Func) (g : FlowGraph) : Liveness := (old.compute? f g).getD {}

def ofFunc (f : Func) (g : FlowGraph) : Liveness := compute {} f g

def clear (l : Liveness) : Liveness := { l with numBlocks := 0, numWords := 0 }

def isLiveIn (l : Liveness) (b v : Nat) : Bool := b < l.numBlocks && (l.ins.getD b []).test v

def isLiveOut (l : Liveness) (b v : Nat) : Bool := b < l.numBlocks && (l.outs.getD b []).test v

def liveIn (l : Liveness) (b : Nat) : List Nat :=
  if b < l.numBlocks then (l.ins.getD b []).members else []

def liveOut (l : Liveness) (b : Nat) : List Nat :=
  if b < l.numBlocks then (l.outs.getD b []).members else []

end Liveness
end SsaCodegen
