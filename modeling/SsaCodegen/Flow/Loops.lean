import SsaCodegen.Flow.Dominators
/-! Natural loops. A header is a block that dominates one of its predecessors, a
latch; its loop holds the header and what reaches a latch without passing it. The
parent of a loop is the smallest other loop around its header. -/
namespace SsaCodegen

structure Loop where
  header : Nat
  blocks : List Nat
  latches : List Nat
  parent : Option Nat := none
  depth : Nat := 1
  deriving DecidableEq, Repr, Inhabited

def Loop.contains (l : Loop) (b : Nat) : Bool := l.blocks.contains b

structure LoopForest where
  loops : List Loop
  innermost : List (Option Nat)
  deriving DecidableEq, Repr, Inhabited

namespace LoopForest

def loopAt? (size : Nat) (g : FlowGraph) (t : DomTree) (header : Nat) : Option Loop :=
  let latches := (g.predecessors header).filter (t.dominates header)
  if latches.isEmpty then none
  else
    let back (b : Nat) := (g.predecessors b).filter t.isReachable
    let body := Search.reachFrom size back latches [header]
    let others := (List.range size).filter fun b => b != header && body.contains b
    some { header := header, blocks := header :: others, latches := latches }

def smallestAround (loops : List Loop) (i header : Nat) : Option Nat :=
  (loops.zipIdx.foldl (fun (best : Option (Loop × Nat)) (l, j) =>
    if j == i || !l.contains header then best
    else
      match best with
      | none => some (l, j)
      | some (m, _) => if l.blocks.length < m.blocks.length then some (l, j) else best)
    none).map Prod.snd

def withParents (loops : List Loop) : List Loop :=
  loops.mapIdx fun i l => { l with parent := smallestAround loops i l.header }

/-- Depths in list order; a parent that comes later still counts as outermost. -/
def withDepths (loops : List Loop) : List Loop :=
  loops.foldl (fun done l =>
    let above := match l.parent with
      | none => 0
      | some p => (done[p]?.map Loop.depth).getD 1
    done ++ [{ l with depth := above + 1 }]) []

def deepestAround (loops : List Loop) (b : Nat) : Option Nat :=
  (loops.zipIdx.foldl (fun (best : Option (Loop × Nat)) (l, j) =>
    if !l.contains b then best
    else
      match best with
      | none => some (l, j)
      | some (m, _) => if m.depth < l.depth then some (l, j) else best)
    none).map Prod.snd

def ofGraph (size : Nat) (g : FlowGraph) (t : DomTree) : LoopForest :=
  let loops := withDepths (withParents (t.order.filterMap (loopAt? size g t)))
  ⟨loops, (List.range size).map (deepestAround loops)⟩

def ofFunc (f : Func) (g : FlowGraph) (t : DomTree) : LoopForest :=
  ofGraph f.blocks.length g t

def innermostLoop (l : LoopForest) (b : Nat) : Option Nat := l.innermost.getD b none

def depth (l : LoopForest) (b : Nat) : Nat :=
  match l.innermostLoop b with
  | none => 0
  | some k => (l.loops[k]?.map Loop.depth).getD 0

end LoopForest

structure LoopStore where
  loops : List Loop := []
  innermost : List (Option Nat) := []
  inLoop : List Bool := []
  worklist : List Nat := []
  deriving DecidableEq, Repr, Inhabited

namespace LoopStore

def push (found : List Bool × List Nat) (b : Nat) : List Bool × List Nat :=
  if found.1.getD b false then found else (found.1.set b true, b :: found.2)

def flood (g : FlowGraph) (t : DomTree) : Nat → List Bool × List Nat → List Bool × List Nat
  | fuel + 1, (inLoop, b :: rest) =>
    flood g t fuel (((g.predecessors b).filter t.isReachable).foldl push (inLoop, rest))
  | _, found => found

def blank (s : LoopStore) (size : Nat) : LoopStore :=
  { s with inLoop := List.replicate size false, worklist := [] }

def addLoop (size : Nat) (g : FlowGraph) (t : DomTree) (s : LoopStore) (header : Nat) : LoopStore :=
  let latches := (g.predecessors header).filter (t.dominates header)
  if latches.isEmpty then s
  else
    let s := s.blank size
    let found := flood g t size (latches.foldl push (s.inLoop.set header true, s.worklist))
    let others := (List.range size).filter fun b => found.1.getD b false && b != header
    { s with
      inLoop := found.1
      worklist := found.2
      loops := s.loops ++ [{ header := header, blocks := header :: others, latches := latches }] }

def deeper (loops : List Loop) (i : Nat) (l : Loop) : Option Nat → Option Nat
  | none => some i
  | some j => if (loops.getD j default).depth < l.depth then some i else some j

def settle (loops : List Loop) (innermost : List (Option Nat)) (i : Nat) (l : Loop) :
    List (Option Nat) :=
  l.blocks.foldl (fun innermost b => innermost.modify b (deeper loops i l)) innermost

def rebuild (old : LoopStore) (size : Nat) (g : FlowGraph) (t : DomTree) : LoopStore :=
  let fresh : LoopStore := { old with loops := [], innermost := List.replicate size none }
  let s := t.order.foldl (addLoop size g t) fresh
  let loops := LoopForest.withDepths (LoopForest.withParents s.loops)
  { s with
    loops := loops
    innermost :=
      loops.zipIdx.foldl (fun innermost (l, i) => settle loops innermost i l) s.innermost }

def forest (s : LoopStore) : LoopForest := ⟨s.loops, s.innermost⟩

def clear (s : LoopStore) : LoopStore := { s with loops := [], innermost := [] }

end LoopStore
end SsaCodegen
