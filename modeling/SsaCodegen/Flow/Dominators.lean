import SsaCodegen.Flow.Graph
import SsaCodegen.Flow.Search
/-! Dominance. Block `a` dominates a reachable block `b` when every path from the entry to
`b` passes `a`. Each reachable block but the entry hangs below another: the one where those of
its predecessors meet that hang somewhere already. Rounds over a reverse postorder hang blocks
anew until nothing changes, and then each hangs below its immediate dominator. -/
namespace SsaCodegen

structure DomTree where
  order : List Nat
  idoms : List (Option Nat)
  below : List (List Nat)
  deriving DecidableEq, Repr, Inhabited

namespace DomTree

def blockOrder (size : Nat) (g : FlowGraph) : List Nat :=
  if size = 0 then [] else Search.reversePostorder size g.successors 0

abbrev Parents : Type := List (Option Nat)

def Parents.above (t : Parents) (b : Nat) : Option Nat := t.getD b none

section Rounds
variable (rank : Nat → Nat)

def intersect (t : Parents) : Nat → Nat → Nat → Option Nat
  | 0, _, _ => none
  | steps + 1, a, b =>
    if a = b then some a
    else if rank b < rank a then (t.above a).bind fun p => intersect t steps p b
    else if rank a < rank b then (t.above b).bind fun p => intersect t steps a p
    else none

def meet (t : Parents) : List Nat → Option Nat → Option (Option Nat)
  | [], found => some found
  | p :: rest, found =>
    match t.above p, found with
    | none, _ => meet t rest found
    | some _, none => meet t rest (some p)
    | some _, some d =>
      (intersect rank t (rank p + rank d + 1) p d).bind fun d => meet t rest (some d)

def sweep (g : FlowGraph) : List Nat → Parents → Option (Parents × Bool)
  | [], t => some (t, false)
  | b :: rest, t =>
    (meet rank t (g.predecessors b) none).bind fun found =>
      match found with
      | none => sweep g rest t
      | some d =>
        if t.above b = some d then sweep g rest t
        else (sweep g rest (t.set b (some d))).map fun (t, _) => (t, true)

def refine (g : FlowGraph) (inner : List Nat) : Nat → Parents → Option Parents
  | 0, _ => none
  | rounds + 1, t =>
    (sweep rank g inner t).bind fun (t, changed) =>
      if changed then refine g inner rounds t else some t

end Rounds

def hang (idoms : Parents) (rows : List (List Nat)) (b : Nat) : List (List Nat) :=
  match idoms.above b with
  | some p => rows.modify p (· ++ [b])
  | none => rows

/-- The dominator tree, if climbing and refining come to an end. Each change moves a block up
in the order, so there are no more rounds than pairs of blocks, and one in which nothing
changes. -/
def compute? (size : Nat) (g : FlowGraph) : Option DomTree :=
  let order := blockOrder size g
  let start : Parents := (List.replicate size none).set 0 (some 0)
  (refine order.idxOf g order.tail (order.length * order.length + 1) start).map fun t =>
    let idoms := t.set 0 none
    ⟨order, idoms, order.tail.foldl (hang idoms) (List.replicate size [])⟩

def ofGraph (size : Nat) (g : FlowGraph) : DomTree := (compute? size g).getD default

def ofFunc (f : Func) (g : FlowGraph) : DomTree := ofGraph f.blocks.length g

def rank (t : DomTree) (b : Nat) : Nat := t.order.idxOf b

def isReachable (t : DomTree) (b : Nat) : Bool := t.order.contains b

def idom (t : DomTree) (b : Nat) : Option Nat := t.idoms.getD b none

def climb (t : DomTree) (place : Nat) : Nat → Nat → Option Nat
  | 0, _ => none
  | steps + 1, b => if place < t.rank b then (t.idom b).bind (t.climb place steps) else some b

def dominates (t : DomTree) (a b : Nat) : Bool :=
  t.isReachable a && t.isReachable b && t.climb (t.rank a) (t.rank b + 1) b == some a

def chain (t : DomTree) : Nat → Nat → List Nat
  | 0, _ => []
  | steps + 1, b => b :: ((t.idom b).map (t.chain steps)).getD []

def chains (t : DomTree) : List (List Nat) :=
  (List.range t.idoms.length).map fun b => t.chain (t.rank b + 1) b

def children (t : DomTree) (b : Nat) : List Nat := t.below.getD b []

def sameTree (t u : DomTree) : Bool := t.idoms == u.idoms

end DomTree

structure TreeWalk where
  stack : List (Nat × Nat) := []
  visited : List Bool := []
  order : List Nat := []
  deriving DecidableEq, Repr, Inhabited

namespace TreeWalk

def run (g : FlowGraph) : Nat → TreeWalk → TreeWalk
  | 0, w => w
  | fuel + 1, w =>
    match w.stack with
    | [] => w
    | (b, tried) :: rest =>
      match (g.successors b)[tried]? with
      | none => run g fuel { w with order := b :: w.order, stack := rest }
      | some s =>
        if w.visited.getD s false then run g fuel { w with stack := (b, tried + 1) :: rest }
        else
          run g fuel
            { w with visited := w.visited.set s true, stack := (s, 0) :: (b, tried + 1) :: rest }

end TreeWalk

structure TreeStore where
  walk : TreeWalk := {}
  places : List (Option Nat) := []
  idoms : DomTree.Parents := []
  children : List (List Nat) := []
  size : Nat := 0
  deriving DecidableEq, Repr, Inhabited

namespace TreeStore
open DomTree

def number : Nat → List Nat → List (Option Nat) → List (Option Nat)
  | _, [], places => places
  | k, b :: rest, places => number (k + 1) rest (places.set b (some k))

def rank (places : List (Option Nat)) (count b : Nat) : Nat := (places.getD b none).getD count

def rebuild (old : TreeStore) (size : Nat) (g : FlowGraph) : TreeStore :=
  let fresh : TreeStore :=
    { walk := { old.walk with visited := List.replicate size false, order := [] }
      places := List.replicate size none
      idoms := List.replicate size none
      children := Rows.reset size [] old.children
      size := size }
  if size = 0 then fresh
  else
    let walk := TreeWalk.run g (Search.steps size g.successors 1)
      { fresh.walk with stack := [(0, 0)], visited := fresh.walk.visited.set 0 true }
    let order := walk.order
    let places := number 0 order fresh.places
    let rounds := order.length * order.length + 1
    let hung := refine (rank places order.length) g order.tail rounds (fresh.idoms.set 0 (some 0))
    let idoms := (hung.getD fresh.idoms).set 0 none
    { fresh with walk, places, idoms, children := order.tail.foldl (hang idoms) fresh.children }

def tree (t : TreeStore) : DomTree := ⟨t.walk.order, t.idoms, t.children.take t.size⟩

def clear (t : TreeStore) : TreeStore where
  walk := { t.walk with order := [] }
  places := []
  idoms := []
  children := t.children.mapIdx fun b row => if b < t.size then [] else row
  size := 0

end TreeStore
end SsaCodegen
