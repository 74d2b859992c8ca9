/-! Graph search. `closure` collects what can be reached from some nodes without
entering those seen before; `reversePostorder` visits depth first, taking the
successors of a node in their order. Both take one unit of fuel a step, and
`steps` is enough for every graph on `size` nodes. -/
namespace SsaCodegen.Search

def steps (size : Nat) (next : Nat → List Nat) (roots : Nat) : Nat :=
  (List.range size).foldl (fun total n => total + (next n).length) (roots + size + 1)

def closure (next : Nat → List Nat) : Nat → List Nat → List Nat → List Nat
  | 0, _, seen => seen
  | _, [], seen => seen
  | fuel + 1, n :: todo, seen =>
    if seen.contains n then closure next fuel todo seen
    else closure next fuel (next n ++ todo) (n :: seen)

theorem closureContains (next : Nat → List Nat) (fuel : Nat) (todo : List Nat) {seen : List Nat}
    {n : Nat} (h : n ∈ seen) : n ∈ closure next fuel todo seen := by
  fun_induction closure next fuel todo seen with
  | case1 => exact h
  | case2 => exact h
  | case3 _ _ _ _ _ ih => exact ih h
  | case4 _ _ _ _ _ ih => exact ih (List.mem_cons_of_mem _ h)

def reachFrom (size : Nat) (next : Nat → List Nat) (roots barrier : List Nat) : List Nat :=
  closure next (steps size next roots.length) roots barrier

/-- The stack pairs a node with the successors still to be tried. A finished node
goes in front of those finished before it. -/
def finishOrder (next : Nat → List Nat) :
    Nat → List (Nat × List Nat) → List Nat → List Nat → List Nat
  | 0, _, _, finished => finished
  | _, [], _, finished => finished
  | fuel + 1, (n, []) :: stack, seen, finished =>
    finishOrder next fuel stack seen (n :: finished)
  | fuel + 1, (n, s :: rest) :: stack, seen, finished =>
    if seen.contains s then finishOrder next fuel ((n, rest) :: stack) seen finished
    else finishOrder next fuel ((s, next s) :: (n, rest) :: stack) (s :: seen) finished

def reversePostorder (size : Nat) (next : Nat → List Nat) (root : Nat) : List Nat :=
  finishOrder next (steps size next 1) [(root, next root)] [root] []

end SsaCodegen.Search
