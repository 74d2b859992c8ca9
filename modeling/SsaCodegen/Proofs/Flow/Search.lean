import SsaCodegen.Flow.Search
/-! What graph search finds. With the fuel that `steps` gives, the nodes found are those
of the barrier and those that a path around the barrier reaches. -/
namespace SsaCodegen.Search

inductive Reached (next : Nat → List Nat) (roots barrier : List Nat) : Nat → Prop where
  | root {n} (start : n ∈ roots) (free : n ∉ barrier) : Reached next roots barrier n
  | step {m n} (before : Reached next roots barrier m) (edge : n ∈ next m) (free : n ∉ barrier) :
      Reached next roots barrier n

theorem Reached.free {next : Nat → List Nat} {roots barrier : List Nat} {n : Nat}
    (reached : Reached next roots barrier n) : n ∉ barrier := by
  cases reached <;> assumption

theorem Reached.anywhere {next : Nat → List Nat} {roots barrier : List Nat} {n : Nat}
    (reached : Reached next roots barrier n) : Reached next roots [] n := by
  induction reached with
  | root start free => exact .root start List.not_mem_nil
  | step before edge free ih => exact .step ih edge List.not_mem_nil

def Bounded (size : Nat) (next : Nat → List Nat) : Prop := ∀ m, ∀ n ∈ next m, n < size

def pending (next : Nat → List Nat) (seen : List Nat) : List Nat → Nat
  | [] => 0
  | n :: rest => (if n ∈ seen then 0 else (next n).length + 1) + pending next seen rest

theorem pendingSkip {next : Nat → List Nat} {seen nodes : List Nat} {n : Nat} (other : n ∉ nodes) :
    pending next (n :: seen) nodes = pending next seen nodes := by
  induction nodes with
  | nil => rfl
  | cons m rest ih =>
    obtain ⟨ne, later⟩ := not_or.mp (mt List.mem_cons.mpr other)
    simp [pending, ih later, Ne.symm ne]

theorem pendingSeen (next : Nat → List Nat) {seen nodes : List Nat} {n : Nat} (inside : n ∈ nodes)
    (once : nodes.Nodup) (fresh : n ∉ seen) :
    pending next seen nodes = (next n).length + 1 + pending next (n :: seen) nodes := by
  induction nodes with
  | nil => cases inside
  | cons m rest ih =>
    obtain ⟨absent, once⟩ := List.nodup_cons.mp once
    rcases List.mem_cons.mp inside with rfl | later
    · simp [pending, fresh, pendingSkip absent]
    · have ne : m ≠ n := fun same => absent (same ▸ later)
      simp only [pending, ih later once, List.mem_cons, ne, false_or]
      omega

theorem pendingLeSteps (next : Nat → List Nat) (seen : List Nat) (size roots : Nat) :
    roots + pending next seen (List.range size) + 1 ≤ steps size next roots := by
  have go (nodes : List Nat) (total : Nat) : total + pending next seen nodes ≤
      nodes.foldl (fun total n => total + (next n).length) (total + nodes.length) := by
    induction nodes generalizing total with
    | nil => exact Nat.le_refl _
    | cons n rest ih =>
      have later := ih (total + (next n).length + 1)
      have same : total + (n :: rest).length + (next n).length =
          total + (next n).length + 1 + rest.length := by simp only [List.length_cons]; omega
      simp only [pending, List.foldl_cons, same]
      split <;> omega
  have h := go (List.range size) (roots + 1)
  have start : roots + 1 + (List.range size).length = roots + size + 1 := by
    simp only [List.length_range]; omega
  rw [start] at h
  unfold steps
  omega

def Closed (next : Nat → List Nat) (barrier found : List Nat) : Prop :=
  ∀ m ∈ found, m ∉ barrier → ∀ n ∈ next m, n ∈ found

theorem closureClosed {size : Nat} {next : Nat → List Nat} {barrier : List Nat}
    (bounded : Bounded size next) {fuel : Nat} {todo seen : List Nat}
    (below : ∀ n ∈ todo, n < size)
    (enough : todo.length + pending next seen (List.range size) ≤ fuel)
    (inv : ∀ m ∈ seen, m ∉ barrier → ∀ n ∈ next m, n ∈ seen ∨ n ∈ todo) :
    Closed next barrier (closure next fuel todo seen) ∧
      ∀ n ∈ todo, n ∈ closure next fuel todo seen := by
  fun_induction closure next fuel todo seen with
  | case1 todo seen =>
    have empty : todo = [] := List.eq_nil_of_length_eq_zero (by omega)
    subst empty
    exact ⟨fun m found free n edge => (inv m found free n edge).resolve_right (by simp), by simp⟩
  | case2 fuel seen =>
    exact ⟨fun m found free n edge => (inv m found free n edge).resolve_right (by simp), by simp⟩
  | case3 fuel n todo seen known ih =>
    have known : n ∈ seen := List.contains_iff_mem.mp known
    obtain ⟨closed, rest⟩ := ih (fun k later => below k (List.mem_cons_of_mem _ later))
      (by simp only [List.length_cons] at enough; omega)
      (fun m found free k edge => by
        rcases inv m found free k edge with old | waiting
        · exact .inl old
        · rcases List.mem_cons.mp waiting with rfl | later
          · exact .inl known
          · exact .inr later)
    refine ⟨closed, fun k waiting => ?_⟩
    rcases List.mem_cons.mp waiting with rfl | later
    · exact closureContains next fuel todo known
    · exact rest k later
  | case4 fuel n todo seen fresh ih =>
    have fresh : n ∉ seen := by simpa using fresh
    have inside : n ∈ List.range size := List.mem_range.mpr (below n List.mem_cons_self)
    -- a node is paid for once: what it adds to the list is what `pending` loses
    have cost := pendingSeen next inside List.nodup_range fresh
    obtain ⟨closed, rest⟩ := ih
      (fun k waiting => by
        rcases List.mem_append.mp waiting with edge | later
        · exact bounded n k edge
        · exact below k (List.mem_cons_of_mem _ later))
      (by simp only [List.length_cons, List.length_append] at enough ⊢; omega)
      (fun m found free k edge => by
        rcases List.mem_cons.mp found with rfl | old
        · exact .inr (List.mem_append_left _ edge)
        · rcases inv m old free k edge with seen | waiting
          · exact .inl (List.mem_cons_of_mem _ seen)
          · rcases List.mem_cons.mp waiting with rfl | later
            · exact .inl List.mem_cons_self
            · exact .inr (List.mem_append_right _ later))
    refine ⟨closed, fun k waiting => ?_⟩
    rcases List.mem_cons.mp waiting with rfl | later
    · exact closureContains next fuel _ List.mem_cons_self
    · exact rest k (List.mem_append_right _ later)

theorem closureSound {next : Nat → List Nat} {roots barrier : List Nat} {fuel : Nat}
    {todo seen : List Nat}
    (waiting : ∀ n ∈ todo, n ∉ barrier → Reached next roots barrier n)
    (sofar : ∀ n ∈ seen, n ∈ barrier ∨ Reached next roots barrier n)
    (all : ∀ n ∈ barrier, n ∈ seen) :
    ∀ n ∈ closure next fuel todo seen, n ∈ barrier ∨ Reached next roots barrier n := by
  fun_induction closure next fuel todo seen with
  | case1 => exact sofar
  | case2 => exact sofar
  | case3 fuel n todo seen known ih =>
    exact ih (fun k later => waiting k (List.mem_cons_of_mem _ later)) sofar all
  | case4 fuel n todo seen fresh ih =>
    have free : n ∉ barrier := fun held => (by simpa using fresh : n ∉ seen) (all n held)
    have reached := waiting n List.mem_cons_self free
    refine ih (fun k later free => ?_) (fun k found => ?_)
      (fun k held => List.mem_cons_of_mem _ (all k held))
    · rcases List.mem_append.mp later with edge | later
      · exact .step reached edge free
      · exact waiting k (List.mem_cons_of_mem _ later) free
    · rcases List.mem_cons.mp found with rfl | old
      · exact .inr reached
      · exact sofar k old

variable {size : Nat} {next : Nat → List Nat} {roots barrier : List Nat} {n : Nat}

theorem reachFromClosed (barrier : List Nat) (bounded : Bounded size next)
    (below : ∀ n ∈ roots, n < size) :
    Closed next barrier (reachFrom size next roots barrier) ∧
      ∀ n ∈ roots, n ∈ reachFrom size next roots barrier := by
  have fuel := pendingLeSteps next barrier size roots.length
  exact closureClosed bounded below (by omega) fun m held free => absurd held free

theorem memReachFrom (bounded : Bounded size next) (below : ∀ n ∈ roots, n < size) :
    n ∈ reachFrom size next roots barrier ↔ n ∈ barrier ∨ Reached next roots barrier n := by
  constructor
  · exact closureSound (fun n start free => .root start free) (fun n held => .inl held)
      (fun n held => held) n
  · rintro (held | reached)
    · exact closureContains next _ _ held
    · obtain ⟨closed, start⟩ := reachFromClosed barrier bounded below
      induction reached with
      | root found free => exact start _ found
      | step before edge free ih => exact closed _ ih before.free _ edge

def Passes (next : Nat → List Nat) (root a b : Nat) : Prop := ¬ Reached next [root] [a] b

theorem Passes.refl (next : Nat → List Nat) (root a : Nat) : Passes next root a a :=
  fun reached => reached.free List.mem_cons_self

inductive StackPath (next : Nat → List Nat) (root : Nat) : List Nat → Prop where
  | nil : StackPath next root []
  | one : StackPath next root [root]
  | push {n s below} (path : StackPath next root (n :: below)) (edge : s ∈ next n) :
      StackPath next root (s :: n :: below)

theorem StackPath.tail {next : Nat → List Nat} {root n : Nat} {below : List Nat}
    (path : StackPath next root (n :: below)) : StackPath next root below := by
  cases path with
  | one => exact .nil
  | push path edge => exact path

theorem StackPath.entered {next : Nat → List Nat} {root n : Nat} {below finished : List Nat}
    (path : StackPath next root (n :: below)) :
    n = root ∨ ∃ p, n ∈ next p ∧ (p ∈ finished ∨ p ∈ below) := by
  cases path with
  | one => exact .inl rfl
  | push path edge => exact .inr ⟨_, edge, .inr List.mem_cons_self⟩

theorem StackPath.reached {next : Nat → List Nat} {root n : Nat} {below barrier : List Nat}
    (path : StackPath next root (n :: below)) (free : ∀ m ∈ n :: below, m ∉ barrier) :
    Reached next [root] barrier n := by
  generalize same : n :: below = nodes at path
  induction path generalizing n below with
  | nil => cases same
  | one =>
    cases same
    exact .root List.mem_cons_self (free _ List.mem_cons_self)
  | push path edge ih =>
    cases same
    exact .step (ih (fun m found => free m (List.mem_cons_of_mem _ found)) rfl) edge
      (free _ List.mem_cons_self)

/-- What holds at every moment of a depth-first search. A node that dominates a finished
one is on the stack or finished in front of it, and so is one with an edge to it. -/
structure Visiting (next : Nat → List Nat) (root : Nat) (stack : List (Nat × List Nat))
    (seen finished : List Nat) : Prop where
  nodes : ∀ n, n ∈ seen ↔ n ∈ stack.map Prod.fst ∨ n ∈ finished
  once : (stack.map Prod.fst ++ finished).Nodup
  path : StackPath next root (stack.map Prod.fst)
  tried : ∀ n rest, (n, rest) ∈ stack → ∀ m ∈ next n, m ∈ seen ∨ m ∈ rest
  done : ∀ n ∈ finished, ∀ m ∈ next n, m ∈ seen
  reached : ∀ n ∈ seen, Reached next [root] [] n
  ordered : ∀ before b after, finished = before ++ b :: after → ∀ a, Passes next root a b →
    a = b ∨ a ∈ before ∨ a ∈ stack.map Prod.fst
  entered : ∀ before b after, finished = before ++ b :: after →
    b = root ∨ ∃ p, b ∈ next p ∧ (p ∈ before ∨ p ∈ stack.map Prod.fst)

namespace Visiting
variable {next : Nat → List Nat} {root n s : Nat} {rest : List Nat}
  {stack : List (Nat × List Nat)} {seen finished : List Nat}

theorem finish (v : Visiting next root ((n, []) :: stack) seen finished) :
    Visiting next root stack seen (n :: finished) where
  nodes m := by
    rw [v.nodes m]
    simp only [List.map_cons, List.mem_cons]
    constructor
    · rintro ((rfl | below) | old)
      · exact .inr (.inl rfl)
      · exact .inl below
      · exact .inr (.inr old)
    · rintro (below | rfl | old)
      · exact .inl (.inr below)
      · exact .inl (.inl rfl)
      · exact .inr old
  once := by
    have once := v.once
    simp only [List.map_cons, List.cons_append, List.nodup_cons] at once
    exact (List.perm_middle.nodup_iff).mpr (List.nodup_cons.mpr once)
  path := v.path.tail
  tried m rest inside := v.tried m rest (List.mem_cons_of_mem _ inside)
  done m finished k edge := by
    rcases List.mem_cons.mp finished with rfl | old
    · exact (v.tried m [] List.mem_cons_self k edge).resolve_right (by simp)
    · exact v.done m old k edge
  reached := v.reached
  ordered before b after split a passes := by
    cases before with
    | nil =>
      simp only [List.nil_append, List.cons.injEq] at split
      obtain ⟨rfl, rfl⟩ := split
      by_cases same : a = n
      · exact .inl same
      -- the stack is a path to the finished node, so whatever dominates it is on the stack
      · refine .inr (.inr (Classical.byContradiction fun absent => passes ?_))
        refine v.path.reached fun m found held => ?_
        obtain rfl : m = a := List.mem_singleton.mp held
        exact (List.mem_cons.mp found).elim (fun h => same h) absent
    | cons top before =>
      simp only [List.cons_append, List.cons.injEq] at split
      obtain ⟨rfl, split⟩ := split
      rcases v.ordered before b after split a passes with same | earlier | waiting
      · exact .inl same
      · exact .inr (.inl (List.mem_cons_of_mem _ earlier))
      · rcases List.mem_cons.mp waiting with rfl | below
        · exact .inr (.inl List.mem_cons_self)
        · exact .inr (.inr below)
  entered before b after split := by
    cases before with
    | nil =>
      simp only [List.nil_append, List.cons.injEq] at split
      obtain ⟨rfl, rfl⟩ := split
      exact v.path.entered
    | cons top before =>
      simp only [List.cons_append, List.cons.injEq] at split
      obtain ⟨rfl, split⟩ := split
      refine (v.entered before b after split).imp_right fun ⟨p, edge, place⟩ => ⟨p, edge, ?_⟩
      rcases place with earlier | waiting
      · exact .inl (List.mem_cons_of_mem _ earlier)
      · rcases List.mem_cons.mp waiting with rfl | below
        · exact .inl List.mem_cons_self
        · exact .inr below

theorem skip (v : Visiting next root ((n, s :: rest) :: stack) seen finished) (known : s ∈ seen) :
    Visiting next root ((n, rest) :: stack) seen finished where
  nodes := v.nodes
  once := v.once
  path := v.path
  tried m r inside k edge := by
    rcases List.mem_cons.mp inside with same | below
    · cases same
      rcases v.tried n (s :: rest) List.mem_cons_self k edge with old | waiting
      · exact .inl old
      · rcases List.mem_cons.mp waiting with rfl | later
        · exact .inl known
        · exact .inr later
    · exact v.tried m r (List.mem_cons_of_mem _ below) k edge
  done := v.done
  reached := v.reached
  ordered := v.ordered
  entered := v.entered

theorem enter (v : Visiting next root ((n, s :: rest) :: stack) seen finished)
    (edge : s ∈ next n) (fresh : s ∉ seen) :
    Visiting next root ((s, next s) :: (n, rest) :: stack) (s :: seen) finished where
  nodes m := by
    simp only [List.mem_cons, v.nodes m, List.map_cons]
    constructor
    · rintro (rfl | (rfl | below) | old)
      · exact .inl (.inl rfl)
      · exact .inl (.inr (.inl rfl))
      · exact .inl (.inr (.inr below))
      · exact .inr old
    · rintro ((rfl | rfl | below) | old)
      · exact .inl rfl
      · exact .inr (.inl (.inl rfl))
      · exact .inr (.inl (.inr below))
      · exact .inr (.inr old)
  once := by
    refine List.nodup_cons.mpr ⟨fun inside => fresh ((v.nodes s).mpr ?_), v.once⟩
    exact List.mem_append.mp inside
  path := .push v.path edge
  tried m r inside k out := by
    rcases List.mem_cons.mp inside with same | below
    · cases same
      exact .inr out
    · rcases List.mem_cons.mp below with same | below
      · cases same
        rcases v.tried n (s :: rest) List.mem_cons_self k out with old | waiting
        · exact .inl (List.mem_cons_of_mem _ old)
        · rcases List.mem_cons.mp waiting with rfl | later
          · exact .inl List.mem_cons_self
          · exact .inr later
      · rcases v.tried m r (List.mem_cons_of_mem _ below) k out with old | later
        · exact .inl (List.mem_cons_of_mem _ old)
        · exact .inr later
  done m finished k out := List.mem_cons_of_mem _ (v.done m finished k out)
  reached m inside := by
    rcases List.mem_cons.mp inside with rfl | old
    · exact .step (v.reached n ((v.nodes n).mpr (.inl List.mem_cons_self))) edge (by simp)
    · exact v.reached m old
  ordered before b after split a passes := by
    rcases v.ordered before b after split a passes with same | earlier | waiting
    · exact .inl same
    · exact .inr (.inl earlier)
    · exact .inr (.inr (List.mem_cons_of_mem _ waiting))
  entered before b after split :=
    (v.entered before b after split).imp_right fun ⟨p, edge, place⟩ =>
      ⟨p, edge, place.imp_right (List.mem_cons_of_mem _)⟩

def work : List (Nat × List Nat) → Nat
  | [] => 0
  | (_, rest) :: below => rest.length + 1 + work below

theorem finishOrder {size : Nat} (fuel : Nat) (v : Visiting next root stack seen finished)
    (bounded : Bounded size next)
    (left : ∀ n rest, (n, rest) ∈ stack → ∀ m ∈ rest, m ∈ next n)
    (enough : work stack + pending next seen (List.range size) ≤ fuel) :
    ∃ seen', (∀ n ∈ seen, n ∈ seen') ∧
      Visiting next root [] seen' (finishOrder next fuel stack seen finished) := by
  fun_induction Search.finishOrder next fuel stack seen finished with
  | case1 stack seen finished =>
    cases stack with
    | nil => exact ⟨seen, fun _ h => h, v⟩
    | cons top below => simp only [work] at enough; omega
  | case2 fuel seen finished => exact ⟨seen, fun _ h => h, v⟩
  | case3 fuel n stack seen finished ih =>
    refine ih v.finish (fun m rest inside => left m rest (List.mem_cons_of_mem _ inside)) ?_
    simp only [work] at enough
    omega
  | case4 fuel n s rest stack seen finished known ih =>
    have known : s ∈ seen := List.contains_iff_mem.mp known
    refine ih (v.skip known) (fun m r inside k later => ?_) ?_
    · rcases List.mem_cons.mp inside with same | below
      · cases same
        exact left n (s :: rest) List.mem_cons_self k (List.mem_cons_of_mem _ later)
      · exact left m r (List.mem_cons_of_mem _ below) k later
    · simp only [work, List.length_cons] at enough ⊢
      omega
  | case5 fuel n s rest stack seen finished fresh ih =>
    have fresh : s ∉ seen := by simpa using fresh
    have edge : s ∈ next n := left n (s :: rest) List.mem_cons_self s List.mem_cons_self
    have inside : s ∈ List.range size := List.mem_range.mpr (bounded n s edge)
    have cost := pendingSeen next inside List.nodup_range fresh
    obtain ⟨seen', more, final⟩ := ih (v.enter edge fresh)
      (fun m r inside k later => by
        rcases List.mem_cons.mp inside with same | below
        · cases same
          exact later
        · rcases List.mem_cons.mp below with same | below
          · cases same
            exact left n (s :: rest) List.mem_cons_self k (List.mem_cons_of_mem _ later)
          · exact left m r (List.mem_cons_of_mem _ below) k later)
      (by simp only [work, List.length_cons] at enough ⊢; omega)
    exact ⟨seen', fun m old => more m (List.mem_cons_of_mem _ old), final⟩

end Visiting

structure Ordered (next : Nat → List Nat) (root : Nat) (order : List Nat) : Prop where
  mem : ∀ n, n ∈ order ↔ Reached next [root] [] n
  once : order.Nodup
  dominators : ∀ before b after, order = before ++ b :: after → ∀ a, Passes next root a b →
    a = b ∨ a ∈ before
  entered : ∀ before b after, order = before ++ b :: after → b = root ∨ ∃ p ∈ before, b ∈ next p

theorem orderedPostorder {size root : Nat} {next : Nat → List Nat} (bounded : Bounded size next)
    (below : root < size) : Ordered next root (reversePostorder size next root) := by
  have start : Visiting next root [(root, next root)] [root] [] :=
    { nodes := by simp
      once := by simp
      path := .one
      tried := by
        intro n rest inside m edge
        obtain ⟨rfl, rfl⟩ := Prod.mk.inj (List.mem_singleton.mp inside)
        exact .inr edge
      done := by simp
      reached := fun n inside => .root inside (by simp)
      ordered := by simp
      entered := by simp }
  have cost := pendingSeen next (List.mem_range.mpr below) List.nodup_range
    (List.not_mem_nil : root ∉ [])
  have fuel := pendingLeSteps next [] size 1
  obtain ⟨seen, more, final⟩ := start.finishOrder (steps size next 1) bounded
    (fun n rest inside m later => by
      obtain ⟨rfl, rfl⟩ := Prod.mk.inj (List.mem_singleton.mp inside)
      exact later)
    (by simp only [Visiting.work]; omega)
  have nodes (n : Nat) : n ∈ seen ↔ n ∈ reversePostorder size next root :=
    (final.nodes n).trans (or_iff_right List.not_mem_nil)
  refine ⟨fun n => ⟨fun inside => final.reached n ((nodes n).mpr inside), fun reached => ?_⟩,
    final.once, fun before b after split a passes => ?_, fun before b after split => ?_⟩
  · induction reached with
    | root found free =>
      cases List.mem_singleton.mp found
      exact (nodes root).mp (more root List.mem_cons_self)
    | step before edge free ih => exact (nodes _).mp (final.done _ ih _ edge)
  · rcases final.ordered before b after split a passes with same | earlier | waiting
    · exact .inl same
    · exact .inr earlier
    · cases waiting
  · refine (final.entered before b after split).imp_right fun ⟨p, edge, place⟩ => ⟨p, ?_, edge⟩
    exact place.resolve_right List.not_mem_nil

end SsaCodegen.Search
