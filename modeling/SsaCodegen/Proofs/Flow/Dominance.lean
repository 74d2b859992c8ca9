import SsaCodegen.Proofs.Flow.Rounds
/-! What the dominator tree says about paths. A block is reachable when a path leads to
it from the entry, and `a` dominates `b` when every such path to `b` passes `a`. What is above a
block in the tree is what dominates it, so its immediate dominator is a strict one that all
others dominate, and comes before it in the order. -/
namespace SsaCodegen
open Search

namespace FlowGraph

theorem memSuccessors {f : Func} {b s : Nat} : s ∈ (ofFunc f).successors b ↔
    ∃ bb, f.blocks[b]? = some bb ∧ s ∈ targetsOf f bb := by
  simp only [successors, ofFunc, List.getD_eq_getElem?_getD, List.getElem?_map]
  cases f.blocks[b]? <;> simp

theorem targetsInside {f : Func} {bb : Block} {s : Nat} (edge : s ∈ targetsOf f bb) :
    s < f.blocks.length := by
  unfold targetsOf at edge
  split at edge
  · obtain ⟨label, -, found⟩ := List.mem_filterMap.mp (List.mem_eraseDups.mp edge)
    exact (List.findIdx?_eq_some_iff_getElem.mp found).1
  · cases edge

theorem boundedSuccessors (f : Func) : Bounded f.blocks.length (ofFunc f).successors := by
  intro b s edge
  obtain ⟨bb, -, edge⟩ := memSuccessors.mp edge
  exact targetsInside edge

theorem proper (f : Func) (nonempty : 0 < f.blocks.length) : (ofFunc f).Proper f.blocks.length :=
  ⟨nonempty, boundedSuccessors f, fun _ _ inside => predecessorIff inside⟩

end FlowGraph

namespace DomTree

theorem reachedOfPasses {next : Nat → List Nat} {root a b : Nat} (reached : Reached next [root] [] b)
    (passes : Passes next root a b) : Reached next [root] [] a := by
  induction reached with
  | @root n found free =>
    by_cases same : a = n
    · subst same
      exact .root found free
    · exact absurd (.root found (by simpa using Ne.symm same)) passes
  | @step m n before edge free ih =>
    by_cases same : a = n
    · subst same
      exact .step before edge free
    · exact ih fun around => passes (.step around edge (by simpa using Ne.symm same))

abbrev Below (t : DomTree) (a b : Nat) : Prop := Up t.idom a b

theorem Below.ofChild {t : DomTree} {a c b : Nat} (parent : t.idom c = some a) (below : t.Below c b) :
    t.Below a b := .trans (.step parent .self) below

section Hang
variable (idoms : Parents) (rows : List (List Nat))

theorem lengthHang (b : Nat) : (hang idoms rows b).length = rows.length := by
  unfold hang
  split
  · exact List.length_modify ..
  · rfl

theorem lengthHangAll (bs : List Nat) : (bs.foldl (hang idoms) rows).length = rows.length := by
  induction bs generalizing rows with
  | nil => rfl
  | cons b rest ih => rw [List.foldl_cons, ih, lengthHang]

theorem hangOne {a b : Nat} (inside : a < rows.length) : (hang idoms rows b).getD a [] =
    rows.getD a [] ++ if idoms.above b == some a then [b] else [] := by
  unfold hang
  split
  · rename_i p above
    rw [above, List.getD_eq_getElem?_getD, List.getD_eq_getElem?_getD, List.getElem?_modify,
      List.getElem?_eq_getElem inside]
    by_cases here : p = a <;> simp [here]
  · rename_i above
    simp [above]

theorem hangAll (bs : List Nat) {a : Nat} (inside : a < rows.length) :
    (bs.foldl (hang idoms) rows).getD a [] =
      rows.getD a [] ++ bs.filter fun b => idoms.above b == some a := by
  induction bs generalizing rows with
  | nil => rw [List.foldl_nil, List.filter_nil, List.append_nil]
  | cons b rest ih =>
    rw [List.foldl_cons, ih _ (by rwa [lengthHang]), hangOne _ _ inside, List.append_assoc, List.filter_cons]
    split <;> rfl

end Hang

section
variable {size : Nat} {g : FlowGraph} (proper : g.Proper size)
include proper

theorem computed : ∃ t : Parents, compute? size g = some (ofGraph size g) ∧
    (ofGraph size g).order = blockOrder size g ∧ Settled g (blockOrder size g) t ∧
    ∀ b p, (ofGraph size g).idom b = some p ↔ b ≠ 0 ∧ t.above b = some p := by
  obtain ⟨t, goes, length, settled⟩ := computes proper
  have made : ofGraph size g = ⟨blockOrder size g, t.set 0 none,
      (blockOrder size g).tail.foldl (hang (t.set 0 none)) (List.replicate size [])⟩ := by
    rw [ofGraph, goes]
    rfl
  refine ⟨t, made ▸ goes, by rw [made], settled, fun b p => ?_⟩
  by_cases entry : b = 0
  · simp [made, idom, List.getD_eq_getElem?_getD, entry, length, proper.positive]
  · simp [made, idom, Parents.above, List.getD_eq_getElem?_getD, entry, Ne.symm entry]

theorem orderedOrder : Ordered g.successors 0 (ofGraph size g).order := by
  obtain ⟨t, -, order, -⟩ := computed proper
  exact order ▸ ordered proper

theorem memOrder {b : Nat} : b ∈ (ofGraph size g).order ↔ Reached g.successors [0] [] b :=
  (orderedOrder proper).mem b

theorem isReachableIff {b : Nat} :
    (ofGraph size g).isReachable b = true ↔ Reached g.successors [0] [] b := by
  rw [isReachable, List.contains_iff_mem, memOrder proper]

theorem idomEarlier {b p : Nat} (parent : (ofGraph size g).idom b = some p) :
    (ofGraph size g).rank p < (ofGraph size g).rank b := by
  obtain ⟨t, -, order, settled, hangs⟩ := computed proper
  obtain ⟨inner, hung⟩ := (hangs b p).mp parent
  rw [rank, rank, order]
  exact (settled.refining.hangs b p hung inner).2.2

theorem idomSome {b : Nat} (reached : Reached g.successors [0] [] b) (other : b ≠ 0) :
    ∃ p, (ofGraph size g).idom b = some p := by
  obtain ⟨t, -, -, settled, hangs⟩ := computed proper
  obtain ⟨p, hung, -⟩ := settled.fixed b reached other
  exact ⟨p, (hangs b p).mpr ⟨other, hung⟩⟩

theorem belowIff {a b : Nat} (reached : Reached g.successors [0] [] b) :
    (ofGraph size g).Below a b ↔ Passes g.successors 0 a b := by
  obtain ⟨t, -, -, settled, hangs⟩ := computed proper
  have same (b : Nat) : (ofGraph size g).Below a b ↔ Up t.above a b := by
    constructor
    · intro below
      induction below with
      | self => exact .self
      | step parent _ ih => exact .step ((hangs _ _).mp parent).2 ih
    · intro up
      induction up using Up.induct settled.refining.root with
      | self => exact .self
      | step b p hung up inner ih => exact .step ((hangs b p).mpr ⟨inner, hung⟩) ih
  exact (same b).trans (settled.refining.settled (ordered proper) settled.fixed reached)

theorem Below.notLater {a b : Nat} (below : (ofGraph size g).Below a b) :
    (ofGraph size g).rank a ≤ (ofGraph size g).rank b := by
  induction below with
  | self => exact Nat.le_refl _
  | step parent _ ih => exact Nat.le_trans ih (Nat.le_of_lt (idomEarlier proper parent))

theorem idomSound {b p : Nat} (parent : (ofGraph size g).idom b = some p) :
    Reached g.successors [0] [] b ∧ Passes g.successors 0 p b ∧ p ≠ b := by
  obtain ⟨t, -, -, settled, hangs⟩ := computed proper
  obtain ⟨inner, hung⟩ := (hangs b p).mp parent
  have reached := (settled.refining.hangs b p hung inner).1
  refine ⟨reached, (belowIff proper reached).mp (.step parent .self), fun same => ?_⟩
  subst same
  exact Nat.lt_irrefl _ (idomEarlier proper parent)

theorem idomLast {a b p : Nat} (parent : (ofGraph size g).idom b = some p)
    (passes : Passes g.successors 0 a b) (other : a ≠ b) : Passes g.successors 0 a p := by
  have ⟨reached, above, _⟩ := idomSound proper parent
  have below := (belowIff proper reached).mpr passes
  exact (belowIff proper (reachedOfPasses reached above)).mp ((below.above parent).resolve_left other)

theorem climbs {a : Nat} (left : Reached g.successors [0] [] a) {steps b : Nat}
    (reached : Reached g.successors [0] [] b) (enough : (ofGraph size g).rank b < steps) :
    (ofGraph size g).climb ((ofGraph size g).rank a) steps b = some a ↔ (ofGraph size g).Below a b := by
  induction steps generalizing b with
  | zero => exact absurd enough (Nat.not_lt_zero _)
  | succ steps ih =>
    have o := orderedOrder proper
    rw [climb]
    split
    · rename_i later
      have other : b ≠ 0 := fun same => by
        have first : (ofGraph size g).rank 0 = 0 := o.rootPlace
        rw [same, first] at later
        exact Nat.not_lt_zero _ later
      obtain ⟨p, parent⟩ := idomSome proper reached other
      have higher := idomEarlier proper parent
      rw [parent, Option.bind_some, ih (reachedOfPasses reached (idomSound proper parent).2.1) (by omega)]
      refine ⟨.step parent, fun below => (below.above parent).resolve_left fun same => ?_⟩
      exact Nat.lt_irrefl _ (same ▸ later)
    · rename_i early
      refine ⟨fun same => Option.some.inj same ▸ .self, fun below => ?_⟩
      have place := Nat.le_antisymm (below.notLater proper) (Nat.le_of_not_lt early)
      rw [o.same left place]

theorem dominatesIff {a b : Nat} : (ofGraph size g).dominates a b = true ↔
    Reached g.successors [0] [] b ∧ Passes g.successors 0 a b := by
  simp only [dominates, Bool.and_eq_true, isReachableIff proper, beq_iff_eq]
  constructor
  · rintro ⟨⟨left, reached⟩, climbed⟩
    exact ⟨reached, (belowIff proper reached).mp ((climbs proper left reached (Nat.lt_succ_self _)).mp climbed)⟩
  · rintro ⟨reached, passes⟩
    have left := reachedOfPasses reached passes
    exact ⟨⟨left, reached⟩,
      (climbs proper left reached (Nat.lt_succ_self _)).mpr ((belowIff proper reached).mpr passes)⟩

theorem parentNotBelow {a c : Nat} (parent : (ofGraph size g).idom c = some a) :
    ¬ (ofGraph size g).Below c a := fun below =>
  absurd (Below.notLater proper below) (Nat.not_le_of_lt (idomEarlier proper parent))

theorem Below.sibling {a c d b : Nat} (left : (ofGraph size g).idom c = some a)
    (right : (ofGraph size g).idom d = some a) (one : (ofGraph size g).Below c b)
    (two : (ofGraph size g).Below d b) : c = d := by
  -- one of them is above the other, and then above what is above that one
  rcases one.linear two with beyond | beyond
  · rcases beyond.above right with same | beyond
    · exact same
    · exact absurd beyond (parentNotBelow proper left)
  · rcases beyond.above left with same | beyond
    · exact same.symm
    · exact absurd beyond (parentNotBelow proper right)

theorem childrenEq (a : Nat) : (ofGraph size g).children a =
    (ofGraph size g).order.tail.filter fun b => (ofGraph size g).idom b == some a := by
  obtain ⟨t, goes, length, settled⟩ := computes proper
  generalize made : ofGraph size g = tree
  rw [ofGraph, goes, Option.getD_some] at made
  have rows : (List.replicate size ([] : List Nat)).length = size := List.length_replicate
  rw [children, ← made]
  by_cases inside : a < size
  · rw [hangAll _ _ _ (rows.symm ▸ inside), List.getD_eq_getElem?_getD, List.getElem?_replicate, if_pos inside]
    rfl
  · have free : tree.order.tail.filter (fun b => tree.idom b == some a) = [] := by
      rw [List.filter_eq_nil_iff]
      intro b _ parent
      have parent : (ofGraph size g).idom b = some a := by
        rw [ofGraph, goes, Option.getD_some, made]
        exact beq_iff_eq.mp parent
      have ⟨reached, passes, _⟩ := idomSound proper parent
      exact inside (reachedInside proper (reachedOfPasses reached passes))
    rw [← made] at free
    rw [free, List.getD_eq_getElem?_getD, List.getElem?_eq_none]
    · rfl
    · rw [lengthHangAll, rows]
      exact Nat.le_of_not_lt inside

theorem memChildren {a b : Nat} : b ∈ (ofGraph size g).children a ↔ (ofGraph size g).idom b = some a := by
  rw [childrenEq proper, List.mem_filter, beq_iff_eq]
  refine and_iff_right_of_imp fun parent => ?_
  have listed := (memOrder proper).mpr (idomSound proper parent).1
  obtain ⟨t, -, order, -, hangs⟩ := computed proper
  obtain ⟨rest, opens⟩ := List.head?_eq_some_iff.mp (orderedOrder proper).rootFirst
  rw [opens] at listed ⊢
  exact (List.mem_cons.mp listed).resolve_left ((hangs b a).mp parent).1

theorem childrenOnce (a : Nat) : ((ofGraph size g).children a).Nodup := by
  rw [childrenEq proper]
  exact ((orderedOrder proper).once.sublist (List.tail_sublist _)).filter _

end
end DomTree
end SsaCodegen
