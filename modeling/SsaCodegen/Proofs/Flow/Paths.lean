import SsaCodegen.Proofs.Flow.Dominance
/-! Dominance by paths. The tree is computed from the edges of one block at a time; what it says
is what all paths from the entry have in common. -/
namespace SsaCodegen
open Search

namespace FlowGraph
variable (g : FlowGraph)

inductive Path : List Nat → Nat → Prop where
  | entry : Path [0] 0
  | step {nodes b c} (path : Path nodes b) (edge : c ∈ g.successors b) : Path (nodes ++ [c]) c

def Dominates (a b : Nat) : Prop := ∀ nodes, g.Path nodes b → a ∈ nodes

def StrictlyDominates (a b : Nat) : Prop := g.Dominates a b ∧ a ≠ b

inductive Way : Nat → List Nat → Nat → Prop where
  | here {b} : Way b [b] b
  | step {a b nodes c} (edge : b ∈ g.successors a) (way : Way b nodes c) : Way a (a :: nodes) c

def ImmediatelyDominates (a b : Nat) : Prop :=
  g.StrictlyDominates a b ∧ ∀ d, g.StrictlyDominates d b → d ≠ a → g.Dominates d a

variable {g}

theorem reachedIff {barrier : List Nat} {b : Nat} : Reached g.successors [0] barrier b ↔
    ∃ nodes, g.Path nodes b ∧ ∀ a ∈ nodes, a ∉ barrier := by
  constructor
  · intro reached
    induction reached with
    | root start free =>
      cases List.mem_singleton.mp start
      exact ⟨[0], .entry, List.forall_mem_singleton.mpr free⟩
    | step _ edge free ih =>
      obtain ⟨nodes, path, around⟩ := ih
      refine ⟨nodes ++ [_], .step path edge, fun a listed => ?_⟩
      rcases List.mem_append.mp listed with old | last
      · exact around a old
      · exact List.mem_singleton.mp last ▸ free
  · rintro ⟨nodes, path, around⟩
    induction path with
    | entry => exact .root List.mem_cons_self (around 0 List.mem_cons_self)
    | step path edge ih =>
      exact .step (ih fun a old => around a (List.mem_append_left _ old)) edge
        (around _ (List.mem_append_right _ List.mem_cons_self))

theorem reachableIff {b : Nat} : Reached g.successors [0] [] b ↔ ∃ nodes, g.Path nodes b :=
  reachedIff.trans (exists_congr fun _ => and_iff_left fun _ _ => List.not_mem_nil)

theorem dominatesIff {a b : Nat} : g.Dominates a b ↔ Passes g.successors 0 a b := by
  rw [Passes, reachedIff]
  constructor
  · rintro all ⟨nodes, path, around⟩
    exact around a (all nodes path) List.mem_cons_self
  · intro passes nodes path
    refine Classical.byContradiction fun absent => passes ⟨nodes, path, fun b listed held => ?_⟩
    exact absent (List.mem_singleton.mp held ▸ listed)

end FlowGraph

namespace DomTree
section
variable {size : Nat} {g : FlowGraph} (proper : g.Proper size)
include proper

theorem idomImmediate {b p : Nat} (parent : (ofGraph size g).idom b = some p) :
    g.ImmediatelyDominates p b := by
  have ⟨_, passes, other⟩ := idomSound proper parent
  refine ⟨⟨FlowGraph.dominatesIff.mpr passes, other⟩, fun d strict _ => FlowGraph.dominatesIff.mpr ?_⟩
  exact idomLast proper parent (FlowGraph.dominatesIff.mp strict.1) strict.2

theorem immediateUnique {b p q : Nat} (reached : Reached g.successors [0] [] b)
    (left : g.ImmediatelyDominates p b) (right : g.ImmediatelyDominates q b) : q = p := by
  refine Classical.byContradiction fun apart => ?_
  have up := FlowGraph.dominatesIff.mp (left.2 q right.1 apart)
  have down := FlowGraph.dominatesIff.mp (right.2 p left.1 (Ne.symm apart))
  have reachedP := reachedOfPasses reached (FlowGraph.dominatesIff.mp left.1.1)
  have reachedQ := reachedOfPasses reachedP up
  have place := Nat.le_antisymm (Below.notLater proper ((belowIff proper reachedP).mpr up))
    (Below.notLater proper ((belowIff proper reachedQ).mpr down))
  exact apart ((orderedOrder proper).same reachedQ place)

theorem idomBefore {b p : Nat} (parent : (ofGraph size g).idom b = some p) :
    ∃ before after, (ofGraph size g).order = before ++ b :: after ∧ p ∈ before := by
  have ⟨reached, passes, other⟩ := idomSound proper parent
  obtain ⟨before, after, split⟩ := List.append_of_mem ((memOrder proper).mpr reached)
  have earlier := (orderedOrder proper).dominators before b after split p passes
  exact ⟨before, after, split, earlier.resolve_left other⟩

end
end DomTree

/-- Computing the dominator tree comes to an end, and the tree says what paths say. -/
theorem dominatorTreeByPaths (f : Func) (nonempty : f.blocks ≠ []) :
    let g := FlowGraph.ofFunc f
    let t := DomTree.ofFunc f g
    DomTree.compute? f.blocks.length g = some t ∧
    (∀ b, t.isReachable b = true ↔ ∃ nodes, g.Path nodes b) ∧
    (∀ a b, t.isReachable a = true → t.isReachable b = true →
      (t.dominates a b = true ↔ g.Dominates a b)) ∧
    t.idom 0 = none ∧
    (∀ b, t.isReachable b = true → b ≠ 0 → ∃ p, t.idom b = some p ∧ g.ImmediatelyDominates p b ∧
      ∀ q, g.ImmediatelyDominates q b → q = p) ∧
    (t.order.Nodup ∧ (∀ b, b ∈ t.order ↔ ∃ nodes, g.Path nodes b) ∧ t.order.head? = some 0 ∧
      ∀ b p, t.idom b = some p → ∃ before after, t.order = before ++ b :: after ∧ p ∈ before) ∧
    ∀ a, (t.children a).Nodup ∧ ∀ b, b ∈ t.children a ↔ t.idom b = some a := by
  have proper := FlowGraph.proper f (List.length_pos_iff.mpr nonempty)
  have o := DomTree.orderedOrder proper
  obtain ⟨_, made, -, -, hangs⟩ := DomTree.computed proper
  have entry : (DomTree.ofFunc f (FlowGraph.ofFunc f)).idom 0 = none :=
    Option.eq_none_iff_forall_ne_some.mpr fun p parent => ((hangs 0 p).mp parent).1 rfl
  have reachable (b : Nat) := (DomTree.isReachableIff proper (b := b))
  refine ⟨made, fun b => (reachable b).trans FlowGraph.reachableIff, fun a b _ reached => ?_, entry,
    fun b reached other => ?_, ⟨o.once, fun b => (o.mem b).trans FlowGraph.reachableIff, o.rootFirst,
      fun b p => DomTree.idomBefore proper⟩, fun a =>
        ⟨DomTree.childrenOnce proper a, fun b => DomTree.memChildren proper⟩⟩
  · rw [FlowGraph.dominatesIff]
    exact (DomTree.dominatesIff proper).trans (and_iff_right ((reachable b).mp reached))
  · have reached := (reachable b).mp reached
    obtain ⟨p, parent⟩ := DomTree.idomSome proper reached other
    have immediate := DomTree.idomImmediate proper parent
    exact ⟨p, parent, immediate, fun q => DomTree.immediateUnique proper reached immediate⟩

def crossedLoop : Func :=
  { blocks := [
      { label := "entry", insts := [{ op := .brif, operands := [.int 1], targets := ["left", "right"] }] },
      { label := "left", insts := [{ op := .brif, operands := [.int 1], targets := ["right", "done"] }] },
      { label := "right", insts := [{ op := .brif, operands := [.int 1], targets := ["left", "right"] }] },
      { label := "done", insts := [{ op := .ret }] },
      { label := "apart", insts := [{ op := .jump, targets := ["left"] }] }] }

theorem crossedDominated : crossedLoop.blocks ≠ [] ∧
    DomTree.compute? 5 (FlowGraph.ofFunc crossedLoop) =
      some ⟨[0, 1, 3, 2], [none, some 0, some 0, some 1, none], [[1, 2], [3], [], [], []]⟩ ∧
    (FlowGraph.ofFunc crossedLoop).ImmediatelyDominates 0 2 := by
  have nonempty : crossedLoop.blocks ≠ [] := by decide
  obtain ⟨-, -, -, -, immediate, -⟩ := dominatorTreeByPaths crossedLoop nonempty
  obtain ⟨p, parent, dominates, -⟩ := immediate 2 (by decide +kernel) (by decide)
  have entry : (DomTree.ofFunc crossedLoop (FlowGraph.ofFunc crossedLoop)).idom 2 = some 0 := by
    decide +kernel
  cases entry.symm.trans parent
  exact ⟨nonempty, by decide +kernel, dominates⟩

end SsaCodegen
