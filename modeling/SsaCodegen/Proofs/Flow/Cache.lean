import SsaCodegen.Flow.Cache
import SsaCodegen.Proofs.Flow.Labels
import SsaCodegen.Proofs.Flow.Storage
import SsaCodegen.Proofs.Ir.Rewrite
/-! Cached analyses that pass for current are right. A graph is told apart by the layout
version, which a transformation leaves alone only if it leaves the edges alone; a tree and
a loop forest are told apart by the runs that made what they were made from. -/
namespace SsaCodegen

def Block.edges (bb : Block) : String × List String := (bb.label, bb.targets)

namespace FlowGraph

theorem targetsOfEdges (f : Func) (bb : Block) :
    targetsOf f bb = (bb.targets.filterMap f.findBlock?).eraseDups := by
  unfold targetsOf Block.targets
  cases bb.terminator? with
  | none => simp
  | some t => rfl

theorem ofSame {f g : Func} (same : g.blocks.map Block.edges = f.blocks.map Block.edges) :
    ofFunc g = ofFunc f := by
  have find : g.findBlock? = f.findBlock? := by
    funext label
    have byEdges (h : Func) : h.findBlock? label =
        (h.blocks.map Block.edges).findIdx? (·.1 == label) := by
      rw [Func.findBlock?, List.findIdx?_map]
      rfl
    rw [byEdges, byEdges, same]
  have rows (h : Func) : h.blocks.map (targetsOf h) =
      (h.blocks.map Block.edges).map fun e => (e.2.filterMap h.findBlock?).eraseDups := by
    rw [List.map_map]
    exact List.map_congr_left fun bb _ => targetsOfEdges h bb
  have length := congrArg List.length same
  rw [List.length_map, List.length_map] at length
  have succs : g.blocks.map (targetsOf g) = f.blocks.map (targetsOf f) := by
    rw [rows, rows, same, find]
  simp only [ofFunc, succs, length]

end FlowGraph

def Inst.exit (i : Inst) : Bool × List String := (i.isTerminator, i.targets)

theorem targetsOfExits {a b : Block} (same : b.insts.map Inst.exit = a.insts.map Inst.exit) :
    b.targets = a.targets := by
  have last : b.insts.getLast?.map Inst.exit = a.insts.getLast?.map Inst.exit := by
    rw [← List.getLast?_map, ← List.getLast?_map, same]
  unfold Block.targets Block.terminator?
  cases left : a.insts.getLast? with
  | none =>
    rw [left, Option.map_none, Option.map_eq_none_iff] at last
    rw [last]
  | some i =>
    rw [left, Option.map_some] at last
    obtain ⟨j, right, exit⟩ := Option.map_eq_some_iff.mp last
    obtain ⟨ends, targets⟩ := Prod.mk.inj exit
    rw [right, Option.filter_some, Option.filter_some, ends]
    split <;> simp_all

theorem reachesSame {f g : Func} (same : g.blocks.map Block.edges = f.blocks.map Block.edges)
    {label : String} (reaches : Reaches f label) : Reaches g label := by
  refine reaches.transfer (fun a rest start => ?_) fun a inside _ => ?_
  · rw [start, List.map_cons] at same
    obtain ⟨b, others, blocks, edges, -⟩ := List.map_eq_cons_iff.mp same
    exact ⟨b, others, blocks, (Prod.mk.inj edges).1⟩
  · have listed : a.edges ∈ g.blocks.map Block.edges := same ▸ List.mem_map_of_mem inside
    obtain ⟨b, there, edges⟩ := List.mem_map.mp listed
    obtain ⟨label, targets⟩ := Prod.mk.inj edges
    exact ⟨b, there, label, trivial, fun l target => targets ▸ target⟩

def Reachable (f : Func) : Prop := ∀ bb ∈ f.blocks, Reaches f bb.label

theorem Reachable.same {f g : Func} (ok : Reachable f)
    (same : g.blocks.map Block.edges = f.blocks.map Block.edges) : Reachable g := fun b inside => by
  have listed : b.edges ∈ f.blocks.map Block.edges := same ▸ List.mem_map_of_mem inside
  obtain ⟨a, there, edges⟩ := List.mem_map.mp listed
  exact (Prod.mk.inj edges).1 ▸ reachesSame same (ok a there)

structure FlowKept (f g : Func) : Prop where
  version : f.layoutVersion ≤ g.layoutVersion
  graph : g.layoutVersion = f.layoutVersion → FlowGraph.ofFunc g = FlowGraph.ofFunc f

namespace FlowKept
variable {f g : Func}

theorem refl (f : Func) : FlowKept f f := ⟨Nat.le_refl _, fun _ => rfl⟩

theorem noted (f g : Func) (version : g.layoutVersion = f.layoutVersion) :
    FlowKept f g.noteLayoutChange where
  version := by
    have bumped : g.noteLayoutChange.layoutVersion = g.layoutVersion + 1 := rfl
    omega
  graph same := by
    have bumped : g.noteLayoutChange.layoutVersion = g.layoutVersion + 1 := rfl
    omega

theorem ofEdges (version : g.layoutVersion = f.layoutVersion)
    (same : g.blocks.map Block.edges = f.blocks.map Block.edges) : FlowKept f g :=
  ⟨Nat.le_of_eq version.symm, fun _ => FlowGraph.ofSame same⟩

theorem ofPairs (r : Rewrites f g) (version : g.layoutVersion = f.layoutVersion)
    (targets : ∀ a b, Paired f g a b → b.targets = a.targets) : FlowKept f g := by
  refine ofEdges version (List.ext_getElem? fun k => ?_)
  have head := r.headAt k
  rw [List.getElem?_map, List.getElem?_map]
  cases left : f.blocks[k]? with
  | none =>
    rw [left] at head
    rw [Option.map_eq_none_iff.mp head]
  | some a =>
    rw [left, Option.map_some] at head
    obtain ⟨b, right, same⟩ := Option.map_eq_some_iff.mp head
    rw [right, Option.map_some, Option.map_some, Block.edges, Block.edges, targets a b ⟨k, left, right⟩,
      (Prod.mk.inj same).1]

end FlowKept

namespace Cached
variable {σ α : Type} {view : σ → α} {c : Cached σ}

theorem readValid {value : α} (cached : c.read view = some value) : c.isValid = true :=
  (Option.ite_none_right_eq_some.mp cached).1

end Cached

namespace Analyses

theorem graphMade (a : Analyses) (f : Func) : (a.computeGraph f).1 = FlowGraph.ofFunc f :=
  EdgeRows.graphRebuilt a.graph.kept f

theorem treeMade {a : Analyses} {f : Func} (given : (a.needGraph f).1 = FlowGraph.ofFunc f) :
    (a.computeTree f).1 = DomTree.ofFunc f (FlowGraph.ofFunc f) := by
  unfold computeTree
  dsimp only
  rw [given]
  exact TreeStore.treeOfFunc _ f

theorem loopsMade {a : Analyses} {f : Func}
    (tree : (a.needTree f).1 = DomTree.ofFunc f (FlowGraph.ofFunc f))
    (graph : ((a.needTree f).2.needGraph f).1 = FlowGraph.ofFunc f) :
    (a.computeLoops f).1 =
      LoopForest.ofFunc f (FlowGraph.ofFunc f) (DomTree.ofFunc f (FlowGraph.ofFunc f)) := by
  unfold computeLoops
  dsimp only
  rw [tree, graph]
  exact LoopStore.forestOfFunc _ f

theorem graphStored (a : Analyses) (f : Func) : (a.computeGraph f).2.graph? = some (FlowGraph.ofFunc f) :=
  congrArg some (graphMade a f)

/-- What is cached is what would be computed, or can be told apart from that. -/
structure Current (a : Analyses) (f : Func) : Prop where
  graph : ∀ g, a.graph? = some g → a.graph.source ≤ f.layoutVersion ∧
    (a.graph.source = f.layoutVersion → g = FlowGraph.ofFunc f)
  tree : ∀ t, a.tree? = some t → a.tree.source ≤ a.graph.runs ∧
    (a.tree.source = a.graph.runs → ∀ g, a.graph? = some g → t = DomTree.ofGraph g.size g)
  loops : ∀ l, a.loops? = some l → a.loops.source ≤ a.tree.runs ∧
    (a.loops.source = a.tree.runs → ∀ t, a.tree? = some t → a.tree.source = a.graph.runs →
      ∀ g, a.graph? = some g → l = LoopForest.ofGraph g.size g t)

def HasGraph (a : Analyses) (f : Func) : Prop :=
  a.graph? = some (FlowGraph.ofFunc f) ∧ a.graph.source = f.layoutVersion

def HasTree (a : Analyses) (f : Func) : Prop :=
  a.tree? = some (DomTree.ofFunc f (FlowGraph.ofFunc f)) ∧ a.tree.source = a.graph.runs

variable {a : Analyses} {f g : Func}

theorem computeGraphHas (a : Analyses) (f : Func) : (a.computeGraph f).2.HasGraph f := ⟨graphStored a f, rfl⟩

theorem currentGraphIff {graph : FlowGraph} : a.currentGraph? f = some graph ↔
    a.graph? = some graph ∧ a.graph.source = f.layoutVersion := by
  unfold currentGraph?
  simp only [Cached.isFrom, Bool.and_eq_true, beq_iff_eq, Option.ite_none_right_eq_some]
  constructor
  · rintro ⟨⟨-, source⟩, cached⟩
    exact ⟨cached, source⟩
  · rintro ⟨cached, source⟩
    exact ⟨⟨Cached.readValid cached, source⟩, cached⟩

theorem currentTreeCached {t : DomTree} (current : a.currentTree? = some t) :
    a.tree? = some t ∧ a.tree.source = a.graph.runs := by
  simp only [currentTree?, isTreeCurrent, Cached.isFrom, Bool.and_eq_true, beq_iff_eq,
    Option.ite_none_right_eq_some] at current
  exact ⟨current.2, current.1.2.2⟩

theorem currentLoopsCached {l : LoopForest} (current : a.currentLoops? = some l) :
    a.loops? = some l ∧ a.loops.source = a.tree.runs := by
  simp only [currentLoops?, areLoopsCurrent, Cached.isFrom, Bool.and_eq_true, beq_iff_eq,
    Option.ite_none_right_eq_some] at current
  exact ⟨current.2, current.1.2.2⟩

theorem currentLoopsStored (a : Analyses) (f : Func) (valid : (a.computeLoops f).2.tree.isValid = true) :
    (a.computeLoops f).2.currentLoops? = some (a.computeLoops f).1 := by
  have current : (a.computeLoops f).2.areLoopsCurrent = true := by
    rw [areLoopsCurrent, valid, Bool.true_and]
    exact Cached.isFromStore ..
  exact if_pos current

theorem needGraphHas (has : a.HasGraph f) : a.needGraph f = (FlowGraph.ofFunc f, a) := by
  simp only [needGraph, currentGraphIff.mpr has]

theorem needTreeHas (graph : a.HasGraph f) (tree : a.HasTree f) :
    a.needTree f = (DomTree.ofFunc f (FlowGraph.ofFunc f), a) := by
  have current : a.currentTree? = some (DomTree.ofFunc f (FlowGraph.ofFunc f)) := by
    simp only [currentTree?, isTreeCurrent, Cached.isFrom, Cached.readValid graph.1, Cached.readValid tree.1, tree.2,
      beq_self_eq_true, Bool.and_self, if_true, tree.1]
  rw [needTree, needGraphHas graph]
  dsimp only
  rw [current]

namespace Current

theorem ofEmpty (graph : a.graph? = none) (tree : a.tree? = none)
    (loops : a.loops? = none) : Current a f where
  graph _ present := nomatch graph.symm.trans present
  tree _ present := nomatch tree.symm.trans present
  loops _ present := nomatch loops.symm.trans present

theorem later (ok : Current a f) (kept : FlowKept f g) : Current a g where
  graph g' cached := by
    obtain ⟨low, same⟩ := ok.graph g' cached
    have high := kept.version
    refine ⟨Nat.le_trans low high, fun now => ?_⟩
    rw [kept.graph (by omega)]
    exact same (by omega)
  tree := ok.tree
  loops := ok.loops

theorem dropTree (ok : Current a f) : Current a.dropTree f :=
  ⟨ok.graph, (fun _ absent => nomatch absent), (fun _ absent => nomatch absent)⟩

theorem computeGraph (ok : Current a f) (g : Func) :
    Current (a.computeGraph g).2 g ∧ HasGraph (a.computeGraph g).2 g := by
  refine ⟨⟨fun g' cached => ?_, fun t cached => ?_, fun l cached => ?_⟩, computeGraphHas a g⟩
  · cases (graphStored a g).symm.trans cached
    exact ⟨Nat.le_refl _, fun _ => rfl⟩
  · obtain ⟨low, -⟩ := ok.tree t cached
    exact ⟨Nat.le_succ_of_le low, fun same => absurd same (Nat.ne_of_lt (Nat.lt_succ_of_le low))⟩
  · obtain ⟨low, -⟩ := ok.loops l cached
    refine ⟨low, fun _ t tree same => ?_⟩
    exact absurd same (Nat.ne_of_lt (Nat.lt_succ_of_le (ok.tree t tree).1))

theorem needGraph (ok : Current a f) : (a.needGraph f).1 = FlowGraph.ofFunc f ∧
    Current (a.needGraph f).2 f ∧ HasGraph (a.needGraph f).2 f ∧ (a.needGraph f).2.tree = a.tree := by
  unfold Analyses.needGraph
  split
  · rename_i g current
    obtain ⟨cached, source⟩ := currentGraphIff.mp current
    cases (ok.graph g cached).2 source
    exact ⟨rfl, ok, ⟨cached, source⟩, rfl⟩
  · obtain ⟨current, has⟩ := ok.computeGraph f
    exact ⟨graphMade a f, current, has, rfl⟩

theorem storeTree (ok : Current a f) (has : HasGraph a f) {kept : TreeStore}
    (made : kept.tree = DomTree.ofFunc f (FlowGraph.ofFunc f)) :
    let b : Analyses := { a with tree := a.tree.store a.graph.runs kept }
    Current b f ∧ HasGraph b f ∧ HasTree b f := by
  refine ⟨⟨ok.graph, fun t cached => ?_, fun l cached => ?_⟩, has, congrArg some made, rfl⟩
  · cases (congrArg some made).symm.trans cached
    refine ⟨Nat.le_refl _, fun _ g graph => ?_⟩
    cases has.1.symm.trans graph
    rw [FlowGraph.sizeOfFunc, DomTree.ofFunc]
  · obtain ⟨low, -⟩ := ok.loops l cached
    exact ⟨Nat.le_succ_of_le low, fun same => absurd same (Nat.ne_of_lt (Nat.lt_succ_of_le low))⟩

theorem computeTree (ok : Current a f) :
    (a.computeTree f).1 = DomTree.ofFunc f (FlowGraph.ofFunc f) ∧ Current (a.computeTree f).2 f ∧
      HasGraph (a.computeTree f).2 f ∧ HasTree (a.computeTree f).2 f := by
  obtain ⟨same, current, has, -⟩ := ok.needGraph
  exact ⟨treeMade same, current.storeTree has (treeMade same)⟩

theorem needTree (ok : Current a f) :
    (a.needTree f).1 = DomTree.ofFunc f (FlowGraph.ofFunc f) ∧ Current (a.needTree f).2 f ∧
      HasGraph (a.needTree f).2 f ∧ HasTree (a.needTree f).2 f := by
  obtain ⟨-, current, has, -⟩ := ok.needGraph
  unfold Analyses.needTree
  dsimp only
  split
  · rename_i t found
    obtain ⟨cached, source⟩ := currentTreeCached found
    have same := (current.tree t cached).2 source _ has.1
    rw [FlowGraph.sizeOfFunc] at same
    subst same
    exact ⟨rfl, current, has, cached, source⟩
  · exact current.computeTree

theorem storeLoops (ok : Current a f) (graph : HasGraph a f) (tree : HasTree a f) {kept : LoopStore}
    (made : kept.forest = LoopForest.ofFunc f (FlowGraph.ofFunc f) (DomTree.ofFunc f (FlowGraph.ofFunc f))) :
    let b := a.storeLoops kept
    Current b f ∧ HasGraph b f ∧ HasTree b f := by
  refine ⟨⟨ok.graph, ok.tree, fun l cached => ?_⟩, graph, tree⟩
  cases (congrArg some made).symm.trans cached
  refine ⟨Nat.le_refl _, fun _ t found _ g cached => ?_⟩
  cases tree.1.symm.trans found
  cases graph.1.symm.trans cached
  rw [FlowGraph.sizeOfFunc, LoopForest.ofFunc]

theorem computeLoops (ok : Current a f) :
    (a.computeLoops f).1 = LoopForest.ofFunc f (FlowGraph.ofFunc f)
        (DomTree.ofFunc f (FlowGraph.ofFunc f)) ∧
      Current (a.computeLoops f).2 f ∧ HasGraph (a.computeLoops f).2 f ∧
      HasTree (a.computeLoops f).2 f := by
  obtain ⟨tree, current, has, hasTree⟩ := ok.needTree
  have made := loopsMade tree (congrArg Prod.fst (needGraphHas has))
  have stored : (a.computeLoops f).2 =
      (a.needTree f).2.storeLoops ((a.needTree f).2.loops.kept.rebuild f.blocks.length
        (FlowGraph.ofFunc f) (DomTree.ofFunc f (FlowGraph.ofFunc f))) := by
    simp only [Analyses.computeLoops, needGraphHas has, tree]
  exact ⟨made, stored ▸ current.storeLoops has hasTree (LoopStore.forestOfFunc _ f)⟩

theorem needLoops (ok : Current a f) :
    (a.needLoops f).1 = LoopForest.ofFunc f (FlowGraph.ofFunc f)
        (DomTree.ofFunc f (FlowGraph.ofFunc f)) ∧
      Current (a.needLoops f).2 f ∧ HasGraph (a.needLoops f).2 f := by
  obtain ⟨-, current, has, hasTree⟩ := ok.needTree
  unfold Analyses.needLoops
  dsimp only
  split
  · rename_i l found
    obtain ⟨cached, source⟩ := currentLoopsCached found
    have same := (current.loops l cached).2 source _ hasTree.1 hasTree.2 _ has.1
    rw [FlowGraph.sizeOfFunc] at same
    subst same
    exact ⟨rfl, current, has⟩
  · obtain ⟨same, current, has, -⟩ := current.computeLoops
    exact ⟨same, current, has⟩

theorem refreshFlow (ok : Current a f) (g : Func) : Current (a.refreshFlow g) g :=
  (ok.computeGraph g).1.computeTree.2.1

theorem refreshAll (ok : Current a f) (g : Func) : Current (a.refreshAll g) g :=
  (ok.refreshFlow g).computeLoops.2.1

theorem refreshed (ok : Current a f) (g : Func) :
    (a.refreshAll g).currentGraph? g = some (FlowGraph.ofFunc g) ∧
    (a.refreshAll g).currentTree? = some (DomTree.ofFunc g (FlowGraph.ofFunc g)) ∧
    (a.refreshAll g).currentLoops? =
      some (LoopForest.ofFunc g (FlowGraph.ofFunc g) (DomTree.ofFunc g (FlowGraph.ofFunc g))) := by
  have flow := ok.refreshFlow g
  obtain ⟨made, -, graph, tree⟩ := flow.computeLoops
  obtain ⟨-, -, -, hasTree⟩ := flow.needTree
  have stored := currentLoopsStored (a.refreshFlow g) g
  refine ⟨currentGraphIff.mpr graph, ?_, stored (Cached.readValid tree.1) |>.trans (congrArg some made)⟩
  simp only [Analyses.refreshAll, currentTree?, isTreeCurrent, Cached.isFrom, Cached.readValid graph.1,
    Cached.readValid tree.1, tree.1, tree.2, beq_self_eq_true, Bool.and_self, if_true]

end Current
end Analyses
end SsaCodegen
