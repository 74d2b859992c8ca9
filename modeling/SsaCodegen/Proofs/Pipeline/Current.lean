import SsaCodegen.Proofs.Flow.Faithful
import SsaCodegen.Proofs.Legalize.Growth
import SsaCodegen.Proofs.Pipeline.Lasting
/-! Analyses that report themselves current, in any session. The layout version tells every
change of edges but one: legalization that gives up has added blocks and says nothing. After
that a cached graph may pass for current that has fewer blocks than the function; whatever
has as many is what would be computed now. -/
namespace SsaCodegen

def Func.tree (f : Func) : DomTree := DomTree.ofFunc f (FlowGraph.ofFunc f)

def Func.loops (f : Func) : LoopForest := LoopForest.ofFunc f (FlowGraph.ofFunc f) f.tree

theorem sameFlow {f g : Func} (same : FlowGraph.ofFunc g = FlowGraph.ofFunc f) :
    g.tree = f.tree ∧ g.loops = f.loops := by
  have length : g.blocks.length = f.blocks.length := by
    rw [← FlowGraph.sizeOfFunc g, same, FlowGraph.sizeOfFunc]
  have tree : g.tree = f.tree := by
    rw [Func.tree, Func.tree, DomTree.ofFunc, DomTree.ofFunc, same, length]
  exact ⟨tree, by rw [Func.loops, Func.loops, LoopForest.ofFunc, LoopForest.ofFunc, same, length, tree]⟩

namespace Analyses

structure Tells (wrong : Prop) (a : Analyses) (f : Func) : Prop where
  graph : ∀ g, a.graph? = some g → a.graph.source ≤ f.layoutVersion ∧
    (a.graph.source = f.layoutVersion →
      g = FlowGraph.ofFunc f ∨ wrong ∧ g.size < f.blocks.length)
  tree : ∀ t, a.tree? = some t → a.tree.source ≤ a.graph.runs ∧
    (a.tree.source = a.graph.runs → a.HasGraph f → t = f.tree)
  loops : ∀ l, a.loops? = some l → a.loops.source ≤ a.tree.runs ∧
    (a.loops.source = a.tree.runs → a.HasGraph f → a.HasTree f → l = f.loops)

namespace Tells
variable {wrong worse : Prop} {a : Analyses} {f g : Func}

theorem ofEmpty (graph : a.graph? = none) (tree : a.tree? = none)
    (loops : a.loops? = none) : Tells wrong a f where
  graph _ present := nomatch graph.symm.trans present
  tree _ present := nomatch tree.symm.trans present
  loops _ present := nomatch loops.symm.trans present

theorem mono (ok : Tells wrong a f) (le : wrong → worse) : Tells worse a f where
  graph g cached := (ok.graph g cached).imp_right fun same now => (same now).imp_right (.imp_left le)
  tree := ok.tree
  loops := ok.loops

theorem later (ok : Tells wrong a f) (kept : FlowKept f g) : Tells wrong a g := by
  -- a graph from the version of the new function is from that of the old one
  have back (now : a.graph.source = g.layoutVersion) (present : a.graph?.isSome = true) :
      a.graph.source = f.layoutVersion ∧ FlowGraph.ofFunc g = FlowGraph.ofFunc f := by
    obtain ⟨g', cached⟩ := Option.isSome_iff_exists.mp present
    have low := (ok.graph g' cached).1
    have high := kept.version
    exact ⟨by omega, kept.graph (by omega)⟩
  have had (has : a.HasGraph g) : a.HasGraph f ∧ FlowGraph.ofFunc g = FlowGraph.ofFunc f := by
    obtain ⟨source, same⟩ := back has.2 (by simp [has.1])
    exact ⟨⟨same ▸ has.1, source⟩, same⟩
  refine ⟨fun g' cached => ⟨Nat.le_trans (ok.graph g' cached).1 kept.version, fun now => ?_⟩,
    fun t cached => ?_, fun l cached => ?_⟩
  · obtain ⟨source, same⟩ := back now (by simp [cached])
    rw [← FlowGraph.sizeOfFunc g, same, FlowGraph.sizeOfFunc]
    exact (ok.graph g' cached).2 source
  · obtain ⟨low, right⟩ := ok.tree t cached
    refine ⟨low, fun source has => ?_⟩
    obtain ⟨has, same⟩ := had has
    exact (right source has).trans (sameFlow same).1.symm
  · obtain ⟨low, right⟩ := ok.loops l cached
    refine ⟨low, fun source has tree => ?_⟩
    obtain ⟨has, same⟩ := had has
    have tree : a.HasTree f := ⟨tree.1.trans (congrArg some (sameFlow same).1), tree.2⟩
    exact (right source has tree).trans (sameFlow same).2.symm

theorem outgrown (ok : Tells wrong a f) (version : g.layoutVersion = f.layoutVersion)
    (more : f.blocks.length < g.blocks.length) (now : worse) : Tells worse a g := by
  have fewer (g' : FlowGraph) (cached : a.graph? = some g')
      (source : a.graph.source = g.layoutVersion) : g'.size < g.blocks.length := by
    rcases (ok.graph g' cached).2 (source.trans version) with rfl | ⟨-, less⟩
    · rwa [FlowGraph.sizeOfFunc]
    · exact Nat.lt_trans less more
  have absent (has : a.HasGraph g) : False := by
    have less := fewer _ has.1 has.2
    rw [FlowGraph.sizeOfFunc] at less
    exact Nat.lt_irrefl _ less
  exact ⟨fun g' cached => ⟨version ▸ (ok.graph g' cached).1,
      fun source => .inr ⟨now, fewer g' cached source⟩⟩,
    fun t cached => ⟨(ok.tree t cached).1, fun _ has => (absent has).elim⟩,
    fun l cached => ⟨(ok.loops l cached).1, fun _ has => (absent has).elim⟩⟩

theorem dropTree (ok : Tells wrong a f) : Tells wrong a.dropTree f :=
  ⟨ok.graph, (fun _ absent => nomatch absent), (fun _ absent => nomatch absent)⟩

theorem computeGraph (ok : Tells wrong a f) (g : Func) : Tells wrong (a.computeGraph g).2 g := by
  have old {t : DomTree} (cached : a.tree? = some t) : a.tree.source ≠ a.graph.runs + 1 := by
    have low := (ok.tree t cached).1
    omega
  refine ⟨fun g' cached => ?_, fun t cached => ?_, fun l cached => ?_⟩
  · cases (graphStored a g).symm.trans cached
    exact ⟨Nat.le_refl _, fun _ => .inl rfl⟩
  · exact ⟨Nat.le_succ_of_le (ok.tree t cached).1, fun now => absurd now (old cached)⟩
  · exact ⟨(ok.loops l cached).1, fun _ _ tree => absurd tree.2 (old tree.1)⟩

theorem needGraph (ok : Tells wrong a f) : Tells wrong (a.needGraph f).2 f ∧
    (a.needGraph f).2.graph? = some (a.needGraph f).1 := by
  unfold Analyses.needGraph
  split
  · rename_i g cached
    exact ⟨ok, (currentGraphIff.mp cached).1⟩
  · exact ⟨ok.computeGraph f, rfl⟩

theorem computeTree (ok : Tells wrong a f) : Tells wrong (a.computeTree f).2 f ∧
    (a.computeTree f).2.tree? = some (a.computeTree f).1 ∧
    (a.computeTree f).2.tree.source = (a.computeTree f).2.graph.runs := by
  obtain ⟨current, given⟩ := ok.needGraph
  refine ⟨⟨current.graph, fun t cached => ?_, fun l cached => ?_⟩, rfl, rfl⟩
  · cases cached
    refine ⟨Nat.le_refl _, fun _ has => ?_⟩
    exact treeMade (Option.some.inj (given.symm.trans has.1))
  · have low := (current.loops l cached).1
    refine ⟨Nat.le_succ_of_le low, fun now => absurd now (Nat.ne_of_lt (Nat.lt_succ_of_le low))⟩

theorem needTree (ok : Tells wrong a f) : Tells wrong (a.needTree f).2 f ∧
    (a.needTree f).2.tree? = some (a.needTree f).1 ∧
    (a.needTree f).2.tree.source = (a.needTree f).2.graph.runs := by
  obtain ⟨current, -⟩ := ok.needGraph
  unfold Analyses.needTree
  dsimp only
  split
  · rename_i t cached
    exact ⟨current, currentTreeCached cached⟩
  · exact current.computeTree

theorem treeOfNeedGraph (a : Analyses) (f : Func) : (a.needGraph f).2.tree? = a.tree? := by
  unfold Analyses.needGraph
  split <;> rfl

theorem computeLoops (ok : Tells wrong a f) : Tells wrong (a.computeLoops f).2 f := by
  obtain ⟨middle, tree, -⟩ := ok.needTree
  obtain ⟨current, graph⟩ := middle.needGraph
  refine ⟨current.graph, current.tree, fun l cached => ?_⟩
  cases cached
  refine ⟨Nat.le_refl _, fun _ has hasTree => ?_⟩
  have sameGraph := Option.some.inj (graph.symm.trans has.1)
  have sameTree : (a.needTree f).1 = f.tree := by
    have stored : ((a.needTree f).2.needGraph f).2.tree? = some f.tree := hasTree.1
    rw [treeOfNeedGraph, tree] at stored
    exact Option.some.inj stored
  exact loopsMade sameTree sameGraph

theorem needLoops (ok : Tells wrong a f) : Tells wrong (a.needLoops f).2 f := by
  obtain ⟨current, -⟩ := ok.needTree
  unfold Analyses.needLoops
  dsimp only
  split
  · exact current
  · exact current.computeLoops

theorem refreshFlow (ok : Tells wrong a f) (g : Func) : Tells wrong (a.refreshFlow g) g :=
  (ok.computeGraph g).computeTree.1

theorem refreshAll (ok : Tells wrong a f) (g : Func) : Tells wrong (a.refreshAll g) g :=
  (ok.refreshFlow g).computeLoops

theorem graphGiven (ok : Tells wrong a f)
    (right : ∀ g, a.currentGraph? f = some g → g.size = f.blocks.length) :
    (a.needGraph f).1 = FlowGraph.ofFunc f ∧ (a.needGraph f).2.HasGraph f := by
  unfold Analyses.needGraph
  split
  · rename_i g current
    obtain ⟨cached, source⟩ := currentGraphIff.mp current
    rcases (ok.graph g cached).2 source with rfl | ⟨-, less⟩
    · exact ⟨rfl, cached, source⟩
    · exact absurd (right g current) (Nat.ne_of_lt less)
  · exact ⟨graphMade a f, computeGraphHas a f⟩

theorem treeGiven (ok : Tells wrong a f) (has : (a.needGraph f).2.HasGraph f) :
    (a.needTree f).1 = f.tree ∧ (a.needTree f).2.HasGraph f := by
  unfold Analyses.needTree
  dsimp only
  split
  · rename_i t current
    obtain ⟨cached, source⟩ := currentTreeCached current
    exact ⟨(ok.needGraph.1.tree t cached).2 source has, has⟩
  · have given : ((a.needGraph f).2.needGraph f).1 = FlowGraph.ofFunc f := congrArg Prod.fst (needGraphHas has)
    refine ⟨treeMade given, ?_⟩
    simp only [Analyses.computeTree, needGraphHas has]
    exact has

theorem loopsGiven (ok : Tells wrong a f) (has : (a.needGraph f).2.HasGraph f) :
    (a.needLoops f).1 = f.loops := by
  obtain ⟨tree, graph⟩ := ok.treeGiven has
  obtain ⟨current, stored, source⟩ := ok.needTree
  have hasTree : (a.needTree f).2.HasTree f := ⟨stored.trans (congrArg some tree), source⟩
  unfold Analyses.needLoops
  dsimp only
  split
  · rename_i l found
    obtain ⟨cached, source⟩ := currentLoopsCached found
    exact (current.loops l cached).2 source graph hasTree
  · have still : ((a.needTree f).2.needGraph f).2.HasGraph f := by rwa [needGraphHas graph]
    obtain ⟨tree, graph⟩ := current.treeGiven still
    exact loopsMade tree (congrArg Prod.fst (needGraphHas graph))

end Tells
end Analyses

open X64 (Target)
namespace Session

def GaveUp {α : Type} (result : Except Failure α) : Prop :=
  ∃ inst label, result = .error (.unencodable inst label)

namespace GaveUp
variable {α β : Type}

theorem breaks {ended : Session × Except Failure α} (gaveUp : GaveUp ended.2) :
    Breaks (fun _ e => ∃ inst label, e = .unencodable inst label) ended := by
  obtain ⟨inst, label, failed⟩ := gaveUp
  exact ⟨_, failed, inst, label, rfl⟩

theorem ofBreaks {ended : Session × Except Failure α} {h : α → β}
    (breaks : Breaks (fun _ e => ∃ inst label, e = .unencodable inst label) ended) : GaveUp (ended.2.map h) := by
  obtain ⟨_, failed, inst, label, rfl⟩ := breaks
  exact ⟨inst, label, by rw [failed]; rfl⟩

end GaveUp

structure Honest (wrong : Prop) (s : Session) : Prop where
  closed : s.func.Closed
  tells : s.analyses.Tells wrong s.func

namespace Honest
variable {wrong worse : Prop} {s u : Session}

theorem mono (ok : Honest wrong s) (le : wrong → worse) : Honest worse s := ⟨ok.closed, ok.tells.mono le⟩

theorem same (ok : Honest wrong s) (func : s.func = u.func) (analyses : s.analyses = u.analyses) :
    Honest wrong u := ⟨func ▸ ok.closed, func ▸ analyses ▸ ok.tells⟩

theorem become (ok : Honest wrong s) {f : Func} (faithful : Faithful s.func f) :
    Honest wrong (s.become f) := by
  obtain ⟨closed, kept⟩ := faithful ok.closed
  exact ⟨closed, ok.tells.later kept⟩

theorem withTree (ok : Honest wrong s) : Honest wrong s.withTree.2 := ⟨ok.closed, ok.tells.needTree.1⟩

theorem perform (ok : Honest wrong s) (t : Target) (stage : Stage) :
    Honest (wrong ∨ GaveUp (s.perform t stage).2) (s.perform t stage).1 := by
  cases stage with
  | flowGraph => exact mono ⟨ok.closed, ok.tells.computeGraph _⟩ .inl
  | foldConstants => exact (ok.become (foldConstantsFaithful s.func)).mono .inl
  | canonicalizeNans => exact (ok.become (canonicalizeNansFaithful s.func)).mono .inl
  | legalize =>
    obtain ⟨closed, flow⟩ := X64.legalizeFlow ok.closed
    simp only [Session.perform, legalizeFunction]
    cases done : X64.legalize s.func with
    | mk f result =>
      rw [done] at closed flow
      cases result with
      | ok => exact ⟨closed, (ok.tells.dropTree.computeGraph f).mono .inl⟩
      | error e =>
        refine ⟨closed, ?_⟩
        rcases flow with kept | ⟨version, more, gaveUp⟩
        · exact (ok.tells.dropTree.later kept).mono .inl
        · obtain ⟨inst, label, failed⟩ := gaveUp
          cases failed
          exact ok.tells.dropTree.outgrown version more (.inr ⟨inst, label, rfl⟩)
  | fuseBranches => exact (ok.become (fuseCompareBranchesFaithful X64.encode? s.func)).mono .inl
  | dominators | refreshDominators => exact mono ⟨ok.closed, ok.tells.computeTree.1⟩ .inl
  | loops => exact mono ⟨ok.closed, ok.tells.computeLoops⟩ .inl
  | hoistInvariants =>
    have closed := hoistInvariantsClosed X64.encode? ((s.analyses.needLoops s.func).2.needGraph s.func).1
      (s.analyses.needLoops s.func).1 ok.closed
    have current := ok.tells.needLoops.needGraph.1
    have hoisted : Honest wrong s.hoist := by
      refine ⟨closed, ?_⟩
      simp only [hoist, hoistWith]
      split
      · exact (current.refreshAll _).refreshAll _
      · exact current.refreshAll _
    exact hoisted.mono .inl
  | numberValues =>
    exact (ok.withTree.become (numberValuesFaithful s.withTree.1 s.withTree.2.func)).mono .inl
  | removeUnreachable =>
    have gone := ok.withTree.become (removeUnreachableFaithful s.withTree.1 s.withTree.2.func)
    simp only [Session.perform, removeUnreachableBlocks]
    split
    · exact mono ⟨gone.closed, gone.tells.computeGraph _⟩ .inl
    · exact gone.mono .inl
  | eliminateDeadCode =>
    exact (ok.withTree.become (eliminateDeadCodeFaithful s.withTree.1 s.withTree.2.func)).mono .inl
  | allocateRegisters =>
    obtain ⟨closed, kept⟩ := allocateFaithful X64.registerFile
      (s.withTree.2.analyses.needGraph s.withTree.2.func).1 s.withTree.1 s.withTree.2.func ok.closed
    obtain ⟨made, -, analyses, -⟩ := allocateRuns s
    have honest : Honest wrong (s.perform t .allocateRegisters).1 := by
      refine ⟨?_, ?_⟩
      · change s.allocate.1.func.Closed
        rwa [made]
      · change s.allocate.1.analyses.Tells wrong s.allocate.1.func
        rw [made, analyses]
        exact ok.withTree.tells.needGraph.1.later kept
    exact honest.mono .inl
  | layOutFrame => exact (ok.become (X64.layOutFrameFaithful t.limits s.func)).mono .inl
  | shrinkInstructions => exact (ok.become (X64.shrinkReforms s.func).faithful).mono .inl
  | relaxBranches =>
    have laid := ok.become (X64.relaxBranchesReforms t.limits s.func).faithful
    have whole : Honest wrong (s.layOut t).1 := by
      simp only [layOut]
      split
      · exact laid.same rfl rfl
      · exact laid
    exact whole.mono .inl

theorem lasting : Lasting Honest fun _ e => ∃ inst label, e = .unencodable inst label where
  mono := mono
  same := same
  perform ok t stage := (ok.perform t stage).mono (.imp_right GaveUp.breaks)

end Honest

def Brings : Operation → Prop
  | .setFunction f => f.Closed
  | _ => True

theorem Honest.apply {wrong : Prop} {s : Session} (ok : Honest wrong s) (op : Operation)
    (brings : Brings op) : Honest (wrong ∨ GaveUp (op.apply s).2) (op.apply s).1 := by
  cases op with
  | setFunction f => exact mono ⟨brings, .ofEmpty rfl rfl rfl⟩ .inl
  | clear => exact mono ⟨List.forall_mem_nil _, .ofEmpty rfl rfl rfl⟩ .inl
  | compile t => exact (lasting.compile ok t).mono (.imp_right .ofBreaks)
  | compileAndEmit t => exact (lasting.compileAndEmit ok t).mono (.imp_right .ofBreaks)
  | pass t p => exact (lasting.runStage ok t p.1).mono (.imp_right .ofBreaks)
  | relax t => exact (lasting.relax ok t).mono (.imp_right .ofBreaks)
  | emitInto buffer => exact (lasting.emitInto ok buffer).mono .inl
  | computeGraph => exact mono ⟨ok.closed, ok.tells.computeGraph _⟩ .inl
  | computeTree => exact mono ⟨ok.closed, ok.tells.computeTree.1⟩ .inl
  | computeLoops => exact mono ⟨ok.closed, ok.tells.computeLoops⟩ .inl
  | computeFlow => exact mono ⟨ok.closed, ok.tells.refreshFlow _⟩ .inl
  | graph => exact mono ⟨ok.closed, ok.tells.needGraph.1⟩ .inl
  | tree => exact mono ⟨ok.closed, ok.tells.needTree.1⟩ .inl
  | loops => exact mono ⟨ok.closed, ok.tells.needLoops⟩ .inl

def GivesUp (s : Session) : List Operation → Prop
  | [] => False
  | op :: rest => GaveUp (op.apply s).2 ∨ GivesUp (op.apply s).1 rest

theorem Honest.after {wrong : Prop} {s : Session} (ok : Honest wrong s) {ops : List Operation}
    (brings : ∀ op ∈ ops, Brings op) : Honest (wrong ∨ GivesUp s ops) (s.after ops) := by
  induction ops generalizing s wrong with
  | nil => exact ok.mono .inl
  | cons op rest ih =>
    obtain ⟨first, later⟩ := List.forall_mem_cons.mp brings
    exact (ih (ok.apply op first) later).mono or_assoc.mp

/-- A cached graph that reports itself current is that of the function as it is now, and so are
a tree and loops that do, unless an instruction had no encoding and the graph has too few
blocks. When it does not, what is asked for is what would be computed now. -/
theorem currentAnalysesFresh (start : Func) (ops : List Operation) (closed : start.Closed)
    (brings : ∀ op ∈ ops, Brings op) :
    let s := (ofFunc start).after ops
    let a := s.analyses
    let fewer := ∃ g, a.currentGraph? s.func = some g ∧ g.size < s.func.blocks.length
    (fewer → GivesUp (ofFunc start) ops) ∧
    (¬ fewer →
      (∀ g, a.currentGraph? s.func = some g → g = FlowGraph.ofFunc s.func ∧
        (∀ t, a.currentTree? = some t → t = s.func.tree ∧
          ∀ l, a.currentLoops? = some l → l = s.func.loops)) ∧
      (a.needGraph s.func).1 = FlowGraph.ofFunc s.func ∧
      (a.needTree s.func).1 = s.func.tree ∧ (a.needLoops s.func).1 = s.func.loops) := by
  have fresh : Honest False (ofFunc start) := ⟨closed, .ofEmpty rfl rfl rfl⟩
  have honest := (fresh.after brings).mono fun wrong => wrong.resolve_left id
  generalize Session.after (ofFunc start) ops = s at honest
  have tells := honest.tells
  dsimp only
  refine ⟨fun ⟨g, current, less⟩ => ?_, fun absent => ?_⟩
  · obtain ⟨cached, source⟩ := Analyses.currentGraphIff.mp current
    rcases (tells.graph g cached).2 source with rfl | ⟨wrong, -⟩
    · rw [FlowGraph.sizeOfFunc] at less
      exact absurd less (Nat.lt_irrefl _)
    · exact wrong
  · have right (g : FlowGraph) (current : s.analyses.currentGraph? s.func = some g) :
        g = FlowGraph.ofFunc s.func := by
      obtain ⟨cached, source⟩ := Analyses.currentGraphIff.mp current
      exact ((tells.graph g cached).2 source).resolve_right fun few => absent ⟨g, current, few.2⟩
    obtain ⟨graph, has⟩ := tells.graphGiven fun g current => by rw [right g current, FlowGraph.sizeOfFunc]
    refine ⟨fun g current => ⟨right g current, fun t tree => ?_⟩, graph, (tells.treeGiven has).1,
      tells.loopsGiven has⟩
    obtain ⟨cached, source⟩ := Analyses.currentGraphIff.mp current
    have hasGraph : s.analyses.HasGraph s.func := ⟨right g current ▸ cached, source⟩
    obtain ⟨cached, source⟩ := Analyses.currentTreeCached tree
    have same := (tells.tree t cached).2 source hasGraph
    refine ⟨same, fun l loops => ?_⟩
    obtain ⟨cached', source'⟩ := Analyses.currentLoopsCached loops
    exact (tells.loops l cached').2 source' hasGraph ⟨cached.trans (congrArg some same), source⟩

def leaveBySecond : Func :=
  { blocks :=
      [{ label := "entry"
         insts := [{ op := .brif, operands := [.int 0], targets := ["first", "second"],
                     targetArgs := [[], []] }] },
       { label := "first", insts := [{ op := .ret }] },
       { label := "second", insts := [{ op := .ret }] }] }

def resolvedAfterLoops : List Operation :=
  [.setFunction leaveBySecond, .computeLoops, .pass {} ⟨.foldConstants, rfl⟩, .graph]

theorem resolvedBranchLeavesGraph : Func.Closed {} ∧ (∀ op ∈ resolvedAfterLoops, Brings op) ∧
    (((ofFunc {}).after resolvedAfterLoops).analyses.needGraph
      ((ofFunc {}).after resolvedAfterLoops).func).1 = ⟨[[2], [], []], [[], [], [0]]⟩ := by
  have closed : Func.Closed {} := List.forall_mem_nil _
  have brings : ∀ op ∈ resolvedAfterLoops, Brings op := by
    have given : leaveBySecond.Closed := by
      unfold Func.Closed Closed
      decide
    simp [resolvedAfterLoops, Brings, given]
  obtain ⟨gaveUp, fresh⟩ := currentAnalysesFresh {} resolvedAfterLoops closed brings
  have size : (((ofFunc {}).after resolvedAfterLoops).analyses.currentGraph?
      ((ofFunc {}).after resolvedAfterLoops).func).map FlowGraph.size =
        some ((ofFunc {}).after resolvedAfterLoops).func.blocks.length := by
    decide +kernel
  obtain ⟨-, graph, -⟩ := fresh fun ⟨g, current, less⟩ => by
    rw [current] at size
    exact absurd less (Nat.not_lt_of_le (Nat.le_of_eq (Option.some.inj size).symm))
  refine ⟨closed, brings, graph.trans ?_⟩
  decide +kernel

/-- A call of more arguments than there are registers for, behind a branch that passes a value. -/
def spreadOrReturn : Func :=
  { signature := { params := [.b1, .i64], returns := [.i64] }
    blocks :=
      [{ label := "entry", params := [⟨0, .b1⟩, ⟨1, .i64⟩]
         insts := [{ op := .brif, operands := [.temp 0], targets := ["many", "done"],
                     targetArgs := [[], [.temp 1]] }] },
       { label := "many"
         insts :=
           [{ result := some 2, op := .call, ty := .i64, operands := List.replicate 7 (.temp 1),
              callee := "take" },
            { op := .jump, targets := ["done"], targetArgs := [[.temp 2]] }] },
       { label := "done", params := [⟨3, .i64⟩], insts := [{ op := .ret, operands := [.temp 3] }] }]
    valueTypes := [.b1, .i64, .i64, .i64] }

def constantBehindJump : Func :=
  { blocks :=
      [{ label := "entry"
         insts := [{ op := .jump, targets := ["done"], targetArgs := [[]] },
                   { result := some 0, op := .iconst, ty := .i64, operands := [.int 1] }] },
       { label := "done", insts := [{ op := .ret }] }]
    valueTypes := [.i64] }

/-- The call has no encoding, and by then the edge to `done` goes through a block of its own. -/
theorem oldGraphPassesForCurrent :
    let s := (ofFunc {}).after
      [.setFunction spreadOrReturn, .computeGraph, .pass {} ⟨.legalize, rfl⟩]
    let u := (ofFunc {}).after
      [.setFunction constantBehindJump, .computeGraph, .pass {} ⟨.eliminateDeadCode, rfl⟩]
    s.analyses.currentGraph? s.func = some ⟨[[1, 2], [2], []], [[], [0], [0, 1]]⟩ ∧
      FlowGraph.ofFunc s.func = ⟨[[2, 1], [3], [3], []], [[], [0], [0], [1, 2]]⟩ ∧
      u.analyses.currentGraph? u.func = some ⟨[[], []], [[], []]⟩ ∧
      FlowGraph.ofFunc u.func = ⟨[[1], []], [[], [0]]⟩ := by
  decide +kernel

end Session
end SsaCodegen
