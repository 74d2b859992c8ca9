import Mathlib.Data.List.Sort
import SsaCodegen.Pipeline.Session
import SsaCodegen.Proofs.Execution.Stutter
import SsaCodegen.Proofs.Flow.Cache
import SsaCodegen.Proofs.Flow.Loops
import SsaCodegen.Proofs.Flow.Paths
import SsaCodegen.Proofs.Opt.Unreachable
import SsaCodegen.Proofs.Verify.Structure
/-! Functions without their unreachable blocks. The blocks that are left move up, and an index
stands for the block that moved there: labels, edges and runs are the same but for that. -/
namespace SsaCodegen
open Semantics

theorem eraseDupsMap {α β : Type} [BEq α] [LawfulBEq α] [BEq β] [LawfulBEq β] (h : α → β) :
    (xs : List α) → (∀ a ∈ xs, ∀ b ∈ xs, h a = h b → a = b) → (xs.map h).eraseDups = xs.eraseDups.map h
  | [], _ => rfl
  | x :: rest, apart => by
    have same : (rest.map h).filter (fun b => !b == h x) = (rest.filter fun b => !b == x).map h := by
      rw [List.filter_map]
      refine congrArg _ (List.filter_congr fun b inside => congrArg (!·) ?_)
      refine Bool.eq_iff_iff.mpr ?_
      rw [beq_iff_eq, beq_iff_eq]
      exact ⟨apart b (List.mem_cons_of_mem _ inside) x List.mem_cons_self, congrArg h⟩
    rw [List.map_cons, List.eraseDups_cons, List.eraseDups_cons, List.map_cons, same,
      eraseDupsMap h _ fun a left b right => apart a (List.mem_cons_of_mem _ (List.mem_filter.mp left).1) b
        (List.mem_cons_of_mem _ (List.mem_filter.mp right).1)]
termination_by xs => xs.length
decreasing_by exact Nat.lt_succ_of_le (List.length_filter_le ..)

structure Renumbers (f g : Func) (kept : List Nat) : Prop where
  ascending : kept.Pairwise (· < ·)
  blocks : g.blocks.map some = kept.map (f.blocks[·]?)
  closed : ∀ b ∈ kept, ∀ c ∈ (FlowGraph.ofFunc f).successors b, c ∈ kept

namespace Renumbers
variable {f g : Func} {kept : List Nat} (r : Renumbers f g kept)
include r

theorem length : g.blocks.length = kept.length := by
  have lengths := congrArg List.length r.blocks
  rwa [List.length_map, List.length_map] at lengths

theorem keptAt {k b : Nat} (there : kept[k]? = some b) :
    ∃ bb, f.blocks[b]? = some bb ∧ g.blocks[k]? = some bb := by
  have same := congrArg (·[k]?) r.blocks
  simp only [List.getElem?_map, there, Option.map_some] at same
  obtain ⟨bb, now, was⟩ := Option.map_eq_some_iff.mp same
  exact ⟨bb, was.symm, now⟩

theorem oneIndex {k m b : Nat} (left : kept[k]? = some b) (right : kept[m]? = some b) : k = m :=
  (List.getElem?_inj (List.getElem?_eq_some_iff.mp left).1 (r.ascending.imp Nat.ne_of_lt)).mp
    (left.trans right.symm)

theorem findKept {label : String} {k b : Nat} (there : kept[k]? = some b)
    (found : f.findBlock? label = some b) : g.findBlock? label = some k := by
  obtain ⟨bb, was, now⟩ := r.keptAt there
  obtain ⟨inside, same, first⟩ := List.findIdx?_eq_some_iff_getElem.mp found
  obtain ⟨inside', here⟩ := List.getElem?_eq_some_iff.mp now
  obtain ⟨bound, own⟩ := List.getElem?_eq_some_iff.mp there
  refine List.findIdx?_eq_some_iff_getElem.mpr ⟨inside', ?_, fun m before => ?_⟩
  · rw [here, ← (List.getElem?_eq_some_iff.mp was).2]
    exact same
  · have below : m < kept.length := Nat.lt_trans before bound
    obtain ⟨other, was', now'⟩ := r.keptAt (List.getElem?_eq_getElem below)
    have ascends : kept[m] < b := own ▸ List.pairwise_iff_getElem.mp r.ascending m k below bound before
    rw [(List.getElem?_eq_some_iff.mp now').2, ← (List.getElem?_eq_some_iff.mp was').2]
    exact first kept[m] ascends

theorem findGone {label : String} (absent : f.findBlock? label = none) : g.findBlock? label = none := by
  refine List.findIdx?_eq_none_iff.mpr fun bb inside => ?_
  have listed : some bb ∈ g.blocks.map some := List.mem_map_of_mem inside
  rw [r.blocks] at listed
  obtain ⟨b, -, was⟩ := List.mem_map.mp listed
  exact List.findIdx?_eq_none_iff.mp absent bb (List.mem_of_getElem? was)

theorem findTarget {b : Nat} {bb : Block} (listed : b ∈ kept) (was : f.blocks[b]? = some bb) {label : String}
    (target : label ∈ bb.targets) :
    (g.findBlock? label).map (kept[·]?) = (f.findBlock? label).map some := by
  cases found : f.findBlock? label with
  | none => rw [r.findGone found]; rfl
  | some c =>
    have edge : c ∈ (FlowGraph.ofFunc f).successors b := by
      refine FlowGraph.memSuccessors.mpr ⟨bb, was, ?_⟩
      rw [FlowGraph.targetsOfEdges, List.mem_eraseDups]
      exact List.mem_filterMap.mpr ⟨label, target, found⟩
    obtain ⟨k, there⟩ := List.getElem?_of_mem (r.closed b listed c edge)
    rw [r.findKept there found, Option.map_some, Option.map_some, there]

theorem successors {k b : Nat} (there : kept[k]? = some b) :
    ((FlowGraph.ofFunc g).successors k).map (kept[·]?) = ((FlowGraph.ofFunc f).successors b).map some := by
  obtain ⟨bb, was, now⟩ := r.keptAt there
  have rows (h : Func) {i : Nat} (located : h.blocks[i]? = some bb) :
      (FlowGraph.ofFunc h).successors i = (bb.targets.filterMap h.findBlock?).eraseDups := by
    rw [← FlowGraph.targetsOfEdges]
    simp [FlowGraph.successors, FlowGraph.ofFunc, located]
  have found : (bb.targets.filterMap g.findBlock?).map (kept[·]?) =
      (bb.targets.filterMap f.findBlock?).map some := by
    rw [List.map_filterMap, List.map_filterMap]
    exact List.filterMap_congr fun label target => r.findTarget (List.mem_of_getElem? there) was target
  have inside (i : Nat) (listed : i ∈ bb.targets.filterMap g.findBlock?) : ∃ c, kept[i]? = some c := by
    have image : kept[i]? ∈ (bb.targets.filterMap f.findBlock?).map some := found ▸ List.mem_map_of_mem listed
    obtain ⟨c, -, same⟩ := List.mem_map.mp image
    exact ⟨c, same.symm⟩
  rw [rows g now, rows f was, ← eraseDupsMap, ← eraseDupsMap, found]
  · exact fun a _ b _ same => Option.some.inj same
  · intro i left j _ same
    obtain ⟨c, located⟩ := inside i left
    exact r.oneIndex located (same ▸ located)

theorem edgeIff {k m b c : Nat} (source : kept[k]? = some b) (target : kept[m]? = some c) :
    m ∈ (FlowGraph.ofFunc g).successors k ↔ c ∈ (FlowGraph.ofFunc f).successors b := by
  have same := r.successors source
  constructor
  · intro edge
    have image : kept[m]? ∈ ((FlowGraph.ofFunc f).successors b).map some := same ▸ List.mem_map_of_mem edge
    obtain ⟨d, edge, equal⟩ := List.mem_map.mp image
    cases equal.trans target
    exact edge
  · intro edge
    have image : some c ∈ ((FlowGraph.ofFunc g).successors k).map (kept[·]?) := same ▸ List.mem_map_of_mem edge
    obtain ⟨i, edge, equal⟩ := List.mem_map.mp image
    exact r.oneIndex equal target ▸ edge

theorem predecessors {k b : Nat} (there : kept[k]? = some b) :
    ((FlowGraph.ofFunc g).predecessors k).map (kept[·]?) =
      (((FlowGraph.ofFunc f).predecessors b).filter (kept.contains ·)).map some := by
  obtain ⟨bb, was, now⟩ := r.keptAt there
  have low := (List.getElem?_eq_some_iff.mp was).1
  have small := (List.getElem?_eq_some_iff.mp now).1
  have inside (m : Nat) (edge : m ∈ (FlowGraph.ofFunc g).predecessors k) : ∃ c, kept[m]? = some c := by
    have below := (LoopForest.memPredecessors edge).1
    rw [r.length] at below
    exact ⟨_, List.getElem?_eq_getElem below⟩
  -- both lists ascend
  have same : ((FlowGraph.ofFunc g).predecessors k).filterMap (kept[·]?) =
      ((FlowGraph.ofFunc f).predecessors b).filter (kept.contains ·) := by
    refine List.Pairwise.eq_of_mem_iff (r := (· < ·)) ?_ ((LoopForest.predecessorsAscend f b).filter _) fun c => ?_
    · refine List.pairwise_filterMap.mpr ((LoopForest.predecessorsAscend g k).imp
        fun {i j} before c first d second => ?_)
      obtain ⟨left, rfl⟩ := List.getElem?_eq_some_iff.mp first
      obtain ⟨right, rfl⟩ := List.getElem?_eq_some_iff.mp second
      exact List.pairwise_iff_getElem.mp r.ascending i j left right before
    · rw [List.mem_filterMap, List.mem_filter, List.contains_iff_mem]
      constructor
      · rintro ⟨m, edge, located⟩
        rw [FlowGraph.predecessorIff small, r.edgeIff located there] at edge
        exact ⟨(FlowGraph.predecessorIff low).mpr edge, List.mem_of_getElem? located⟩
      · rintro ⟨edge, listed⟩
        obtain ⟨m, located⟩ := List.getElem?_of_mem listed
        rw [FlowGraph.predecessorIff low, ← r.edgeIff located there] at edge
        exact ⟨m, (FlowGraph.predecessorIff small).mpr edge, located⟩
  rw [← same, List.map_filterMap, ← List.filterMap_eq_map]
  refine List.filterMap_congr fun m edge => ?_
  obtain ⟨c, located⟩ := inside m edge
  rw [Function.comp_apply, located, Option.map_some]

theorem blockSame {k b : Nat} (there : kept[k]? = some b) : g.block k = f.block b := by
  obtain ⟨bb, was, now⟩ := r.keptAt there
  rw [Func.blockAt was, Func.blockAt now]

theorem entry (entryKept : 0 ∈ kept) : kept[0]? = some 0 := by
  cases same : kept with
  | nil => simp [same] at entryKept
  | cons b rest =>
    rw [same] at entryKept
    rcases List.mem_cons.mp entryKept with rfl | later
    · rfl
    · have ascending := r.ascending
      rw [same, List.pairwise_cons] at ascending
      exact absurd (ascending.1 0 later) (Nat.not_lt_zero b)

section Run
variable {World : Type} {o : Surroundings World} (ok : WellFormed f) (signature : g.signature = f.signature)
  (types : g.valueTypes = f.valueTypes)

def SameBlock (kept : List Nat) (b : Nat) (args : List Word) (s : State World) (k : Nat) (words : List Word)
    (t : State World) : Prop := kept[k]? = some b ∧ words = args ∧ t = s

include ok

theorem edgeInStep {b : Nat} {bb : Block} (listed : b ∈ kept) (was : f.blocks[b]? = some bb) {i : Inst}
    (inside : i ∈ bb.insts) (edge : Nat) (s : State World) :
    ExitsMeet (SameBlock kept) (takeEdge f i edge s) (takeEdge g i edge s) := by
  unfold takeEdge
  cases named : i.targets[edge]? with
  | none => exact .ends ⟨rfl, rfl⟩
  | some label =>
    have home := List.mem_of_getElem? was
    have target := ok.instTargets home inside (List.mem_of_getElem? named)
    have found := r.findTarget listed was target
    rw [Option.bind_some, Option.bind_some]
    cases before : f.findBlock? label with
    | none =>
      rw [r.findGone before]
      exact .ends ⟨rfl, rfl⟩
    | some c =>
      rw [before, Option.map_some] at found
      obtain ⟨m, after, there⟩ := Option.map_eq_some_iff.mp found
      rw [after]
      dsimp only
      rw [r.blockSame there]
      cases readArgs (f.block c).params (i.argsOf edge) s.regs with
      | none => exact .ends ⟨rfl, rfl⟩
      | some words => exact .jumps ⟨there, rfl, rfl⟩

include signature types

theorem instsInStep {b : Nat} {bb : Block} (listed : b ∈ kept) (was : f.blocks[b]? = some bb)
    {insts : List Inst} (inside : ∀ i ∈ insts, i ∈ bb.insts) (s : State World) :
    ExitsMeet (SameBlock kept) (runInsts o f insts s) (runInsts o g insts s) := by
  induction insts generalizing s with
  | nil => exact .ends ⟨rfl, rfl⟩
  | cons i rest ih =>
    have alike : Alike f g i i := .ofTypes types i
    have reads : readOperands g i s.regs = readOperands f i s.regs := by
      unfold readOperands
      rw [alike.operandTy signature]
    rw [runInsts, runInsts]
    cases ends : i.isTerminator with
    | true =>
      rcases lastStep (o := o) alike ends ⟨rfl, rfl⟩ reads with
        ⟨words, edge, -, -, takes, takes'⟩ | ⟨ending, u, v, ends, ends', beside⟩
      · rw [takes, takes']
        exact r.edgeInStep ok listed was (inside i List.mem_cons_self) edge s
      · rw [ends, ends']
        exact .ends beside
    | false =>
      have same : step o g i s = step o f i s := by
        unfold step
        rw [reads, alike.act, ends]
        rfl
      rw [same]
      cases goes : step o f i s with
      | next u => exact ih (fun j later => inside j (List.mem_cons_of_mem _ later)) u
      | exits exit =>
        cases exit with
        | ends ending u => exact .ends ⟨rfl, rfl⟩
        | jumps t words u => exact absurd ((stepJumps goes).1.symm.trans ends) (by decide)

theorem runs (entryKept : 0 ∈ kept) (args : List Word) (world : World) (n : Nat) :
    run o g args world n = run o f args world n := by
  refine runBlocksInStep (SameBlock kept) ?_ ?_ n ⟨r.entry entryKept, rfl, rfl⟩
  · rintro b args s k words t ⟨-, -, rfl⟩
    exact ⟨rfl, rfl⟩
  · rintro b args s k words t ⟨there, rfl, rfl⟩
    obtain ⟨bb, was, now⟩ := r.keptAt there
    unfold runBlock
    dsimp only
    rw [r.blockSame there, Func.blockAt was]
    split
    · exact r.instsInStep ok signature types (List.mem_of_getElem? there) was (fun i inside => inside) _
    · exact .ends ⟨rfl, rfl⟩

end Run
end Renumbers

namespace Unreachable

def keptIndices (t : DomTree) (f : Func) : List Nat := (List.range f.blocks.length).filter (keeps t)

theorem keptAtIndices (t : DomTree) (f : Func) :
    (keptBlocks t f.blocks).map some = (keptIndices t f).map (f.blocks[·]?) := by
  have indices : List.range f.blocks.length = f.blocks.zipIdx.map Prod.snd := by
    rw [List.zipIdx_map_snd, List.range_eq_range']
  rw [keptBlocks, keptIndices, indices, List.filter_map, List.map_map, List.map_filterMap,
    ← List.filterMap_eq_filter, ← List.filterMap_eq_map, List.filterMap_filterMap]
  refine List.filterMap_congr fun e listed => ?_
  obtain ⟨bb, b⟩ := e
  have located : f.blocks[b]? = some bb := List.mem_zipIdx_iff_getElem?.mp listed
  by_cases kept : keeps t b = true <;> simp [Option.guard, kept, located]

theorem memKept {f : Func} {b : Nat} :
    b ∈ keptIndices (DomTree.ofFunc f (FlowGraph.ofFunc f)) f ↔
      b < f.blocks.length ∧ ∃ nodes, (FlowGraph.ofFunc f).Path nodes b := by
  rw [keptIndices, List.mem_filter, List.mem_range]
  refine and_congr_right fun below => ?_
  have proper := FlowGraph.proper f (Nat.zero_lt_of_lt below)
  rw [keeps, Bool.or_eq_true, beq_iff_eq, DomTree.ofFunc, DomTree.isReachableIff proper,
    FlowGraph.reachableIff]
  refine or_iff_right_of_imp fun zero => ⟨[0], ?_⟩
  subst zero
  exact .entry

theorem keptRenumbers {f g : Func}
    (blocks : g.blocks = keptBlocks (DomTree.ofFunc f (FlowGraph.ofFunc f)) f.blocks) :
    Renumbers f g (keptIndices (DomTree.ofFunc f (FlowGraph.ofFunc f)) f) where
  ascending := List.pairwise_lt_range.filter _
  blocks := blocks ▸ keptAtIndices _ f
  closed b listed c edge := by
    obtain ⟨-, nodes, path⟩ := memKept.mp listed
    exact memKept.mpr ⟨FlowGraph.boundedSuccessors f b c edge, nodes ++ [c], .step path edge⟩

end Unreachable

structure FlowGraph.Restricts (whole part : FlowGraph) (kept : List Nat) : Prop where
  size : part.size = kept.length
  successors : ∀ k b, kept[k]? = some b →
    (part.successors k).map (kept[·]?) = ((whole.successors b).filter (kept.contains ·)).map some
  predecessors : ∀ k b, kept[k]? = some b →
    (part.predecessors k).map (kept[·]?) = ((whole.predecessors b).filter (kept.contains ·)).map some

theorem Renumbers.restricts {f g : Func} {kept : List Nat} (r : Renumbers f g kept) :
    (FlowGraph.ofFunc f).Restricts (FlowGraph.ofFunc g) kept where
  size := by rw [FlowGraph.sizeOfFunc, r.length]
  successors k b there := by
    have all : ((FlowGraph.ofFunc f).successors b).filter (kept.contains ·) = (FlowGraph.ofFunc f).successors b :=
      List.filter_eq_self.mpr fun c edge =>
        List.contains_iff_mem.mpr (r.closed b (List.mem_of_getElem? there) c edge)
    rw [all]
    exact r.successors there
  predecessors k b there := r.predecessors there

theorem removeUnreachableMakes (t : DomTree) (f : Func) :
    (removeUnreachable t f).1.blocks = Unreachable.keptBlocks t f.blocks ∧
    (removeUnreachable t f).1 = { f with
      blocks := (removeUnreachable t f).1.blocks
      layoutVersion := (removeUnreachable t f).1.layoutVersion } ∧
    ((removeUnreachable t f).2 = true ↔ (removeUnreachable t f).1.blocks.length < f.blocks.length) ∧
    ((removeUnreachable t f).1.layoutVersion ≠ f.layoutVersion ↔ (removeUnreachable t f).2 = true) ∧
    ((removeUnreachable t f).2 = false → (removeUnreachable t f).1 = f) := by
  have part := Unreachable.keptSublist t f.blocks
  unfold removeUnreachable
  dsimp only
  split
  · rename_i all
    exact ⟨(part.eq_of_length all).symm, rfl, by simp, by simp, fun _ => rfl⟩
  · rename_i fewer
    have less : (Unreachable.keptBlocks t f.blocks).length < f.blocks.length :=
      Nat.lt_of_le_of_ne part.length_le fewer
    refine ⟨rfl, rfl, iff_of_true rfl less, iff_of_true (Nat.succ_ne_self _) rfl, fun absent => by cases absent⟩

/-- Removing unreachable blocks leaves those that a path leads to, as they were and in order. What
labels mean, the graph and all runs are the same but for the indices, and the caller is told. -/
theorem removeUnreachableKeepsReached (s : Session) (graph : s.analyses.HasGraph s.func)
    (tree : s.analyses.HasTree s.func) :
    let f := s.func
    let (g, removed) := removeUnreachable (DomTree.ofFunc f (FlowGraph.ofFunc f)) f
    (∃ kept : List Nat, kept.Pairwise (· < ·) ∧
      (∀ b, b ∈ kept ↔ b < f.blocks.length ∧ ∃ nodes, (FlowGraph.ofFunc f).Path nodes b) ∧
      g.blocks.map some = kept.map (f.blocks[·]?) ∧
      (∀ bb ∈ g.blocks, ∀ label ∈ bb.targets,
        (g.findBlock? label).map (kept[·]?) = (f.findBlock? label).map some) ∧
      (FlowGraph.ofFunc f).Restricts (FlowGraph.ofFunc g) kept) ∧
    g = { f with blocks := g.blocks, layoutVersion := g.layoutVersion } ∧
    (removed = true ↔ g.blocks.length < f.blocks.length) ∧
    (g.layoutVersion ≠ f.layoutVersion ↔ g.blocks.length < f.blocks.length) ∧
    s.removeUnreachableBlocks.func = g ∧ s.removeUnreachableBlocks.analyses.HasGraph g ∧
    (verifyFunction f = [] → verifyFunction g = [] ∧
      ∀ (World : Type) (o : Surroundings World) (args : List Word) (world : World) (n : Nat),
        run o g args world n = run o f args world n) := by
  obtain ⟨blocks, rest, tells, version, absent⟩ :=
    removeUnreachableMakes (DomTree.ofFunc s.func (FlowGraph.ofFunc s.func)) s.func
  have after : s.removeUnreachableBlocks.func =
      (removeUnreachable (DomTree.ofFunc s.func (FlowGraph.ofFunc s.func)) s.func).1 ∧
      s.removeUnreachableBlocks.analyses.HasGraph
        (removeUnreachable (DomTree.ofFunc s.func (FlowGraph.ofFunc s.func)) s.func).1 := by
    rw [Session.removeUnreachableBlocks, Session.withTree, Analyses.needTreeHas graph tree]
    dsimp only
    split
    · exact ⟨rfl, Analyses.computeGraphHas ..⟩
    · rename_i kept
      rw [absent (Bool.eq_false_iff.mpr kept)]
      exact ⟨rfl, graph⟩
  have trimmed (ok : WellFormed s.func) := (removeUnreachableTrims ok).wellFormed ok
  dsimp only
  generalize removeUnreachable (DomTree.ofFunc s.func (FlowGraph.ofFunc s.func)) s.func = made
    at blocks rest tells version after trimmed ⊢
  obtain ⟨g, removed⟩ := made
  have r := Unreachable.keptRenumbers blocks
  refine ⟨⟨_, r.ascending, fun b => Unreachable.memKept, r.blocks, fun bb inside label target => ?_,
    r.restricts⟩, rest, tells, version.trans tells, after.1, after.2, fun verified => ?_⟩
  · obtain ⟨k, now⟩ := List.getElem?_of_mem inside
    have below := (List.getElem?_eq_some_iff.mp now).1
    rw [r.length] at below
    obtain ⟨other, was, now'⟩ := r.keptAt (List.getElem?_eq_getElem below)
    cases now.symm.trans now'
    exact r.findTarget (List.getElem_mem below) was target
  · have ok := verifiedIff.mp verified
    have entryKept : 0 ∈ Unreachable.keptIndices (DomTree.ofFunc s.func (FlowGraph.ofFunc s.func)) s.func := by
      obtain ⟨entry, later, opens⟩ := ok.entry
      exact Unreachable.memKept.mpr ⟨by simp [opens.blocks], [0], .entry⟩
    refine ⟨verifiedIff.mpr (trimmed ok), fun World o args world n => ?_⟩
    exact r.runs ok (by rw [rest]) (by rw [rest]) entryKept args world n

def pingPong : Func :=
  { signature := { params := [.i64], returns := [.i64] }
    blocks := [
      { label := "entry", params := [⟨0, .i64⟩]
        insts := [{ op := .jump, targets := ["last"], targetArgs := [[.temp 0]] }] },
      { label := "ping", insts := [{ op := .jump, targets := ["pong"], targetArgs := [[]] }] },
      { label := "pong"
        insts := [{ op := .brif, operands := [.bool true], targets := ["ping", "last"],
                    targetArgs := [[], [.temp 0]] }] },
      { label := "last", params := [⟨1, .i64⟩], insts := [{ op := .ret, operands := [.temp 1] }] }]
    valueTypes := [.i64, .i64] }

def pingPongSession : Session :=
  { func := pingPong, analyses := Analyses.refreshFlow {} pingPong }

theorem pingPongRemoved :
    let (g, removed) := removeUnreachable (DomTree.ofFunc pingPong (FlowGraph.ofFunc pingPong)) pingPong
    pingPongSession.analyses.HasGraph pingPong ∧ pingPongSession.analyses.HasTree pingPong ∧
    verifyFunction pingPong = [] ∧ verifyFunction g = [] ∧
    pingPongSession.removeUnreachableBlocks.func = g ∧ g.labels = ["entry", "last"] ∧
    removed = true ∧ FlowGraph.ofFunc g = ⟨[[1], []], [[], [0]]⟩ ∧
    run nowhere g [7] () 2 = run nowhere pingPong [7] () 2 ∧
    (run nowhere pingPong [7] () 2).ending = some (.returned [7]) := by
  have graph : pingPongSession.analyses.HasGraph pingPongSession.func := ⟨rfl, rfl⟩
  have tree : pingPongSession.analyses.HasTree pingPongSession.func := ⟨rfl, rfl⟩
  have verified : verifyFunction pingPong = [] := by decide +kernel
  obtain ⟨-, -, -, -, after, -, kept⟩ := removeUnreachableKeepsReached pingPongSession graph tree
  obtain ⟨verified', runs⟩ := kept verified
  exact ⟨graph, tree, verified, verified', after, by decide +kernel, by decide +kernel, by decide +kernel,
    runs Unit nowhere [7] () 2, by decide +kernel⟩

end SsaCodegen
