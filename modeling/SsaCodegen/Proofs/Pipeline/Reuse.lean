import SsaCodegen.Proofs.Flow.Cache
import SsaCodegen.Proofs.Ir.Version
import SsaCodegen.Proofs.Pipeline.Operations
import SsaCodegen.Proofs.Pipeline.Run
/-! Reuse of a session. What is left of an earlier function are counts of versions and runs, and
storage that may hold anything. Two sessions whose counts are apart by fixed numbers and whose
storage reads the same where it is valid do the same and stay so, so a session that was used
compiles a function as a new one does. -/
namespace SsaCodegen

namespace Cached
variable {σ α : Type} {view : σ → α} {c d : Cached σ} {source runs : Nat}

theorem isValidRead (view : σ → α) (c : Cached σ) : c.isValid = (c.read view).isSome := by
  unfold isValid read
  cases c.valid <;> rfl

structure Behind (view : σ → α) (source runs : Nat) (c d : Cached σ) : Prop where
  read : d.read view = c.read view
  runs : d.runs = c.runs + runs
  source : c.isValid = true → d.source = c.source + source

theorem Behind.isValid (b : Behind view source runs c d) : d.isValid = c.isValid := by
  rw [isValidRead view, b.read, ← isValidRead]

theorem Behind.isFrom (b : Behind view source runs c d) (n : Nat) :
    d.isFrom (n + source) = c.isFrom n := by
  unfold Cached.isFrom
  rw [b.isValid]
  cases valid : c.isValid with
  | false => rfl
  | true =>
    rw [b.source valid, Bool.true_and, Bool.true_and, Bool.eq_iff_iff, beq_iff_eq, beq_iff_eq]
    omega

theorem Behind.store (b : Behind view source runs c d) (n : Nat) {kept kept' : σ}
    (same : view kept' = view kept) : Behind view source runs (c.store n kept) (d.store (n + source) kept') where
  read := congrArg some same
  runs := by simp only [Cached.store, b.runs, Nat.add_right_comm]
  source _ := rfl

theorem Behind.drop (b : Behind view source runs c d) (clear : σ → σ) :
    Behind view source runs (c.drop clear) (d.drop clear) :=
  ⟨rfl, b.runs, fun valid => nomatch valid⟩

end Cached

structure Lag where
  version : Nat
  graphRuns : Nat
  treeRuns : Nat
  loopRuns : Nat

namespace Analyses

structure Behind (lag : Lag) (a b : Analyses) : Prop where
  graph : Cached.Behind EdgeRows.graph lag.version lag.graphRuns a.graph b.graph
  tree : Cached.Behind TreeStore.tree lag.graphRuns lag.treeRuns a.tree b.tree
  loops : Cached.Behind LoopStore.forest lag.treeRuns lag.loopRuns a.loops b.loops

namespace Behind
variable {lag : Lag} {a b : Analyses} (apart : Behind lag a b) (f : Func)
include apart

theorem currentGraph? : b.currentGraph? (f.later lag.version) = a.currentGraph? f := by
  unfold Analyses.currentGraph?
  have same : b.graph? = a.graph? := apart.graph.read
  rw [same]
  exact congrArg (if · then a.graph? else none) (apart.graph.isFrom f.layoutVersion)

theorem currentTree? : b.currentTree? = a.currentTree? := by
  unfold Analyses.currentTree? isTreeCurrent
  have same : b.tree? = a.tree? := apart.tree.read
  rw [same, apart.graph.isValid, apart.graph.runs, apart.tree.isFrom]

theorem currentLoops? : b.currentLoops? = a.currentLoops? := by
  unfold Analyses.currentLoops? areLoopsCurrent
  have same : b.loops? = a.loops? := apart.loops.read
  rw [same, apart.tree.isValid, apart.tree.runs, apart.loops.isFrom]

theorem dropTree : Behind lag a.dropTree b.dropTree := 
  ⟨apart.graph, apart.tree.drop _, apart.loops.drop _⟩

theorem computeGraph : (b.computeGraph (f.later lag.version)).1 = (a.computeGraph f).1 ∧
    Behind lag (a.computeGraph f).2 (b.computeGraph (f.later lag.version)).2 :=
  have same := (graphMade b (f.later lag.version)).trans (graphMade a f).symm
  ⟨same, apart.graph.store _ same, apart.tree, apart.loops⟩

theorem needGraph : (b.needGraph (f.later lag.version)).1 = (a.needGraph f).1 ∧
    Behind lag (a.needGraph f).2 (b.needGraph (f.later lag.version)).2 := by
  unfold Analyses.needGraph
  rw [apart.currentGraph? f]
  split
  · exact ⟨rfl, apart⟩
  · exact apart.computeGraph f

theorem computeTree : (b.computeTree (f.later lag.version)).1 = (a.computeTree f).1 ∧
    Behind lag (a.computeTree f).2 (b.computeTree (f.later lag.version)).2 := by
  obtain ⟨same, apart⟩ := apart.needGraph f
  unfold Analyses.computeTree
  dsimp only
  rw [same, apart.graph.runs]
  have alike := TreeStore.rebuiltAlike (b.needGraph (f.later lag.version)).2.tree.kept
    (a.needGraph f).2.tree.kept f.blocks.length (a.needGraph f).1
  exact ⟨alike, apart.graph, apart.tree.store _ alike, apart.loops⟩

theorem needTree : (b.needTree (f.later lag.version)).1 = (a.needTree f).1 ∧
    Behind lag (a.needTree f).2 (b.needTree (f.later lag.version)).2 := by
  obtain ⟨-, apart⟩ := apart.needGraph f
  unfold Analyses.needTree
  dsimp only
  rw [apart.currentTree?]
  split
  · exact ⟨rfl, apart⟩
  · exact apart.computeTree f

theorem computeLoops : (b.computeLoops (f.later lag.version)).1 = (a.computeLoops f).1 ∧
    Behind lag (a.computeLoops f).2 (b.computeLoops (f.later lag.version)).2 := by
  obtain ⟨tree, apart⟩ := apart.needTree f
  obtain ⟨graph, apart⟩ := apart.needGraph f
  unfold Analyses.computeLoops storeLoops
  dsimp only
  rw [tree, graph, apart.tree.runs]
  have alike := LoopStore.rebuiltAlike ((b.needTree (f.later lag.version)).2.needGraph
    (f.later lag.version)).2.loops.kept
    ((a.needTree f).2.needGraph f).2.loops.kept f.blocks.length ((a.needTree f).2.needGraph f).1 (a.needTree f).1
  exact ⟨alike, apart.graph, apart.tree, apart.loops.store _ alike⟩

theorem needLoops : (b.needLoops (f.later lag.version)).1 = (a.needLoops f).1 ∧
    Behind lag (a.needLoops f).2 (b.needLoops (f.later lag.version)).2 := by
  obtain ⟨-, apart⟩ := apart.needTree f
  unfold Analyses.needLoops
  dsimp only
  rw [apart.currentLoops?]
  split
  · exact ⟨rfl, apart⟩
  · exact apart.computeLoops f

theorem refreshAll : Behind lag (a.refreshAll f) (b.refreshAll (f.later lag.version)) :=
  (((apart.computeGraph f).2.computeTree f).2.computeLoops f).2

end Behind
end Analyses

open X64 (Target)
namespace Session

structure Behind (lag : Lag) (s u : Session) : Prop where
  func : u.func = s.func.later lag.version
  analyses : s.analyses.Behind lag u.analyses
  info : u.info = s.info

namespace Behind
variable {lag : Lag} {s u : Session}

theorem alike {s' u' : Session} (apart : Behind lag s u) (left : Alike s s') (right : Alike u u') :
    Behind lag s' u' := by
  obtain ⟨func, analyses, info⟩ := apart
  exact ⟨by rw [← left.func, ← right.func, func], left.analyses ▸ right.analyses ▸ analyses,
    by rw [← left.info, ← right.info, info]⟩

variable (apart : Behind lag s u)
include apart

theorem violations : u.violations = s.violations := by
  have stale : u.staleViolations = s.staleViolations := by
    unfold staleViolations
    dsimp only
    rw [apart.func, apart.analyses.currentGraph?, apart.analyses.currentTree?]
    rfl
  unfold Session.violations
  rw [stale, apart.func, verifyFunctionLater]
  rfl

theorem check (flags : Flags) (c : StageCheck) : u.check flags c = s.check flags c := by
  have locations : u.locationViolations = s.locationViolations := by
    unfold locationViolations
    rw [apart.func, verifyLocationsLater]
  cases c <;> simp only [Session.check, verifyIf, verifyLocationsIf, apart.violations, locations]

theorem become {α : Type} {pass : Func → Func × α} (unversioned : Unversioned pass) :
    (pass u.func).2 = (pass s.func).2 ∧
      Behind lag (s.become (pass s.func).1) (u.become (pass u.func).1) := by
  have same := unversioned lag.version s.func
  rw [apart.func, same]
  exact ⟨rfl, rfl, apart.analyses, apart.info⟩

theorem withTree : u.withTree.1 = s.withTree.1 ∧ Behind lag s.withTree.2 u.withTree.2 := by
  obtain ⟨same, analyses⟩ := apart.analyses.needTree s.func
  unfold Session.withTree
  rw [apart.func]
  exact ⟨same, rfl, analyses, apart.info⟩

theorem hoist : Behind lag s.hoist u.hoist := by
  obtain ⟨loops, needed⟩ := apart.analyses.needLoops s.func
  obtain ⟨graph, needed⟩ := needed.needGraph s.func
  unfold Session.hoist hoistWith
  dsimp only
  rw [apart.func, loops, graph, hoistInvariantsLater]
  dsimp only
  split
  · exact ⟨rfl, (needed.refreshAll _).refreshAll _, apart.info⟩
  · exact ⟨rfl, needed.refreshAll _, apart.info⟩

theorem removeUnreachableBlocks :
    Behind lag s.removeUnreachableBlocks u.removeUnreachableBlocks := by
  obtain ⟨tree, apart⟩ := apart.withTree
  unfold Session.removeUnreachableBlocks
  dsimp only
  rw [tree, apart.func, removeUnreachableUnversioned]
  dsimp only
  split
  · exact ⟨rfl, (apart.analyses.computeGraph _).2, apart.info⟩
  · exact ⟨rfl, apart.analyses, apart.info⟩

theorem legalizeFunction : u.legalizeFunction.2 = s.legalizeFunction.2 ∧
    Behind lag s.legalizeFunction.1 u.legalizeFunction.1 := by
  have dropped := apart.analyses.dropTree
  unfold Session.legalizeFunction
  dsimp only
  rw [apart.func, X64.legalizeUnversioned]
  dsimp only
  cases (X64.legalize s.func).2 with
  | error e => exact ⟨rfl, rfl, dropped, apart.info⟩
  | ok => exact ⟨rfl, rfl, (dropped.computeGraph _).2, apart.info⟩

theorem allocate : u.allocate.2 = s.allocate.2 ∧ Behind lag s.allocate.1 u.allocate.1 := by
  obtain ⟨tree, withTree⟩ := apart.withTree
  obtain ⟨graph, needed⟩ := withTree.analyses.needGraph s.func
  obtain ⟨made, result, analyses, info⟩ := allocateRuns s
  obtain ⟨made', result', analyses', info'⟩ := allocateRuns u
  rw [apart.func, graph, tree, allocateUnversioned] at made' result'
  rw [apart.func] at analyses'
  exact ⟨result'.trans result.symm, by rw [made', made], analyses.symm ▸ analyses'.symm ▸ needed,
    info'.trans (apart.info.trans info.symm)⟩

theorem layOut (t : Target) : (u.layOut t).2 = (s.layOut t).2 ∧
    Behind lag (s.layOut t).1 (u.layOut t).1 := by
  unfold Session.layOut
  dsimp only
  rw [apart.func, relaxBranchesUnversioned]
  dsimp only
  cases (X64.relaxBranches t.limits s.func).2 with
  | error e => exact ⟨rfl, rfl, apart.analyses, apart.info⟩
  | ok info => exact ⟨rfl, rfl, apart.analyses, rfl⟩

theorem perform (t : Target) (stage : Stage) : (u.perform t stage).2 = (s.perform t stage).2 ∧
    Behind lag (s.perform t stage).1 (u.perform t stage).1 := by
  cases stage with
  | foldConstants => exact ⟨rfl, (apart.become foldConstantsUnversioned).2⟩
  | canonicalizeNans => exact ⟨rfl, (apart.become canonicalizeNansUnversioned).2⟩
  | fuseBranches => exact ⟨rfl, (apart.become fuseCompareBranchesUnversioned).2⟩
  | shrinkInstructions => exact ⟨rfl, (apart.become shrinkInstructionsUnversioned).2⟩
  | layOutFrame => exact apart.become (layOutFrameUnversioned t.limits)
  | flowGraph =>
    unfold Session.perform
    rw [apart.func]
    exact ⟨rfl, rfl, (apart.analyses.computeGraph s.func).2, apart.info⟩
  | dominators | refreshDominators =>
    unfold Session.perform
    rw [apart.func]
    exact ⟨rfl, rfl, (apart.analyses.computeTree s.func).2, apart.info⟩
  | loops =>
    unfold Session.perform
    rw [apart.func]
    exact ⟨rfl, rfl, (apart.analyses.computeLoops s.func).2, apart.info⟩
  | numberValues =>
    obtain ⟨tree, apart⟩ := apart.withTree
    unfold Session.perform
    dsimp only
    rw [tree]
    exact ⟨rfl, (apart.become (numberValuesUnversioned _)).2⟩
  | eliminateDeadCode =>
    obtain ⟨tree, apart⟩ := apart.withTree
    unfold Session.perform
    dsimp only
    rw [tree]
    exact ⟨rfl, (apart.become (eliminateDeadCodeUnversioned _)).2⟩
  | legalize => exact apart.legalizeFunction
  | hoistInvariants => exact ⟨rfl, apart.hoist⟩
  | removeUnreachable => exact ⟨rfl, apart.removeUnreachableBlocks⟩
  | allocateRegisters => exact apart.allocate
  | relaxBranches => exact apart.layOut t

theorem runStage (t : Target) (stage : Stage) : (u.runStage t stage).2 = (s.runStage t stage).2 ∧
    Behind lag (s.runStage t stage).1 (u.runStage t stage).1 := by
  obtain ⟨before, after, result, same, worked, ended, outcome⟩ := runStageWorks s t stage
  obtain ⟨before', after', result', same', worked', ended', outcome'⟩ := runStageWorks u t stage
  have work := (apart.alike same same').perform t stage
  rw [worked, worked'] at work
  obtain ⟨rfl, apart⟩ := work
  have checked := apart.check t.flags stage.check
  rw [outcome, outcome', checked]
  exact ⟨rfl, apart.alike ended ended'⟩

theorem runStages (t : Target) (stages : List Stage) :
    (Session.runStages t stages u).2 = (Session.runStages t stages s).2 ∧
      Behind lag (Session.runStages t stages s).1 (Session.runStages t stages u).1 := by
  induction stages generalizing s u with
  | nil => exact ⟨rfl, apart⟩
  | cons stage rest ih =>
    obtain ⟨same, apart⟩ := apart.runStage t stage
    unfold Session.runStages
    cases left : s.runStage t stage with
    | mk s' result =>
      cases right : u.runStage t stage with
      | mk u' result' =>
        rw [left, right] at same apart
        cases same
        cases result with
        | error e => exact ⟨rfl, apart.alike (.trace ..) (.trace ..)⟩
        | ok => exact ih apart

theorem compile (t : Target) : (u.compile t).2 = (s.compile t).2 ∧
    Behind lag (s.compile t).1 (u.compile t).1 := by
  obtain ⟨begun, same, compiled⟩ := compileWorks s t
  obtain ⟨begun', same', compiled'⟩ := compileWorks u t
  have apart : Behind lag begun begun' :=
    alike (s := { s with info := {}, laidOut := false }) (u := { u with info := {}, laidOut := false })
      ⟨apart.func, apart.analyses, rfl⟩ same same'
  have checked : begun'.verifyIf t.flags = begun.verifyIf t.flags := apart.check t.flags .ir
  obtain ⟨results, apartThen⟩ := apart.runStages t (Stage.activeFor t.flags)
  rw [checked] at compiled'
  cases check : begun.verifyIf t.flags with
  | error e =>
    rw [check] at compiled compiled'
    rw [compiled, compiled']
    exact ⟨rfl, apart⟩
  | ok =>
    rw [check] at compiled compiled'
    generalize Session.runStages t _ begun = ran at *
    generalize Session.runStages t _ begun' = ran' at *
    obtain ⟨last, result⟩ := ran
    obtain ⟨last', result'⟩ := ran'
    cases results
    cases result with
    | error e =>
      dsimp only at compiled compiled'
      rw [compiled, compiled']
      exact ⟨rfl, apartThen⟩
    | ok =>
      obtain ⟨ended, same, compiled⟩ := compiled
      obtain ⟨ended', same', compiled'⟩ := compiled'
      rw [compiled, compiled']
      exact ⟨congrArg Except.ok apartThen.info,
        alike (s := { last with laidOut := true }) (u := { last' with laidOut := true })
          ⟨apartThen.func, apartThen.analyses, apartThen.info⟩ same same'⟩

theorem compileAndEmit (t : Target) : (u.compileAndEmit t).2 = (s.compileAndEmit t).2 ∧
    Behind lag (s.compileAndEmit t).1 (u.compileAndEmit t).1 := by
  obtain ⟨same, apart⟩ := apart.compile t
  unfold Session.compileAndEmit
  cases left : s.compile t with
  | mk s' result =>
    cases right : u.compile t with
    | mk u' result' =>
      rw [left, right] at same apart
      cases same
      cases result with
      | error e => exact ⟨rfl, apart⟩
      | ok info =>
        dsimp only
        rw [apart.func]
        exact ⟨rfl, apart.alike (.note ..) (.note ..)⟩

theorem compileOnto (t : Target) (memory : List Byte) :
    (u.compileOnto t memory).2 = (s.compileOnto t memory).2 ∧
      Behind lag (s.compileOnto t memory).1 (u.compileOnto t memory).1 := by
  obtain ⟨same, apart⟩ := apart.compileAndEmit t
  unfold Session.compileOnto
  cases left : s.compileAndEmit t with
  | mk s' result =>
    cases right : u.compileAndEmit t with
    | mk u' result' =>
      rw [left, right] at same apart
      cases same
      cases result with
      | error e => exact ⟨rfl, apart⟩
      | ok sink =>
        dsimp only
        rw [apart.info]
        exact ⟨rfl, apart⟩

end Behind

def unnumbered (f : Func) : Func := { f with layoutVersion := 0 }

theorem unnumberedLater (n : Nat) (f : Func) : unnumbered (f.later n) = unnumbered f := rfl

theorem setFunctionBehind (s : Session) (f : Func) :
    Behind ⟨s.func.layoutVersion + 2, s.analyses.graph.runs, s.analyses.tree.runs, s.analyses.loops.runs⟩
      (ofFunc (unnumbered f)) (s.setFunction f) where
  func := congrArg (fun version => { f with layoutVersion := version }) (Nat.zero_add _).symm
  analyses := by
    have forgotten {σ α : Type} (view : σ → α) (clear : σ → σ) (new : σ) (c : Cached σ) (source : Nat) :
        Cached.Behind view source c.runs { kept := new } (c.drop clear) :=
      ⟨rfl, (Nat.zero_add _).symm, fun valid => nomatch valid⟩
    exact ⟨forgotten .., forgotten .., forgotten ..⟩
  info := rfl

theorem ofFuncBehind (f : Func) : Behind ⟨f.layoutVersion, 0, 0, 0⟩ (ofFunc (unnumbered f)) (ofFunc f) where
  func := congrArg (fun version => { f with layoutVersion := version }) (Nat.zero_add _).symm
  analyses := by
    have unused {σ α : Type} (view : σ → α) (new : σ) (source : Nat) :
        Cached.Behind view source 0 { kept := new } { kept := new } :=
      ⟨rfl, rfl, fun valid => nomatch valid⟩
    exact ⟨unused .., unused .., unused ..⟩
  info := rfl

/-- Whatever was asked of a session and whatever came of it, on its next function it gives the
sizes or the failure, the bytes and the records, and the function, that a new session gives. -/
theorem reusedCompilesAsNew (s : Session) (ops : List Operation) (f : Func) (t : Target)
    (memory : List Byte) :
    let reused := (s.after ops).setFunction f
    (reused.compile t).2 = ((ofFunc f).compile t).2 ∧
      (reused.compileOnto t memory).2 = ((ofFunc f).compileOnto t memory).2 ∧
      unnumbered (reused.compileOnto t memory).1.func =
        unnumbered ((ofFunc f).compileOnto t memory).1.func := by
  intro reused
  have used := setFunctionBehind (s.after ops) f
  have new := ofFuncBehind f
  have sizes := (used.compile t).1.trans (new.compile t).1.symm
  obtain ⟨usedGives, usedEnds⟩ := used.compileOnto t memory
  obtain ⟨newGives, newEnds⟩ := new.compileOnto t memory
  have usedFunc := congrArg unnumbered usedEnds.func
  have newFunc := congrArg unnumbered newEnds.func
  rw [unnumberedLater] at usedFunc newFunc
  exact ⟨sizes, usedGives.trans newGives.symm, usedFunc.trans newFunc.symm⟩

end Session
end SsaCodegen
