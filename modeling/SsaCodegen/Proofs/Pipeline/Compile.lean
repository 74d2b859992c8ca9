import SsaCodegen.Proofs.Layout.Forms
import SsaCodegen.Proofs.Opt.ConstantFold
import SsaCodegen.Proofs.Opt.NanGuard
import SsaCodegen.Proofs.Pipeline.Run
import SsaCodegen.Proofs.Verify.Soundness
/-! A compilation never rejects what it made itself. Between two stages a function stands in
one of five ways, each stage leads from one to the next or gives up within its rights, and
what stands after a stage passes the checks made there. -/
namespace SsaCodegen

/-- Reasons to stop that lie in the function or the limits, not in the compiler. -/
def Failure.ByDesign (e : Failure) : Prop :=
  e.kind = .legalization ∨ e.kind = .limitExceeded ∨ e.kind = .codeTooLarge

theorem DomTree.sameTreeSelf (t : DomTree) : t.sameTree t = true := by
  simp [DomTree.sameTree]

namespace Session
open X64

def Passes (f : Func) (a : Analyses) : StageCheck → Prop
  | .none => True
  | .ir => WellFormed f ∧ a.Current f
  | .irAndLocations => WellFormed f ∧ a.Current f ∧ Located registerFile f

theorem noneStale {s : Session} (current : s.analyses.Current s.func) : s.staleViolations = [] := by
  unfold staleViolations
  dsimp only
  cases cached : s.analyses.currentGraph? s.func with
  | none => rfl
  | some g =>
    obtain ⟨cached, source⟩ := Analyses.currentGraphIff.mp cached
    cases (current.graph g cached).2 source
    simp only [bne_self_eq_false, Bool.false_eq_true, if_false]
    cases tree : s.analyses.currentTree? with
    | none => rfl
    | some t =>
      obtain ⟨made, source⟩ := Analyses.currentTreeCached tree
      have same := (current.tree t made).2 source _ cached
      rw [FlowGraph.sizeOfFunc, ← DomTree.ofFunc] at same
      simp only [same, DomTree.sameTreeSelf, if_true]

theorem checkPasses {s : Session} {c : StageCheck} (flags : Flags)
    (passes : Passes s.func s.analyses c) : s.check flags c = .ok () := by
  have ir (ok : WellFormed s.func) (current : s.analyses.Current s.func) :
      s.verifyIf flags = .ok () := by
    have empty : s.violations = [] := by
      simp only [violations, verifiedIff.mpr ok, noneStale current, ite_self, List.append_nil]
    simp [verifyIf, rejectIf, empty]
  cases c with
  | none => rfl
  | ir => exact ir passes.1 passes.2
  | irAndLocations =>
    obtain ⟨ok, current, fits⟩ := passes
    simp [check, ir ok current, verifyLocationsIf, locationViolations, rejectIf, locatedIff.mpr fits]

abbrev Stands : Type := Func → Analyses → Prop

def Ends (after : Stands) : Session × Except Failure Unit → Prop
  | (u, .ok ()) => after u.func u.analyses
  | (_, .error e) => e.ByDesign

def Leads (t : Target) (before after : Stands) (stages : List Stage) : Prop :=
  ∀ s : Session, before s.func s.analyses → Ends after (runStages t stages s)

theorem runStagesThen (t : Target) (a b : List Stage) (s : Session) : runStages t (a ++ b) s =
    match runStages t a s with
    | (u, .ok ()) => runStages t b u
    | (u, .error e) => (u, .error e) := by
  induction a generalizing s with
  | nil => rfl
  | cons stage rest ih =>
    simp only [List.cons_append, runStages]
    cases s.runStage t stage with
    | mk u result =>
      cases result with
      | ok => exact ih u
      | error e => rfl

namespace Leads
variable {t : Target} {p q r : Stands}

theorem nil : Leads t p p [] := fun _ stands => stands

theorem append {a b : List Stage} (first : Leads t p q a) (second : Leads t q r b) :
    Leads t p r (a ++ b) := by
  intro s stands
  have middle := first s stands
  rw [runStagesThen]
  cases ran : runStages t a s with
  | mk u result =>
    rw [ran] at middle
    cases result with
    | ok => exact second u middle
    | error e => exact middle

theorem stage {stage : Stage} (work : ∀ s : Session, p s.func s.analyses → Ends q (s.perform t stage))
    (passes : ∀ f a, q f a → Passes f a stage.check) : Leads t p q [stage] := by
  intro s stands
  rw [runStages]
  cases ran : s.runStage t stage with
  | mk u result =>
    cases result with
    | ok =>
      obtain ⟨before, after, same, worked, ended, -⟩ := runStageDone ran
      have done := work before (same.func ▸ same.analyses ▸ stands)
      rw [worked] at done
      show q u.func u.analyses
      rw [← ended.func, ← ended.analyses]
      exact done
    | error e =>
      obtain ⟨before, after, same, failed | ⟨worked, rejected⟩⟩ := runStageFailed ran
      · have stopped := work before (same.func ▸ same.analyses ▸ stands)
        rwa [failed] at stopped
      -- what stands after the work is what the check asks for, so it cannot reject
      · have done := work before (same.func ▸ same.analyses ▸ stands)
        rw [worked] at done
        rw [checkPasses t.flags (passes _ _ done)] at rejected
        cases rejected

theorem filter {stages : List Stage} (active : Stage → Bool)
    (keep : ∀ stage ∈ stages, Leads t p p [stage]) : Leads t p p (stages.filter active) := by
  induction stages with
  | nil => exact nil
  | cons stage rest ih =>
    have later := ih fun s inside => keep s (List.mem_cons_of_mem _ inside)
    rw [List.filter_cons]
    split
    · exact (keep stage List.mem_cons_self).append later
    · exact later

end Leads

structure BeforeLegalization (f : Func) (a : Analyses) : Prop where
  clean : Clean f
  current : a.Current f

structure BeforeTrimming (f : Func) (a : Analyses) : Prop where
  lowered : Lowered f
  fitted : Fitted f
  current : a.Current f

structure BeforeAllocation (f : Func) (a : Analyses) : Prop extends BeforeTrimming f a where
  reachable : Reachable f

structure BeforeFrame (f : Func) (a : Analyses) : Prop where
  clean : Clean f
  fitted : Fitted f
  located : Located registerFile { f with frame := {} }
  current : a.Current f

structure BeforeEmission (f : Func) (a : Analyses) : Prop where
  wellFormed : WellFormed f
  fitted : Fitted f
  located : Located registerFile f
  laidOut : f.frame.laidOut = true
  current : a.Current f

section Stages
variable {t : Target}

theorem flowGraphStage : Leads t BeforeLegalization BeforeLegalization [.flowGraph] :=
  .stage (fun s ok => ⟨ok.clean, (ok.current.computeGraph s.func).1⟩) fun _ _ _ => trivial

theorem foldConstantsStage : Leads t BeforeLegalization BeforeLegalization [.foldConstants] := by
  refine .stage (fun s ok => ?_) fun _ _ ok => ⟨ok.clean.wellFormed, ok.current⟩
  exact ⟨foldConstantsClean ok.clean, ok.current.later (foldConstantsFlow s.func)⟩

theorem canonicalizeNansStage : Leads t BeforeLegalization BeforeLegalization [.canonicalizeNans] := by
  refine .stage (fun s ok => ?_) fun _ _ ok => ⟨ok.clean.wellFormed, ok.current⟩
  exact ⟨canonicalizeNansClean ok.clean, ok.current.later (canonicalizeNansFlow ok.clean.wellFormed)⟩

theorem legalizeStage : Leads t BeforeLegalization BeforeTrimming [.legalize] := by
  refine .stage (fun s ok => ?_) fun _ _ ok => ⟨ok.lowered.clean.wellFormed, ok.current⟩
  simp only [perform, legalizeFunction]
  cases done : legalize s.func with
  | mk f result =>
    cases result with
    | ok =>
      exact ⟨legalizeLowered ok.clean done, legalizeFitted done,
        (ok.current.dropTree.computeGraph f).1⟩
    | error e => exact .inl (legalizeKind done)

theorem trimmingPasses {stage : Stage} (check : stage.check = .ir ∨ stage.check = .none) (f : Func)
    (a : Analyses) (ok : BeforeTrimming f a) : Passes f a stage.check := by
  rcases check with ir | absent
  · rw [ir]
    exact ⟨ok.lowered.clean.wellFormed, ok.current⟩
  · rw [absent]
    trivial

theorem fuseBranchesStage : Leads t BeforeTrimming BeforeTrimming [.fuseBranches] := by
  refine .stage (fun s ok => ?_) (trimmingPasses (.inl rfl))
  exact ⟨fuseCompareBranchesLowered (fun i enc => legalEncodings s.func i enc) ok.lowered,
    fuseCompareBranchesFitted ok.fitted, ok.current.later (fuseCompareBranchesFlow encode? s.func)⟩

theorem computeTreeStages : Leads t BeforeTrimming BeforeTrimming [.dominators] ∧
    Leads t BeforeTrimming BeforeTrimming [.refreshDominators] := by
  have work (s : Session) (ok : BeforeTrimming s.func s.analyses) :
      BeforeTrimming s.func (s.analyses.computeTree s.func).2 :=
    ⟨ok.lowered, ok.fitted, ok.current.computeTree.2.1⟩
  exact ⟨.stage work (trimmingPasses (.inl rfl)), .stage work (trimmingPasses (.inr rfl))⟩

theorem loopsStage : Leads t BeforeTrimming BeforeTrimming [.loops] :=
  .stage (fun _ ok => ⟨ok.lowered, ok.fitted, ok.current.computeLoops.2.1⟩)
    (trimmingPasses (.inl rfl))

theorem hoistInvariantsStage : Leads t BeforeTrimming BeforeTrimming [.hoistInvariants] := by
  refine .stage (fun s ok => ?_) (trimmingPasses (.inl rfl))
  obtain ⟨loops, current, -⟩ := ok.current.needLoops
  obtain ⟨graph, current, -⟩ := current.needGraph
  have lowered := hoistInvariantsLowered legalEncodings encodeJump ok.lowered
  have fitted := hoistInvariantsFitted (FlowGraph.ofFunc s.func)
    (LoopForest.ofFunc s.func (FlowGraph.ofFunc s.func) (DomTree.ofFunc s.func (FlowGraph.ofFunc s.func)))
    (typedWellFormed ok.lowered.clean.wellFormed) ok.fitted
  simp only [perform, hoist, hoistWith, loops, graph]
  generalize hoistInvariants _ _ _ _ = hoisted at lowered fitted ⊢
  refine ⟨lowered, fitted, ?_⟩
  split
  · exact (current.refreshAll _).refreshAll _
  · exact current.refreshAll _

theorem withTreeIs (s : Session) (current : s.analyses.Current s.func) :
    s.withTree.1 = DomTree.ofFunc s.func (FlowGraph.ofFunc s.func) ∧
      s.withTree.2.func = s.func ∧ s.withTree.2.analyses.Current s.func := by
  obtain ⟨tree, kept, -⟩ := current.needTree
  exact ⟨tree, rfl, kept⟩

theorem numberValuesStage : Leads t BeforeTrimming BeforeTrimming [.numberValues] := by
  refine .stage (fun s ok => ?_) (trimmingPasses (.inl rfl))
  obtain ⟨tree, func, current⟩ := withTreeIs s ok.current
  simp only [perform, become, tree, func]
  exact ⟨numberValuesLowered ok.lowered, numberValuesFitted ok.lowered.clean.wellFormed ok.fitted,
    current.later (numberValuesFlow ok.lowered.clean)⟩

theorem removeUnreachableStage : Leads t BeforeTrimming BeforeAllocation [.removeUnreachable] := by
  refine .stage (fun s ok => ?_) fun _ _ ok => ⟨ok.lowered.clean.wellFormed, ok.current⟩
  obtain ⟨tree, func, current⟩ := withTreeIs s ok.current
  obtain ⟨lowered, reachable⟩ := removeUnreachableLowered ok.lowered
  have fitted : Fitted (removeUnreachable (DomTree.ofFunc s.func (FlowGraph.ofFunc s.func)) s.func).1 :=
    removeUnreachableFitted ok.fitted
  simp only [perform, removeUnreachableBlocks, become, tree, func]
  cases removed : removeUnreachable (DomTree.ofFunc s.func (FlowGraph.ofFunc s.func)) s.func with
  | mk f gone =>
    rw [removed] at lowered reachable fitted
    cases gone with
    | true => exact ⟨⟨lowered, fitted, (current.computeGraph f).1⟩, reachable⟩
    | false =>
      have same : f = s.func := by
        unfold removeUnreachable at removed
        dsimp only at removed
        split at removed
        · exact (Prod.mk.inj removed).1.symm
        · cases (Prod.mk.inj removed).2
      exact ⟨⟨lowered, fitted, same ▸ current⟩, reachable⟩

theorem eliminateDeadCodeStage : Leads t BeforeAllocation BeforeAllocation [.eliminateDeadCode] := by
  refine .stage (fun s ok => ?_) fun _ _ ok => ⟨ok.lowered.clean.wellFormed, ok.current⟩
  obtain ⟨-, func, current⟩ := withTreeIs s ok.current
  simp only [perform, become, func]
  have thins := eliminateDeadCodeThins s.withTree.1 s.func
  obtain ⟨-, edges⟩ := thins.exits ok.lowered.clean.wellFormed.closed
  exact ⟨⟨eliminateDeadCodeLowered ok.lowered, eliminateDeadCodeFitted ok.fitted,
    current.later (.ofEdges thins.version edges)⟩, ok.reachable.same edges⟩

theorem allocateRegistersStage : Leads t BeforeAllocation BeforeFrame [.allocateRegisters] := by
  refine .stage (fun s ok => ?_) fun _ _ _ => trivial
  obtain ⟨tree, func, current⟩ := withTreeIs s ok.current
  have wf := ok.lowered.clean.wellFormed
  obtain ⟨g, ivs, ran, -, ⟨code, lists, scan⟩, -, size, encs, recorded⟩ :=
    RegAlloc.runScanned RegAlloc.registersConsistent wf ok.reachable
  have unframed : RegAlloc.Scanned registerFile s.func ivs { g with frame := {} } :=
    ⟨⟨code.blocks, code.types, code.signature⟩, lists, scan⟩
  have encoded (bb : Block) (inside : bb ∈ g.blocks) (inst : Inst) (there : inst ∈ bb.insts) :
      inst.enc.isLegal = true := by
    obtain ⟨was, listed, enc⟩ := encs bb inside inst there
    exact enc ▸ ok.lowered.encoded was listed
  have fitted : Fitted (RegAlloc.run registerFile (FlowGraph.ofFunc s.func)
    (DomTree.ofFunc s.func (FlowGraph.ofFunc s.func)) s.func).1 := allocateFitted ok.fitted
  have version := RegAlloc.runVersion registerFile (FlowGraph.ofFunc s.func)
    (DomTree.ofFunc s.func (FlowGraph.ofFunc s.func)) s.func
  rw [ran] at fitted version
  obtain ⟨graph, current, -⟩ := current.needGraph
  obtain ⟨made, result, analyses, -⟩ := allocateRuns s
  rw [graph, tree, ran] at made result
  have succeeds : s.perform t .allocateRegisters = (s.allocate.1, .ok ()) := Prod.ext rfl result
  rw [succeeds]
  change BeforeFrame s.allocate.1.func s.allocate.1.analyses
  rw [made, analyses]
  exact ⟨code.clean ok.lowered.clean, fitted, unframed.located wf rfl size encoded recorded,
    current.later ⟨Nat.le_of_eq version.symm, fun _ => code.graph⟩⟩

theorem layOutFrameStage : Leads t BeforeFrame BeforeEmission [.layOutFrame] := by
  refine .stage (fun s ok => ?_) fun _ _ ok => ⟨ok.wellFormed, ok.current, ok.located⟩
  simp only [perform, become]
  cases done : layOutFrame t.limits s.func with
  | mk f result =>
    cases result with
    | ok =>
      have code : SameCode s.func { s.func with frame := {} } := ⟨rfl, rfl, rfl⟩
      have framed := layOutFrameDone (code.clean ok.clean)
        (fun i inside => (ok.fitted i inside).stays rfl rfl) ok.located (layOutFrameAfresh done)
      exact ⟨framed.wellFormed, framed.fitted, framed.located, framed.laidOut,
        ok.current.later (.ofEdges framed.version framed.edges)⟩
    | error e => exact .inr (.inl (layOutFrameKind ok.clean.wellFormed done))

theorem BeforeEmission.reform {f g : Func} {a : Analyses} (ok : BeforeEmission f a)
    (r : Reformed f g) : BeforeEmission g a :=
  ⟨r.sameCode.wellFormed ok.wellFormed, ok.fitted.reform r, r.located ok.wellFormed ok.located,
    r.frame ▸ ok.laidOut, ok.current.later (.ofEdges r.version r.edges)⟩

theorem shrinkInstructionsStage : Leads t BeforeEmission BeforeEmission [.shrinkInstructions] :=
  .stage (fun s ok => ok.reform (shrinkReforms s.func))
    fun _ _ ok => ⟨ok.wellFormed, ok.current, ok.located⟩

theorem relaxBranchesStage : Leads t BeforeEmission BeforeEmission [.relaxBranches] := by
  refine .stage (fun s ok => ?_) fun _ _ ok => ⟨ok.wellFormed, ok.current, ok.located⟩
  have reformed := relaxBranchesReforms t.limits s.func
  simp only [perform, layOut, become]
  cases done : relaxBranches t.limits s.func with
  | mk f result =>
    rw [done] at reformed
    cases result with
    | ok info => exact ok.reform reformed
    | error e => exact .inr (.inr (relaxBranchesKind done))

end Stages

theorem earlyStages (t : Target) (stage : Stage)
    (listed : stage ∈ [Stage.flowGraph, .foldConstants, .canonicalizeNans]) :
    Leads t BeforeLegalization BeforeLegalization [stage] := by
  simp only [List.mem_cons, List.not_mem_nil, or_false] at listed
  rcases listed with rfl | rfl | rfl
  · exact flowGraphStage
  · exact foldConstantsStage
  · exact canonicalizeNansStage

theorem middleStages (t : Target) (stage : Stage) (listed : stage ∈ [Stage.fuseBranches, .dominators,
      .loops, .hoistInvariants, .numberValues, .refreshDominators]) :
    Leads t BeforeTrimming BeforeTrimming [stage] := by
  simp only [List.mem_cons, List.not_mem_nil, or_false] at listed
  rcases listed with rfl | rfl | rfl | rfl | rfl | rfl
  · exact fuseBranchesStage
  · exact computeTreeStages.1
  · exact loopsStage
  · exact hoistInvariantsStage
  · exact numberValuesStage
  · exact computeTreeStages.2

theorem alwaysKept {flags : Flags} (stage : Stage) (low : stage.info.minLevel = .fastest)
    (free : stage.info.guardsNans = false) : [stage].filter (·.isActive flags) = [stage] := by
  simp [alwaysActive stage low free]

theorem trimmingLeads (t : Target) :
    Leads t BeforeLegalization BeforeTrimming ((Stage.all.take 10).filter (·.isActive t.flags)) := by
  have parts : Stage.all.take 10 = [.flowGraph, .foldConstants, .canonicalizeNans].append ([.legalize].append
      [.fuseBranches, .dominators, .loops, .hoistInvariants, .numberValues, .refreshDominators]) := rfl
  rw [parts]
  simp only [List.append_eq, List.filter_append, alwaysKept .legalize rfl rfl]
  have early := Leads.filter (·.isActive t.flags) (earlyStages t)
  have middle := Leads.filter (·.isActive t.flags) (middleStages t)
  exact early.append (legalizeStage.append middle)

theorem compileLeads (t : Target) :
    Leads t BeforeLegalization BeforeEmission (Stage.activeFor t.flags) := by
  -- cut at the stages every level runs: they alone change what stands
  have parts : Stage.all.drop 11 = [.eliminateDeadCode].append ([.allocateRegisters].append ([.layOutFrame].append
      ([.shrinkInstructions].append [.relaxBranches]))) := rfl
  have alone {p : Stands} {stage : Stage} (one : Leads t p p [stage]) :
      Leads t p p ([stage].filter (·.isActive t.flags)) :=
    .filter _ fun _ listed => List.mem_singleton.mp listed ▸ one
  rw [activeAround t.flags 10 .removeUnreachable rfl rfl rfl, parts]
  simp only [List.append_eq, List.filter_append, alwaysKept .allocateRegisters rfl rfl,
    alwaysKept .layOutFrame rfl rfl, alwaysKept .relaxBranches rfl rfl]
  exact (trimmingLeads t).append (removeUnreachableStage.append
    ((alone eliminateDeadCodeStage).append (allocateRegistersStage.append (layOutFrameStage.append
      ((alone shrinkInstructionsStage).append relaxBranchesStage)))))

theorem compileEnds (s : Session) (t : Target) {f : Func} (clean : Clean f) :
    match (s.setFunction f).compile t with
    | (u, .ok _) => BeforeEmission u.func u.analyses
    | (_, .error e) => e.ByDesign := by
  have start : BeforeLegalization (s.setFunction f).func (s.setFunction f).analyses := by
    have given : SameCode f (s.setFunction f).func := ⟨rfl, rfl, rfl⟩
    exact ⟨given.clean clean, .ofEmpty rfl rfl rfl⟩
  obtain ⟨begun, same, compiled⟩ := compileWorks (s.setFunction f) t
  rw [same.func, same.analyses] at start
  have accepted : begun.verifyIf t.flags = .ok () :=
    checkPasses (c := .ir) t.flags ⟨start.clean.wellFormed, start.current⟩
  have led := compileLeads t begun start
  rw [accepted] at compiled
  cases ran : runStages t (Stage.activeFor t.flags) begun with
  | mk u result =>
    rw [ran] at compiled led
    cases result with
    | ok =>
      obtain ⟨ended, last, compiled⟩ := compiled
      rw [compiled]
      show BeforeEmission _ _
      rw [← last.func, ← last.analyses]
      exact led
    | error e =>
      have failed : (s.setFunction f).compile t = (u, .error e) := compiled
      rw [failed]
      exact led

def Settled : Session × Except Failure CodeInfo → Prop
  | (u, .ok _) => u.violations = [] ∧ u.locationViolations = []
  | (_, .error e) =>
    e.kind = .legalization ∨ e.kind = .limitExceeded ∨ e.kind = .codeTooLarge

theorem compileNeverRejects (s : Session) (t : Target) (f : Func) (verified : verifyFunction f = [])
    (tidy : Tidy f) : Settled ((s.setFunction f).compile t) := by
  have ends := compileEnds s t ⟨verifiedIff.mp verified, tidy⟩
  cases done : (s.setFunction f).compile t with
  | mk u result =>
    rw [done] at ends
    cases result with
    | ok info =>
      have empty : u.violations = [] := by
        simp only [violations, verifiedIff.mpr ends.wellFormed, noneStale ends.current, ite_self,
          List.append_nil]
      exact ⟨empty, locatedIff.mpr ends.located⟩
    | error e => exact ends

theorem callUntilZeroCompiles : verifyFunction callUntilZero = [] ∧ Tidy callUntilZero ∧
    Settled ((Session.setFunction {} callUntilZero).compile {}) := by
  have verified : verifyFunction callUntilZero = [] := by decide
  have tidy : Tidy callUntilZero := by
    unfold Tidy Inst.Tidy
    decide
  refine ⟨verified, tidy, ?_⟩
  generalize callUntilZero = f at verified tidy ⊢
  exact compileNeverRejects {} {} f verified tidy

end Session
end SsaCodegen
