import SsaCodegen.Proofs.Layout.Emission
import SsaCodegen.Proofs.Pipeline.Compile
import SsaCodegen.Proofs.Pipeline.Current
/-! What a compilation leaves, with the verifier or for a tidy function: a well-formed function with fitting locations
in which the entry reaches every block. Reachability is kept as a fact about the graph behind the stage that removes
blocks, since only there the function is known to be well formed at each step. -/
namespace SsaCodegen

def KeepsGraph (f g : Func) : Prop := f.Closed → g.Closed ∧ FlowGraph.ofFunc g = FlowGraph.ofFunc f

namespace KeepsGraph
variable {f g h : Func}

theorem refl (f : Func) : KeepsGraph f f := fun closed => ⟨closed, rfl⟩

theorem trans (a : KeepsGraph f g) (b : KeepsGraph g h) : KeepsGraph f h := fun closed =>
  have first := a closed
  have second := b first.1
  ⟨second.1, second.2.trans first.2⟩

theorem ofFaithful (faithful : Faithful f g) (version : g.layoutVersion = f.layoutVersion) : KeepsGraph f g :=
  fun closed => ⟨(faithful closed).1, (faithful closed).2.graph version⟩

theorem reachable (keeps : KeepsGraph f g) (closed : f.Closed) (labels : f.labels.Nodup) (labels' : g.labels.Nodup)
    (reachable : Reachable f) : Reachable g := by
  have graph := (keeps closed).2
  have count : g.blocks.length = f.blocks.length := by
    rw [← FlowGraph.sizeOfFunc g, graph, FlowGraph.sizeOfFunc]
  intro bb inside
  obtain ⟨b, located⟩ := List.getElem?_of_mem inside
  have below : b < f.blocks.length := count ▸ (List.getElem?_eq_some_iff.mp located).1
  have reached := (FlowGraph.reachesIff labels (List.getElem?_eq_getElem below)).mpr
    (reachable _ (List.getElem_mem below))
  exact (FlowGraph.reachesIff labels' located).mp (graph ▸ reached)

end KeepsGraph

namespace Session
open X64

theorem lateKeepsGraph (s : Session) (t : Target) {stage : Stage} (late : stage ∈ Stage.all.drop 11) :
    KeepsGraph s.func (s.perform t stage).1.func := by
  have stages : Stage.all.drop 11 =
      [.eliminateDeadCode, .allocateRegisters, .layOutFrame, .shrinkInstructions, .relaxBranches] := rfl
  simp only [stages, List.mem_cons, List.not_mem_nil, or_false] at late
  rcases late with rfl | rfl | rfl | rfl | rfl
  · exact .ofFaithful (eliminateDeadCodeFaithful _ _) (eliminateDeadCodeThins ..).version
  · rw [performAllocates]
    exact .ofFaithful (allocateFaithful _ _ _ _) (RegAlloc.runVersion ..)
  · exact .ofFaithful (layOutFrameFaithful _ _) (layOutFrameKeeps ..).2.2
  · exact .ofFaithful (shrinkReforms s.func).faithful (shrinkReforms s.func).version
  · have reforms := relaxBranchesReforms t.limits s.func
    have func : (s.perform t .relaxBranches).1.func = (relaxBranches t.limits s.func).1 := by
      simp only [perform, layOut]
      split <;> rfl
    rw [func]
    exact .ofFaithful reforms.faithful reforms.version

section Checked
variable {s u : Session} {t : Target} (on : t.flags.enableVerifier = true)
include on

theorem acceptedNone {violations : List Violation} (accepted : rejectIf t.flags violations = .ok ()) :
    violations = [] := by
  unfold rejectIf at accepted
  split at accepted
  · cases accepted
  · rename_i absent
    simpa [on] using absent

theorem verifiedWellFormed (accepted : s.verifyIf t.flags = .ok ()) : WellFormed s.func :=
  verifiedIff.mp (List.append_eq_nil_iff.mp (acceptedNone on accepted)).1

theorem checkedLocated (checked : s.check t.flags .irAndLocations = .ok ()) :
    WellFormed s.func ∧ Located registerFile s.func := by
  simp only [check] at checked
  split at checked
  · rename_i accepted
    exact ⟨verifiedWellFormed on accepted, locatedIff.mp (acceptedNone on checked)⟩
  · cases checked

theorem stageWellFormed {stage : Stage} (early : stage ∈ Stage.all.take 10) (ok : WellFormed s.func)
    (done : s.runStage t stage = (u, .ok ())) : WellFormed u.func := by
  obtain ⟨before, after, same, worked, ended, checked⟩ := runStageDone done
  have quiet : stage.check = .ir ∨ stage = .flowGraph ∨ stage = .refreshDominators := by
    have all : ∀ stage ∈ Stage.all.take 10,
        stage.check = .ir ∨ stage = .flowGraph ∨ stage = .refreshDominators := by decide
    exact all stage early
  rcases quiet with ir | rfl | rfl
  · rw [ir] at checked
    exact verifiedWellFormed on checked
  · cases worked
    exact ended.func ▸ same.func ▸ ok
  · cases worked
    exact ended.func ▸ same.func ▸ ok

theorem earlyWellFormed {stages : List Stage} (early : ∀ stage ∈ stages, stage ∈ Stage.all.take 10)
    (ok : WellFormed s.func) (done : runStages t stages s = (u, .ok ())) : WellFormed u.func := by
  induction stages generalizing s with
  | nil =>
    cases done
    exact ok
  | cons stage rest ih =>
    obtain ⟨next, first, later⟩ := runStagesCons done
    exact ih (fun other listed => early other (List.mem_cons_of_mem _ listed))
      (stageWellFormed on (early stage List.mem_cons_self) ok first) later

end Checked

structure Finished (f : Func) : Prop where
  wellFormed : WellFormed f
  located : Located registerFile f
  reachable : Reachable f

theorem Honest.tree {s : Session} (honest : Honest False s) : s.withTree.1 = s.func.tree := by
  have given := honest.tells.graphGiven fun g current => by
    obtain ⟨cached, source⟩ := Analyses.currentGraphIff.mp current
    obtain rfl := ((honest.tells.graph g cached).2 source).resolve_right fun wrong => wrong.1
    exact FlowGraph.sizeOfFunc _
  exact (honest.tells.treeGiven given.2).1

theorem trimmedReached {m k : Session} {t : Target} (honest : Honest False m) (ok : WellFormed m.func)
    (done : m.runStage t .removeUnreachable = (k, .ok ())) : WellFormed k.func ∧ Reachable k.func := by
  obtain ⟨before, after, same, worked, ended, -⟩ := runStageDone done
  have fresh : before.withTree.1 = before.func.tree := (honest.same same.func same.analyses).tree
  have func : after.func = (removeUnreachable before.func.tree before.func).1 := by
    simp only [perform, removeUnreachableBlocks, Prod.mk.injEq, and_true] at worked
    rw [← worked, ← fresh]
    split <;> rfl
  have trims : Trimmed before.func after.func := func ▸ removeUnreachableTrims (same.func ▸ ok)
  rw [← ended.func]
  exact ⟨trims.wellFormed (same.func ▸ ok), trims.reachable⟩

section Run
variable {s m u : Session} {t : Target} (checked : t.flags.enableVerifier = true ∨ Tidy s.func)
  (ok : WellFormed s.func) (current : s.analyses.Current s.func)
include checked ok current

theorem earlyRun (done : runStages t ((Stage.all.take 10).filter (·.isActive t.flags)) s = (m, .ok ())) :
    WellFormed m.func := by
  rcases checked with on | tidy
  · exact earlyWellFormed on (fun _ listed => List.mem_of_mem_filter listed) ok done
  · have led := trimmingLeads t s ⟨⟨ok, tidy⟩, current⟩
    rw [done] at led
    exact led.lowered.clean.wellFormed

theorem fittedRun (done : runStages t (Stage.activeFor t.flags) s = (u, .ok ())) :
    WellFormed u.func ∧ Located registerFile u.func := by
  rcases checked with on | tidy
  · obtain ⟨earlier, active⟩ := activeEndsInRelaxation t.flags
    rw [active] at done
    obtain ⟨_, -, relaxed⟩ := runStagesAppend done
    obtain ⟨-, -, -, -, -, accepted⟩ := runStageDone (runStagesOne relaxed)
    exact checkedLocated on accepted
  · have led := compileLeads t s ⟨⟨ok, tidy⟩, current⟩
    rw [done] at led
    exact ⟨led.wellFormed, led.located⟩

theorem finishedRun (honest : Honest False s) (done : runStages t (Stage.activeFor t.flags) s = (u, .ok ())) :
    Finished u.func := by
  obtain ⟨wellFormed, located⟩ := fittedRun checked ok current done
  rw [activeAround t.flags 10 .removeUnreachable rfl rfl rfl] at done
  obtain ⟨m, early, rest⟩ := runStagesAppend done
  obtain ⟨k, trimmed, late⟩ := runStagesCons rest
  obtain ⟨kept, reached⟩ := trimmedReached (Honest.lasting.stagesDone honest early)
    (earlyRun checked ok current early) trimmed
  have keeps : KeepsGraph k.func u.func := runStagesRelate _ KeepsGraph.refl KeepsGraph.trans
    (fun s stage listed => lateKeepsGraph s t (List.mem_of_mem_filter listed)) late
  exact ⟨wellFormed, located, keeps.reachable kept.closed kept.labels wellFormed.labels reached⟩

end Run

theorem compileFinished {s u : Session} {t : Target} {f : Func} {info : CodeInfo} (verified : verifyFunction f = [])
    (checked : t.flags.enableVerifier = true ∨ Tidy f) (done : (s.setFunction f).compile t = (u, .ok info)) :
    Finished u.func := by
  obtain ⟨begun, last, same, -, ran, final, -⟩ := compileDone done
  have ok : WellFormed begun.func :=
    same.func ▸ SameCode.wellFormed (f := f) ⟨rfl, rfl, rfl⟩ (verifiedIff.mp verified)
  have checked : t.flags.enableVerifier = true ∨ Tidy begun.func := same.func ▸ checked
  rw [← final.func]
  show Finished last.func
  exact finishedRun checked ok (same.analyses ▸ .ofEmpty rfl rfl rfl)
    ⟨ok.closed, same.analyses ▸ .ofEmpty rfl rfl rfl⟩ ran

end Session
end SsaCodegen
