import SsaCodegen.Proofs.Pipeline.Compile
/-! Compilation without the verifier. Nothing stands between the work of one stage and the next, so a run is told by
what each stage makes of the function. -/
namespace SsaCodegen.Session
open X64 (Target)

section Unchecked
variable {t : Target} (off : t.flags.enableVerifier = false)
include off

theorem uncheckedIf (violations : List Violation) : rejectIf t.flags violations = .ok () := by simp [rejectIf, off]

theorem checkUnchecked (s : Session) (c : StageCheck) : s.check t.flags c = .ok () := by
  cases c <;> simp [check, verifyIf, verifyLocationsIf, uncheckedIf off]

theorem uncheckedStage {s : Session} {stage : Stage} {g : Func} (rest : List Stage)
    (works : ∀ b, Alike s b → (b.perform t stage).1.func = g ∧ (b.perform t stage).2 = .ok ()) :
    ∃ u, u.func = g ∧ runStages t (stage :: rest) s = runStages t rest u := by
  obtain ⟨before, after, result, same, worked, ended, outcome⟩ := runStageWorks s t stage
  obtain ⟨func, done⟩ := works before same
  rw [worked] at func done
  cases done
  dsimp only at outcome
  rw [checkUnchecked off] at outcome
  refine ⟨(s.runStage t stage).1, ended.func.symm.trans func, ?_⟩
  have ran : s.runStage t stage = ((s.runStage t stage).1, .ok ()) := Prod.ext rfl outcome
  rw [runStages, ran]

variable {s : Session} {f g : Func}

theorem allocatedUnchecked {graph : FlowGraph} {tree : DomTree} (func : s.func = f)
    (asked : s.withTree.1 = tree ∧ (s.withTree.2.analyses.needGraph f).1 = graph)
    (allocated : RegAlloc.run X64.registerFile graph tree f = (g, .ok ())) (rest : List Stage) :
    ∃ u, u.func = g ∧ runStages t (.allocateRegisters :: rest) s = runStages t rest u := by
  obtain ⟨rfl, rfl⟩ := asked
  subst func
  refine uncheckedStage off rest fun b same => ?_
  have made : RegAlloc.run X64.registerFile (b.withTree.2.analyses.needGraph b.func).1 b.withTree.1 b.func =
      (g, .ok ()) := by
    rw [withTree, ← same.analyses, ← same.func]
    exact allocated
  obtain ⟨func, result, -⟩ := allocateRuns b
  exact ⟨func.trans (congrArg Prod.fst made), result.trans (congrArg Prod.snd made)⟩

theorem framedUnchecked (func : s.func = f) (framed : X64.layOutFrame t.limits f = (g, .ok ())) (rest : List Stage) :
    ∃ u, u.func = g ∧ runStages t (.layOutFrame :: rest) s = runStages t rest u := by
  subst func
  refine uncheckedStage off rest fun b same => ?_
  rw [same.func] at framed
  exact ⟨congrArg Prod.fst framed, congrArg Prod.snd framed⟩

theorem shrunkUnchecked (func : s.func = f) (rest : List Stage) : ∃ u, u.func = (X64.shrinkInstructions f).1 ∧
    runStages t (.shrinkInstructions :: rest) s = runStages t rest u := by
  subst func
  refine uncheckedStage off rest fun b same => ⟨?_, rfl⟩
  rw [same.func]
  rfl

theorem relaxedUnchecked {info : CodeInfo} (func : s.func = f) (relaxed : X64.relaxBranches t.limits f = (g, .ok info))
    (rest : List Stage) : ∃ u, u.func = g ∧ runStages t (.relaxBranches :: rest) s = runStages t rest u := by
  subst func
  refine uncheckedStage off rest fun b same => ?_
  rw [same.func] at relaxed
  simp only [perform, layOut, relaxed, and_self]

theorem compileUnchecked (quiet : t.flags.trace = false) (front late : List Stage) (graph : FlowGraph)
    (tree : DomTree) (made allocated framed : Func) {laid : Func}
    (active : Stage.activeFor t.flags = front ++ .allocateRegisters :: .layOutFrame :: late)
    (early : (runStages t front (ofFunc f)).1.func = made ∧ (runStages t front (ofFunc f)).2 = .ok ())
    (asked : (runStages t front (ofFunc f)).1.withTree.1 = tree ∧
      ((runStages t front (ofFunc f)).1.withTree.2.analyses.needGraph made).1 = graph)
    (allocates : RegAlloc.run X64.registerFile graph tree made = (allocated, .ok ()))
    (frames : X64.layOutFrame t.limits allocated = (framed, .ok ()))
    (finish : ∀ s : Session, s.func = framed → ∃ u, u.func = laid ∧ runStages t late s = runStages t [] u) :
    ∃ u info, (ofFunc f).compile t = (u, .ok info) ∧ u.func = laid := by
  obtain ⟨a, func, ran⟩ := allocatedUnchecked off early.1 asked allocates (.layOutFrame :: late)
  obtain ⟨b, func, ran'⟩ := framedUnchecked off func frames late
  obtain ⟨c, func, ran''⟩ := finish b func
  have first : runStages t front (ofFunc f) = ((runStages t front (ofFunc f)).1, .ok ()) := Prod.ext rfl early.2
  have whole : runStages t (Stage.activeFor t.flags) (ofFunc f) = (c, .ok ()) := by
    rw [active, runStagesThen, first]
    exact ran.trans (ran'.trans ran'')
  have silent (s : Session) (message : String) : s.trace t message = s := if_neg (by simp [quiet])
  refine ⟨{ c with laidOut := true }, c.info, ?_, func⟩
  simp only [compile, silent, verifyIf, uncheckedIf off]
  have begun : { ofFunc f with info := {}, laidOut := false } = ofFunc f := rfl
  rw [begun, whole]

end Unchecked
end SsaCodegen.Session
