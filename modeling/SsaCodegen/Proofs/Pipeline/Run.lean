import SsaCodegen.Pipeline.Session
import SsaCodegen.Proofs.RegAlloc.Kept
/-! Runs of stages. Events, timings and prints are not read by the work of a stage, so a
run is a sequence of works on functions and analyses with a check behind each. -/
namespace SsaCodegen
open X64 (Target)
namespace Session

structure Alike (s u : Session) : Prop where
  func : s.func = u.func
  analyses : s.analyses = u.analyses
  info : s.info = u.info
  laidOut : s.laidOut = u.laidOut

namespace Alike

theorem refl (s : Session) : Alike s s := ⟨rfl, rfl, rfl, rfl⟩

theorem trans {s u v : Session} (a : Alike s u) (b : Alike u v) : Alike s v :=
  ⟨a.func.trans b.func, a.analyses.trans b.analyses, a.info.trans b.info, a.laidOut.trans b.laidOut⟩

theorem note (s : Session) (e : Event) : Alike s (s.note e) := ⟨rfl, rfl, rfl, rfl⟩

theorem trace (s : Session) (t : Target) (message : String) : Alike s (s.trace t message) := by
  unfold Session.trace
  split
  · exact note s _
  · exact refl s

theorem print (s : Session) (enabled : Bool) (heading : String) (stage : Stage) :
    Alike s (s.print enabled heading stage) := by
  unfold Session.print
  split
  · exact note s _
  · exact refl s

theorem timed (s : Session) (timings : Timings) : Alike s { s with timings := timings } :=
  ⟨rfl, rfl, rfl, rfl⟩

theorem violations {s u : Session} (a : Alike s u) : s.violations = u.violations := by
  simp only [Session.violations, Session.staleViolations, a.func, a.analyses]

theorem check {s u : Session} (a : Alike s u) (flags : Flags) (c : StageCheck) :
    s.check flags c = u.check flags c := by
  cases c <;> simp only [Session.check, Session.verifyIf, Session.verifyLocationsIf,
    Session.locationViolations, a.violations, a.func]

end Alike

theorem allocateRuns (s : Session) :
    let g := (s.withTree.2.analyses.needGraph s.func).1
    let allocated := RegAlloc.run X64.registerFile g s.withTree.1 s.func
    s.allocate.1.func = allocated.1 ∧ s.allocate.2 = allocated.2 ∧
      s.allocate.1.analyses = (s.withTree.2.analyses.needGraph s.func).2 ∧ s.allocate.1.info = s.info := by
  have same := RegAlloc.allocatorRuns s.allocator X64.registerFile
    (s.withTree.2.analyses.needGraph s.func).1 s.withTree.1 s.func
  exact ⟨same.1, same.2, rfl, rfl⟩

theorem performAllocates (s : Session) (t : Target) : (s.perform t .allocateRegisters).1.func =
    (RegAlloc.run X64.registerFile (s.withTree.2.analyses.needGraph s.func).1 s.withTree.1 s.func).1 :=
  (allocateRuns s).1

theorem runStageWorks (s : Session) (t : Target) (stage : Stage) :
    ∃ before after result, Alike s before ∧ before.perform t stage = (after, result) ∧
      Alike after (s.runStage t stage).1 ∧ (s.runStage t stage).2 =
        match result with
        | .error e => .error e
        | .ok () => after.check t.flags stage.check := by
  simp only [runStage]
  generalize started : Session.print _ _ _ _ = before
  have same : Alike s before := by
    rw [← started]
    exact ((Alike.trace s t _).trans (.note _ _)).trans (.print _ _ _ _)
  cases worked : before.perform t stage with
  | mk after result =>
    have ended := Alike.timed after (after.timings.record stage.name 0)
    refine ⟨before, after, result, same, worked, ?_⟩
    cases result with
    | error e => exact ⟨ended, rfl⟩
    | ok =>
      have closed := (ended.trans (.print _ after.printAfter "after " stage)).trans
        (.note _ (.stageEnded stage))
      exact ⟨closed, (closed.check _ _).symm⟩

theorem runStageDone {s u : Session} {t : Target} {stage : Stage}
    (done : s.runStage t stage = (u, .ok ())) :
    ∃ before after, Alike s before ∧ before.perform t stage = (after, .ok ()) ∧ Alike after u ∧
      u.check t.flags stage.check = .ok () := by
  obtain ⟨before, after, result, same, worked, ended, outcome⟩ := runStageWorks s t stage
  rw [done] at ended outcome
  cases result with
  | error e => cases outcome
  | ok => exact ⟨before, after, same, worked, ended, (ended.check _ _).symm.trans outcome.symm⟩

theorem runStageFailed {s u : Session} {t : Target} {stage : Stage} {e : Failure}
    (failed : s.runStage t stage = (u, .error e)) :
    ∃ before after, Alike s before ∧
      (before.perform t stage = (after, .error e) ∨
        before.perform t stage = (after, .ok ()) ∧ after.check t.flags stage.check = .error e) := by
  obtain ⟨before, after, result, same, worked, -, outcome⟩ := runStageWorks s t stage
  rw [failed] at outcome
  cases result with
  | error e' =>
    cases outcome
    exact ⟨before, after, same, .inl worked⟩
  | ok => exact ⟨before, after, same, .inr ⟨worked, outcome.symm⟩⟩

theorem compileWorks (s : Session) (t : Target) :
    ∃ begun, Alike { s with info := {}, laidOut := false } begun ∧
      match begun.verifyIf t.flags, runStages t (Stage.activeFor t.flags) begun with
      | .error e, _ => s.compile t = (begun, .error e)
      | .ok (), (u, .error e) => s.compile t = (u, .error e)
      | .ok (), (u, .ok ()) =>
        ∃ ended, Alike { u with laidOut := true } ended ∧ s.compile t = (ended, .ok u.info) := by
  unfold compile
  dsimp only
  generalize begun : { trace s t _ with info := {}, laidOut := false } = b
  have start : Alike { s with info := {}, laidOut := false } b := by
    have traced := Alike.trace s t ("compile " ++ s.func.name ++ " for " ++ Target.name ++ " at " ++
      t.flags.optLevel.name)
    exact begun ▸ ⟨traced.func, traced.analyses, rfl, rfl⟩
  refine ⟨b, start, ?_⟩
  cases b.verifyIf t.flags with
  | error e => rfl
  | ok =>
    cases runStages t (Stage.activeFor t.flags) b with
    | mk u result =>
      cases result with
      | error e => rfl
      | ok => exact ⟨_, .trace _ t _, rfl⟩

theorem compileDone {s u : Session} {t : Target} {info : CodeInfo} (done : s.compile t = (u, .ok info)) :
    ∃ begun last, Alike { s with info := {}, laidOut := false } begun ∧ begun.verifyIf t.flags = .ok () ∧
      runStages t (Stage.activeFor t.flags) begun = (last, .ok ()) ∧ Alike { last with laidOut := true } u ∧
      last.info = info := by
  obtain ⟨begun, same, compiled⟩ := compileWorks s t
  rw [done] at compiled
  split at compiled
  · cases compiled
  · cases compiled
  · rename_i last accepted ran
    obtain ⟨ended, final, now⟩ := compiled
    cases now
    exact ⟨begun, last, same, accepted, ran, final, rfl⟩

theorem compiledOf {s : Session} {t : Target} (compiles : (s.compile t).2.toOption.isSome = true) :
    ∃ u info, s.compile t = (u, .ok info) := by
  cases done : s.compile t with
  | mk u result =>
    rw [done] at compiles
    cases result with
    | error e => cases compiles
    | ok info => exact ⟨u, info, rfl⟩

theorem alwaysActive {flags : Flags} (stage : Stage) (low : stage.info.minLevel = .fastest)
    (free : stage.info.guardsNans = false) : stage.isActive flags = true := by
  simp [Stage.isActive, low, free, OptLevel.rank]

theorem activeAround (flags : Flags) (n : Nat) (stage : Stage) (located : Stage.all[n]? = some stage)
    (low : stage.info.minLevel = .fastest) (free : stage.info.guardsNans = false) : Stage.activeFor flags =
      (Stage.all.take n).filter (·.isActive flags) ++ stage :: (Stage.all.drop (n + 1)).filter (·.isActive flags) := by
  have whole : Stage.all.take n ++ stage :: Stage.all.drop (n + 1) = Stage.all := by
    obtain ⟨below, same⟩ := List.getElem?_eq_some_iff.mp located
    rw [← same, ← List.drop_eq_getElem_cons below, List.take_append_drop]
  calc Stage.activeFor flags
      = (Stage.all.take n ++ stage :: Stage.all.drop (n + 1)).filter (·.isActive flags) :=
        by rw [whole, Stage.activeFor]
    _ = _ := by
      rw [List.filter_append, List.filter_cons_of_pos]
      exact alwaysActive stage low free

theorem runStagesAppend {t : Target} {first rest : List Stage} {s u : Session}
    (done : runStages t (first ++ rest) s = (u, .ok ())) :
    ∃ middle, runStages t first s = (middle, .ok ()) ∧ runStages t rest middle = (u, .ok ()) := by
  induction first generalizing s with
  | nil => exact ⟨s, rfl, done⟩
  | cons stage later ih =>
    simp only [List.cons_append, runStages] at done ⊢
    cases ran : s.runStage t stage with
    | mk next result =>
      rw [ran] at done
      cases result with
      | error e => simp at done
      | ok => exact ih done

theorem runStagesOne {t : Target} {stage : Stage} {s u : Session}
    (done : runStages t [stage] s = (u, .ok ())) : s.runStage t stage = (u, .ok ()) := by
  simp only [runStages] at done
  cases ran : s.runStage t stage with
  | mk next result =>
    rw [ran] at done
    cases result with
    | error e => simp at done
    | ok =>
      simp only [Prod.mk.injEq, and_true] at done
      rw [done]

theorem runStagesCons {t : Target} {stage : Stage} {rest : List Stage} {s u : Session}
    (done : runStages t (stage :: rest) s = (u, .ok ())) :
    ∃ middle, s.runStage t stage = (middle, .ok ()) ∧ runStages t rest middle = (u, .ok ()) := by
  have split : runStages t ([stage] ++ rest) s = (u, .ok ()) := done
  obtain ⟨middle, first, later⟩ := runStagesAppend split
  exact ⟨middle, runStagesOne first, later⟩

theorem runStagesCarry (rel : Func → Func → Prop) (refl : ∀ f, rel f f)
    (trans : ∀ {f g h}, rel f g → rel g h → rel f h) {t : Target} {stages : List Stage}
    (step : ∀ s u, ∀ stage ∈ stages, Session.perform s t stage = (u, .ok ()) → rel s.func u.func) {s u : Session}
    (done : runStages t stages s = (u, .ok ())) : rel s.func u.func := by
  induction stages generalizing s with
  | nil =>
    cases done
    exact refl _
  | cons stage rest ih =>
    obtain ⟨next, first, later⟩ := runStagesCons done
    obtain ⟨before, after, same, worked, ended, -⟩ := runStageDone first
    have here := step before after stage List.mem_cons_self worked
    rw [← same.func, ended.func] at here
    exact trans here (ih (fun s u stage listed => step s u stage (List.mem_cons_of_mem _ listed)) later)

theorem runStagesRelate (rel : Func → Func → Prop) (refl : ∀ f, rel f f)
    (trans : ∀ {f g h}, rel f g → rel g h → rel f h) {t : Target} {stages : List Stage}
    (step : ∀ s, ∀ stage ∈ stages, rel s.func (Session.perform s t stage).1.func) {s u : Session}
    (done : runStages t stages s = (u, .ok ())) : rel s.func u.func := by
  refine runStagesCarry rel refl trans (fun s u stage listed worked => ?_) done
  have here := step s stage listed
  rwa [worked] at here

end Session
end SsaCodegen
