import SsaCodegen.Proofs.Pipeline.Operations
/-! Invariants of sessions. What the work of each stage keeps unless it fails in a certain way, a run of
stages keeps unless it fails in that way. -/
namespace SsaCodegen
open X64 (Target)
namespace Session

def Breaks {α : Type} (bad : Func → Failure → Prop) (ended : Session × Except Failure α) : Prop :=
  ∃ e, ended.2 = .error e ∧ bad ended.1.func e

namespace Breaks
variable {α β : Type} {bad : Func → Failure → Prop} {ended : Session × Except Failure α}

theorem notOk {value : α} (done : ended.2 = .ok value) : ¬ Breaks bad ended := by
  intro breaks
  obtain ⟨e, failed, -⟩ := breaks
  cases done.symm.trans failed

theorem passOn {u : Session × Except Failure β} (breaks : Breaks bad ended) (func : ended.1.func = u.1.func)
    (fails : ∀ e, ended.2 = .error e → u.2 = .error e) : Breaks bad u := by
  obtain ⟨e, failed, now⟩ := breaks
  exact ⟨e, fails e failed, func ▸ now⟩

theorem map {h : α → β} (breaks : Breaks bad ended) : Breaks bad (ended.1, ended.2.map h) :=
  breaks.passOn rfl fun e failed => by rw [failed]; rfl

end Breaks

structure Lasting (holds : Prop → Session → Prop) (bad : Func → Failure → Prop) : Prop where
  mono : ∀ {wrong worse s}, holds wrong s → (wrong → worse) → holds worse s
  same : ∀ {wrong s u}, holds wrong s → s.func = u.func → s.analyses = u.analyses → holds wrong u
  perform : ∀ {wrong s}, holds wrong s → ∀ t stage,
    holds (wrong ∨ Breaks bad (s.perform t stage)) (s.perform t stage).1

namespace Lasting
variable {holds : Prop → Session → Prop} {bad : Func → Failure → Prop} (lasting : Lasting holds bad)
  {wrong : Prop} {s : Session}
include lasting

theorem alike {u : Session} (ok : holds wrong s) (a : Alike s u) : holds wrong u :=
  lasting.same ok a.func a.analyses

theorem done {α : Type} {value : α} (ok : holds (wrong ∨ Breaks bad (s, .ok value)) s) : holds wrong s :=
  lasting.mono ok fun either => either.resolve_right (Breaks.notOk rfl)

theorem runStage (ok : holds wrong s) (t : Target) (stage : Stage) :
    holds (wrong ∨ Breaks bad (s.runStage t stage)) (s.runStage t stage).1 := by
  obtain ⟨before, after, result, same, worked, ended, outcome⟩ := runStageWorks s t stage
  have performed := lasting.perform (lasting.alike ok same) t stage
  rw [worked] at performed
  refine lasting.mono (lasting.alike performed ended) (.imp_right fun breaks => ?_)
  refine breaks.passOn ended.func fun e failed => ?_
  dsimp only at failed
  rw [failed] at outcome
  exact outcome

theorem runStages (ok : holds wrong s) (t : Target) (stages : List Stage) :
    holds (wrong ∨ Breaks bad (runStages t stages s)) (runStages t stages s).1 := by
  induction stages generalizing s with
  | nil => exact lasting.mono ok .inl
  | cons stage rest ih =>
    have next := lasting.runStage ok t stage
    simp only [Session.runStages]
    cases ran : s.runStage t stage with
    | mk u result =>
      rw [ran] at next
      cases result with
      | error e =>
        have traced := Alike.trace u t (stage.name ++ " failed: " ++ e.text)
        exact lasting.mono (lasting.alike next traced) (.imp_right fun breaks =>
          breaks.passOn traced.func fun _ failed => failed)
      | ok => exact ih (lasting.done next)

theorem stageDone {t : Target} {stage : Stage} {u : Session} (ok : holds wrong s)
    (done : s.runStage t stage = (u, .ok ())) : holds wrong u := by
  have ran := lasting.runStage ok t stage
  rw [done] at ran
  exact lasting.done ran

theorem stagesDone {t : Target} {stages : List Stage} {u : Session} (ok : holds wrong s)
    (done : Session.runStages t stages s = (u, .ok ())) : holds wrong u := by
  have ran := lasting.runStages ok t stages
  rw [done] at ran
  exact lasting.done ran

theorem compile (ok : holds wrong s) (t : Target) :
    holds (wrong ∨ Breaks bad (s.compile t)) (s.compile t).1 := by
  obtain ⟨begun, same, compiled⟩ := compileWorks s t
  have start : holds wrong begun := lasting.same ok same.func same.analyses
  have ran := lasting.runStages start t (Stage.activeFor t.flags)
  split at compiled
  · rw [compiled]
    exact lasting.mono start .inl
  · rename_i u e _ failed
    rw [failed] at ran
    rw [compiled]
    exact lasting.mono ran (.imp_right fun breaks =>
      breaks.passOn rfl fun _ failed => congrArg _ (Except.error.inj failed))
  · rename_i u _ done
    obtain ⟨ended, last, compiled⟩ := compiled
    rw [done] at ran
    rw [compiled]
    exact lasting.mono (lasting.same (lasting.done ran) last.func last.analyses) .inl

theorem compileAndEmit (ok : holds wrong s) (t : Target) :
    holds (wrong ∨ Breaks bad (s.compileAndEmit t)) (s.compileAndEmit t).1 := by
  have ran := lasting.compile ok t
  unfold Session.compileAndEmit
  split
  · rename_i u e failed
    rw [failed] at ran
    exact lasting.mono ran (.imp_right fun breaks =>
      breaks.passOn rfl fun _ failed => congrArg _ (Except.error.inj failed))
  · rename_i u info done
    rw [done] at ran
    exact lasting.mono (lasting.alike (lasting.done ran) (.note u _)) .inl

theorem relax (ok : holds wrong s) (t : Target) : holds (wrong ∨ Breaks bad (s.relax t)) (s.relax t).1 := by
  have ran := lasting.runStage (s := { s with laidOut := false }) (lasting.same ok rfl rfl) t .relaxBranches
  unfold Session.relax
  split
  · rename_i u e failed
    rw [failed] at ran
    exact lasting.mono ran (.imp_right fun breaks =>
      breaks.passOn rfl fun _ failed => congrArg _ (Except.error.inj failed))
  · rename_i u done
    rw [done] at ran
    exact lasting.mono (lasting.same (lasting.done ran) rfl rfl) .inl

theorem emitInto (ok : holds wrong s) (buffer : List Byte) : holds wrong (s.emitInto buffer).1 := by
  unfold Session.emitInto
  dsimp only
  split
  · exact ok
  · split
    · exact ok
    · exact lasting.alike ok (.note s _)

end Lasting

end Session
end SsaCodegen
