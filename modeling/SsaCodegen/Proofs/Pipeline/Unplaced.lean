import SsaCodegen.Proofs.Layout.Emission
import SsaCodegen.Proofs.Layout.Tables
import SsaCodegen.Proofs.Pipeline.Compile
import SsaCodegen.Proofs.Pipeline.Operations
/-! Ranges of labels in any session. They are refused until relaxation has begun on a function. A compilation in
which it has begun leaves the side tables filled in, whether it fails or not, and they are not emptied again: so
after a failure that comes as late as that, ranges are given for code that was never finished. -/
namespace SsaCodegen
open X64 (Target labelRanges)
namespace Session

section Begun
variable (s : Session) (t : Target)

theorem performEvents (stage : Stage) : (s.perform t stage).1.events = s.events := by
  cases stage with
  | legalize =>
    simp only [perform, legalizeFunction]
    split <;> rfl
  | removeUnreachable =>
    simp only [perform, removeUnreachableBlocks]
    split <;> rfl
  | relaxBranches =>
    simp only [perform, layOut]
    split <;> rfl
  | _ => rfl

theorem begunTrace (message : String) : (s.trace t message).stagesBegun = s.stagesBegun := by
  unfold trace
  split
  · rw [stagesBegunNote]
    exact List.append_nil _
  · rfl

theorem begunPrint (enabled : Bool) (heading : String) (stage : Stage) :
    (s.print enabled heading stage).stagesBegun = s.stagesBegun := by
  unfold print
  split
  · rw [stagesBegunNote]
    exact List.append_nil _
  · rfl

theorem begunPerform (stage : Stage) : (s.perform t stage).1.stagesBegun = s.stagesBegun := by
  rw [stagesBegun, performEvents, ← stagesBegun]

theorem begunRunStage (stage : Stage) : (s.runStage t stage).1.stagesBegun = s.stagesBegun ++ [stage] := by
  have started (s : Session) (message : String) : ((((s.trace t message).note (.stageBegan stage)).print
      (((s.trace t message).note (.stageBegan stage)).printBefore) "before " stage).perform t stage).1.stagesBegun =
      s.stagesBegun ++ [stage] := by
    rw [begunPerform, begunPrint, stagesBegunNote, begunTrace]
  unfold runStage
  dsimp only
  split
  · exact started s _
  · rw [stagesBegunNote, begunPrint]
    exact (List.append_nil _).trans (started s _)

end Begun

structure Ran (s u : Session) (ran : List Stage) : Prop where
  begun : u.stagesBegun = s.stagesBegun ++ ran
  unplaced : .relaxBranches ∉ ran → Unplaced s.func → Unplaced u.func

namespace Ran
variable {s u v : Session} {ran more : List Stage}

theorem quiet (func : u.func = s.func) (begun : u.stagesBegun = s.stagesBegun) : Ran s u [] :=
  ⟨begun.trans (List.append_nil _).symm, fun _ unplaced => func ▸ unplaced⟩

theorem trans (first : Ran s u ran) (second : Ran u v more) : Ran s v (ran ++ more) where
  begun := by rw [second.begun, first.begun, List.append_assoc]
  unplaced never unplaced := by
    rw [List.mem_append, not_or] at never
    exact second.unplaced never.2 (first.unplaced never.1 unplaced)

end Ran

theorem performUnplaced {s : Session} (unplaced : Unplaced s.func) (t : Target) {stage : Stage}
    (other : stage ≠ .relaxBranches) : Unplaced (s.perform t stage).1.func := by
  cases stage with
  | relaxBranches => exact absurd rfl other
  | flowGraph | dominators | refreshDominators | loops => exact unplaced
  | foldConstants => exact unplaced.kept (foldConstantsTables s.func)
  | canonicalizeNans => exact unplaced.kept (canonicalizeNansTables s.func)
  | fuseBranches => exact unplaced.kept (fuseCompareBranchesTables X64.encode? s.func)
  | legalize =>
    have kept := unplaced.kept (legalizeTables s.func)
    simp only [perform, legalizeFunction]
    split <;> exact kept
  | hoistInvariants => exact unplaced.kept (LoopInvariant.hoistInvariantsTables X64.encode? _ _ s.func)
  | numberValues => exact unplaced.kept (numberValuesTables s.withTree.1 s.func)
  | removeUnreachable =>
    have kept := unplaced.kept (removeUnreachableTables s.withTree.1 s.func)
    simp only [perform, removeUnreachableBlocks]
    split <;> exact kept
  | eliminateDeadCode => exact unplaced.kept (eliminateDeadCodeTables s.withTree.1 s.func)
  | allocateRegisters =>
    rw [performAllocates]
    exact unplaced.kept (allocateTables X64.registerFile _ s.withTree.1 s.func)
  | layOutFrame => exact layOutFrameUnplaced unplaced
  | shrinkInstructions => exact unplaced.kept (shrinkInstructionsTables s.func)

theorem runStageRan (s : Session) (t : Target) (stage : Stage) : Ran s (s.runStage t stage).1 [stage] := by
  refine ⟨begunRunStage s t stage, fun never unplaced => ?_⟩
  obtain ⟨before, after, result, same, worked, ended, -⟩ := runStageWorks s t stage
  have performed := performUnplaced (same.func ▸ unplaced) t fun now => never (now ▸ List.mem_singleton_self _)
  rw [worked] at performed
  exact ended.func ▸ performed

theorem runStagesRan (s : Session) (t : Target) (stages : List Stage) :
    ∃ ran, ran <+: stages ∧ Ran s (runStages t stages s).1 ran := by
  induction stages generalizing s with
  | nil => exact ⟨[], List.prefix_refl _, .quiet rfl rfl⟩
  | cons stage rest ih =>
    have first := runStageRan s t stage
    simp only [runStages]
    cases ran : s.runStage t stage with
    | mk u result =>
      rw [ran] at first
      cases result with
      | error e =>
        have traced := Alike.trace u t (stage.name ++ " failed: " ++ e.text)
        exact ⟨[stage], ⟨rest, rfl⟩, first.trans (.quiet traced.func.symm (begunTrace ..))⟩
      | ok =>
        obtain ⟨more, part, later⟩ := ih u
        exact ⟨stage :: more, List.cons_prefix_cons.mpr ⟨rfl, part⟩, first.trans later⟩

theorem compileRuns (s : Session) (t : Target) : ∃ begun stages, begun.func = s.func ∧
    begun.stagesBegun = s.stagesBegun ∧ (stages = [] ∨ stages = Stage.activeFor t.flags) ∧
    (s.compile t).1.func = (runStages t stages begun).1.func ∧
    (s.compile t).1.stagesBegun = (runStages t stages begun).1.stagesBegun := by
  have traced (s : Session) (message : String) : (s.trace t message).func = s.func ∧
      (s.trace t message).stagesBegun = s.stagesBegun := ⟨(Alike.trace s t message).func.symm, begunTrace ..⟩
  unfold compile
  dsimp only
  generalize begun : { trace s t _ with info := {}, laidOut := false } = b
  have start : b.func = s.func ∧ b.stagesBegun = s.stagesBegun := begun ▸ traced s _
  cases b.verifyIf t.flags with
  | error e => exact ⟨b, [], start.1, start.2, .inl rfl, rfl, rfl⟩
  | ok =>
    refine ⟨b, _, start.1, start.2, .inr rfl, ?_⟩
    cases runStages t (Stage.activeFor t.flags) b with
    | mk u result =>
      cases result with
      | error e => exact ⟨rfl, rfl⟩
      | ok => exact traced { u with laidOut := true } _

theorem compileRan (s : Session) (t : Target) : ∃ ran, Ran s (s.compile t).1 ran := by
  obtain ⟨begun, stages, func, events, -, func', events'⟩ := compileRuns s t
  obtain ⟨ran, -, done⟩ := runStagesRan begun t stages
  exact ⟨ran, by rw [events', done.begun, events], fun never unplaced =>
    func' ▸ done.unplaced never (func ▸ unplaced)⟩

theorem relaxRan (s : Session) (t : Target) : ∃ ran, Ran s (s.relax t).1 ran := by
  have done := runStageRan { s with laidOut := false } t .relaxBranches
  refine ⟨[.relaxBranches], ?_⟩
  unfold relax
  split
  · rename_i u e failed
    rw [failed] at done
    exact ⟨done.begun, done.unplaced⟩
  · rename_i u relaxed
    rw [relaxed] at done
    exact ⟨done.begun, done.unplaced⟩

def begunSince (s u : Session) : List Stage := u.stagesBegun.drop s.stagesBegun.length

theorem Ran.since {s u : Session} {ran : List Stage} (done : Ran s u ran) : begunSince s u = ran := by
  rw [begunSince, done.begun, List.drop_left]

end Session

open Session

def Operation.RelaxedBy (began : Prop) (s : Session) : Operation → Prop
  | .setFunction f => ¬ Unplaced f
  | .clear => False
  | op => began ∨ .relaxBranches ∈ begunSince s (op.apply s).1

def Session.Relaxed (began : Prop) (s : Session) : List Operation → Prop
  | [] => began
  | op :: rest => Relaxed (op.RelaxedBy began s) (op.apply s).1 rest

namespace Session

theorem applyUnplaced {began : Prop} {s : Session} (ok : began ∨ Unplaced s.func) (op : Operation) :
    op.RelaxedBy began s ∨ Unplaced (op.apply s).1.func := by
  have runs {u : Session} {ran : List Stage} (done : Ran s u ran) :
      (began ∨ .relaxBranches ∈ begunSince s u) ∨ Unplaced u.func := by
    rw [done.since]
    by_cases relaxed : .relaxBranches ∈ ran
    · exact .inl (.inr relaxed)
    · exact ok.imp .inl (done.unplaced relaxed)
  have analysed (a : Analyses) : Ran s { s with analyses := a } [] := .quiet rfl rfl
  cases op with
  | setFunction f =>
    by_cases unplaced : Unplaced f
    · exact .inr ⟨unplaced.offsets, unplaced.framed⟩
    · exact .inl unplaced
  | clear => exact .inr ⟨rfl, fun laid => nomatch laid⟩
  | compile t =>
    obtain ⟨ran, done⟩ := compileRan s t
    exact runs done
  | compileAndEmit t =>
    obtain ⟨ran, done⟩ := compileRan s t
    have emitted : Ran s (s.compileAndEmit t).1 ran := by
      unfold compileAndEmit
      split
      · rename_i u e failed
        rwa [failed] at done
      · rename_i u info compiled
        rw [compiled] at done
        have noted : Ran u (u.note (.emitting info.totalSize info)) [] :=
          .quiet rfl ((stagesBegunNote ..).trans (List.append_nil _))
        exact List.append_nil ran ▸ done.trans noted
    exact runs emitted
  | pass t p => exact runs (runStageRan s t p.1)
  | relax t =>
    obtain ⟨ran, done⟩ := relaxRan s t
    exact runs done
  | emitInto buffer =>
    have emitted : Ran s (s.emitInto buffer).1 [] := by
      unfold emitInto
      dsimp only
      split
      · exact .quiet rfl rfl
      · split
        · exact .quiet rfl rfl
        · exact .quiet rfl ((stagesBegunNote ..).trans (List.append_nil _))
    exact runs emitted
  | computeGraph | computeTree | computeLoops | computeFlow | graph | tree | loops => exact runs (analysed _)

theorem afterUnplaced {began : Prop} {s : Session} (ok : began ∨ Unplaced s.func) (ops : List Operation) :
    Relaxed began s ops ∨ Unplaced (s.after ops).func := by
  induction ops generalizing s began with
  | nil => exact ok
  | cons op rest ih => exact ih (applyUnplaced ok op)

section Relaxing
variable {s u : Session} {t : Target}

theorem relaxStagePlaces (s : Session) (t : Target) :
    let u := (s.runStage t .relaxBranches).1
    u.func.frame = s.func.frame ∧ u.func.blockOffsets.length = u.func.blocks.length := by
  obtain ⟨before, after, result, same, worked, ended, -⟩ := runStageWorks s t .relaxBranches
  have func : (before.perform t .relaxBranches).1.func = (X64.relaxBranches t.limits before.func).1 := by
    simp only [perform, layOut]
    split <;> rfl
  rw [worked] at func
  dsimp only
  rw [← ended.func, func, same.func]
  exact ⟨(X64.relaxBranchesReforms ..).frame, X64.relaxBranchesPlaces ..⟩

theorem activeParts (flags : Flags) : ∃ front back, Stage.activeFor flags =
    (front ++ .layOutFrame :: back) ++ [.relaxBranches] ∧ .relaxBranches ∉ front ++ .layOutFrame :: back ∧
      ∀ stage ∈ back, stage = .shrinkInstructions := by
  refine ⟨(Stage.all.take 13).filter (·.isActive flags), [.shrinkInstructions].filter (·.isActive flags), ?_, ?_, ?_⟩
  · have split : Stage.activeFor flags = (Stage.all.take 13 ++ [Stage.layOutFrame, .shrinkInstructions] ++
        [Stage.relaxBranches]).filter (·.isActive flags) := rfl
    rw [split, List.filter_append, List.filter_append]
    simp only [List.filter_cons, List.filter_nil, alwaysActive .layOutFrame rfl rfl,
      alwaysActive .relaxBranches rfl rfl, if_true]
  · rw [List.mem_append, List.mem_cons, List.mem_filter, List.mem_filter]
    simp [Stage.all]
  · exact fun stage listed => List.mem_singleton.mp (List.mem_of_mem_filter listed)

theorem framedBy {front back : List Stage} (shrinks : ∀ stage ∈ back, stage = .shrinkInstructions)
    (done : runStages t (front ++ .layOutFrame :: back) s = (u, .ok ())) : u.func.frame.laidOut = true := by
  obtain ⟨middle, -, ran⟩ := runStagesAppend done
  obtain ⟨framed, laid, rest⟩ := runStagesCons ran
  have start : framed.func.frame.laidOut = true := by
    obtain ⟨before, after, -, work, ended, -⟩ := runStageDone laid
    simp only [perform, become, Prod.mk.injEq] at work
    obtain ⟨rfl, ok⟩ := work
    rw [← ended.func, (X64.frameLaidOf (Prod.ext rfl ok)).frame]
  have kept : u.func.frame = framed.func.frame := by
    refine runStagesRelate (fun f g => g.frame = f.frame) (fun _ => rfl) (fun first later => later.trans first)
      (fun s stage listed => ?_) rest
    rw [shrinks stage listed]
    rfl
  rw [kept, start]

theorem begunPlaces (s : Session) (t : Target) (relaxed : .relaxBranches ∈ begunSince s (s.compile t).1) :
    let f := (s.compile t).1.func
    f.frame.laidOut = true ∧ f.blockOffsets.length = f.blocks.length := by
  obtain ⟨begun, stages, -, events, which, func, events'⟩ := compileRuns s t
  rw [begunSince, events', ← events, ← begunSince] at relaxed
  dsimp only
  rw [func]
  rcases which with rfl | rfl
  · rw [begunSince, runStages, List.drop_length] at relaxed
    cases relaxed
  · obtain ⟨front, back, active, earlier, shrinks⟩ := activeParts t.flags
    obtain ⟨ran, part, done⟩ := runStagesRan begun t (front ++ .layOutFrame :: back)
    rw [active, runStagesThen] at relaxed ⊢
    cases first : runStages t (front ++ .layOutFrame :: back) begun with
    | mk u result =>
      rw [first] at relaxed done
      cases result with
      | error e =>
        rw [done.since] at relaxed
        exact absurd (part.subset relaxed) earlier
      | ok =>
        have framed := framedBy shrinks first
        have places := relaxStagePlaces u t
        have last : (runStages t [.relaxBranches] u).1.func = (u.runStage t .relaxBranches).1.func := by
          simp only [runStages]
          cases ran : u.runStage t .relaxBranches with
          | mk v result =>
            cases result with
            | error e => exact (Alike.trace ..).func.symm
            | ok => rfl
        dsimp only
        rw [last, places.1]
        exact ⟨framed, places.2⟩

theorem framedCompile {info : CodeInfo} (done : s.compile t = (u, .ok info)) : u.func.frame.laidOut = true := by
  obtain ⟨_, ended, -, -, ran, last, -⟩ := compileDone done
  obtain ⟨front, back, active, -, shrinks⟩ := activeParts t.flags
  rw [active] at ran
  obtain ⟨framed, first, relaxed⟩ := runStagesAppend ran
  have kept := (relaxStagePlaces framed t).1
  rw [runStagesOne relaxed] at kept
  rw [← last.func]
  exact kept ▸ framedBy shrinks first

theorem compiledRanges {info : CodeInfo} (done : s.compile t = (u, .ok info)) :
    u.func.blockOffsets = X64.startsFrom 0 (u.func.blocks.map (X64.Layout.blockSize u.func)) ∧
      ∃ ranges, labelRanges u.func = .ok ranges := by
  obtain ⟨⟨⟨codeEnd, placed, -⟩, -, -⟩, -⟩ := laidOutCompile done
  refine ⟨placed.starts, labelRangesGiven (framedCompile done) ?_⟩
  rw [placed.starts, X64.lengthStarts, List.length_map]

end Relaxing

theorem relaxFunc (s : Session) (t : Target) :
    (s.relax t).1.func = ({ s with laidOut := false }.runStage t .relaxBranches).1.func := by
  unfold relax
  split <;> rename_i ran <;> rw [ran]

/-- In every sequence of operations the ranges of labels are refused while relaxation has not begun on the function.
A compilation in which it has begun gives ranges, even if it fails; a relaxation refuses them only if the frame is not
laid out. -/
theorem rangesAwaitRelaxation (start : Func) (ops : List Operation) :
    let s := (ofFunc start).after ops
    (s.func.valueLabels ≠ [] → Relaxed (¬ Unplaced start) (ofFunc start) ops ∨
      labelRanges s.func = .error (.noLayoutForRanges s.func.name)) ∧
    (∀ t, .relaxBranches ∈ begunSince s (s.compile t).1 → ∃ ranges, labelRanges (s.compile t).1.func = .ok ranges) ∧
    ∀ t, let f := (s.relax t).1.func
      f.valueLabels ≠ [] → (labelRanges f = .error (.noLayoutForRanges f.name) ↔ s.func.frame.laidOut = false) := by
  refine ⟨fun labelled => ?_, fun t relaxed => ?_, fun t labelled => ?_⟩
  · have either : ¬ Unplaced start ∨ Unplaced (ofFunc start).func := (Classical.em _).symm
    exact (afterUnplaced either ops).imp_right fun unplaced => unplaced.refused labelled
  · obtain ⟨laid, placed⟩ := begunPlaces _ t relaxed
    exact labelRangesGiven laid placed
  · rw [labelRangesRefused labelled, relaxFunc]
    obtain ⟨frame, placed⟩ := relaxStagePlaces { (ofFunc start).after ops with laidOut := false } t
    rw [frame]
    exact or_iff_left (not_not.mpr placed)

def namedReturn : Func :=
  { name := "f"
    signature := { params := [.i64], returns := [.i64] }
    blocks := [{ label := "entry", params := [⟨0, .i64⟩], insts := [{ op := .ret, operands := [.temp 0] }] }]
    valueTypes := [.i64]
    valueLabels := [⟨0, 3⟩] }

def smallCode : Target := { limits := { maxFunctionBytes := 10 } }

def smallFrame : Target := { limits := { maxFrameBytes := 8 } }

/-- Code over the limit, and a second compilation that is refused its frame: both fail, and both leave ranges. -/
theorem refusedCodeHasRanges :
    let given := (ofFunc {}).after [.setFunction namedReturn]
    let compiled := given.after [.compile {}]
    (given.compile smallCode).2 = .error (.codeTooLarge "f" 22 10) ∧
      labelRanges (given.compile smallCode).1.func = .ok [(3, [⟨.reg X64.rbx, 12, 22⟩])] ∧
      (compiled.compile smallFrame).2 = .error (.frameTooLarge 32 8) ∧
      labelRanges (compiled.compile smallFrame).1.func = .ok [(3, [⟨.reg X64.rbx, 0, 10⟩])] := by
  decide +kernel

end Session
end SsaCodegen
