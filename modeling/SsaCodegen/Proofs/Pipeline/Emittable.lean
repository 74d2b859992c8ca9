import SsaCodegen.Proofs.Legalize.Legalized
import SsaCodegen.Proofs.Lowering.Reads
import SsaCodegen.Proofs.Pipeline.Reached
import SsaCodegen.Proofs.Pipeline.Recipes
/-! What emission relies on, at the end of a compilation with the verifier on. No stage changes the signature, and from
legalization on no stage leaves an instruction that does not fit its encoding. The passes between legalization and the
removal of blocks are told by the checks around them; behind it nothing has to be known of the function. -/
namespace SsaCodegen
open X64

section Passes

theorem legalizeKeepsSignature (f : Func) : (legalize f).1.signature = f.signature := by
  unfold legalize
  split
  · rfl
  · dsimp only
    split
    · rfl
    · dsimp only
      split <;> rfl

theorem insertPreheadersSignature (entries : List LoopInvariant.Entry) (f : Func) :
    (LoopInvariant.insertPreheaders encode? f entries).1.signature = f.signature := by
  induction entries generalizing f with
  | nil => rfl
  | cons e rest ih => exact (ih _).trans (insertPreheaderEnlarged f e).signature

theorem hoistInvariantsSignature (graph : FlowGraph) (loops : LoopForest) (f : Func) :
    (hoistInvariants encode? graph loops f).func.signature = f.signature := by
  have entered := insertPreheadersSignature (loops.loops.filterMap (LoopInvariant.entryOf? f graph)) f
  unfold hoistInvariants
  cases inserted : LoopInvariant.insertPreheaders encode? f _ with
  | mk h changed =>
    rw [inserted] at entered
    cases changed <;> exact (hoistAllShuffled _ _ _).signature.trans entered

end Passes

theorem X64.Emittable.reform {f g : Func} (ready : Emittable f) (r : Reformed f g) : Emittable g where
  wellFormed := r.sameCode.wellFormed ready.wellFormed
  located := r.located ready.wellFormed ready.located
  fitted := ready.fitted.reform r
  signature := r.sameCode.signature ▸ ready.signature
  homes := Session.HasSlots.reform ready.homes r
  lists := Session.ListsSlots.reform ready.lists r

namespace Session
variable {s u : Session} {t : Target}

theorem performSignature (s : Session) (t : Target) (stage : Stage) :
    (s.perform t stage).1.func.signature = s.func.signature := by
  cases stage with
  | flowGraph | dominators | loops | refreshDominators => rfl
  | foldConstants => exact (ConstantFold.folded s.func).choose_spec.2.2
  | canonicalizeNans => rfl
  | legalize =>
    have kept := legalizeKeepsSignature s.func
    simp only [perform, legalizeFunction]
    cases done : legalize s.func with
    | mk f result =>
      rw [done] at kept
      cases result <;> exact kept
  | fuseBranches =>
    simp only [perform, become, fuseCompareBranches]
    split <;> rfl
  | hoistInvariants => exact hoistInvariantsSignature _ _ s.func
  | numberValues =>
    show (numberValues s.withTree.1 s.func).1.signature = s.func.signature
    unfold numberValues
    split <;> rfl
  | removeUnreachable =>
    have kept : (removeUnreachable s.withTree.1 s.func).1.signature = s.func.signature := by
      unfold removeUnreachable
      dsimp only
      split <;> rfl
    simp only [perform, removeUnreachableBlocks]
    split <;> exact kept
  | eliminateDeadCode =>
    show (eliminateDeadCode s.withTree.1 s.func).1.signature = s.func.signature
    rw [(eliminateDeadCodeThins s.withTree.1 s.func).rest]
  | allocateRegisters =>
    rw [performAllocates]
    exact (RegAlloc.runSameCode _ _ _ s.func).signature
  | layOutFrame => exact (layOutFrameKeeps t.limits s.func).1
  | shrinkInstructions => rfl
  | relaxBranches =>
    have kept := (relaxBranchesReforms t.limits s.func).sameCode.signature
    simp only [perform, layOut]
    split <;> exact kept

theorem runSignature {stages : List Stage} (done : runStages t stages s = (u, .ok ())) :
    u.func.signature = s.func.signature :=
  runStagesRelate (fun f g => g.signature = f.signature) (fun _ => rfl) (fun first next => next.trans first)
    (fun s stage _ => performSignature s t stage) done

theorem performFitted {stage : Stage} (late : stage ∈ Stage.all.drop 4)
    (known : stage ∈ Stage.all.take 10 → WellFormed s.func ∧ s.withTree.1 = s.func.tree)
    (done : s.perform t stage = (u, .ok ())) (ok : Fitted s.func) : Fitted u.func := by
  have whole : Fitted (s.perform t stage).1.func := by
    cases stage with
    | flowGraph | foldConstants | canonicalizeNans | legalize => simp [Stage.all] at late
    | dominators | refreshDominators | loops => exact ok
    | fuseBranches => exact fuseCompareBranchesFitted ok
    | hoistInvariants => exact hoistInvariantsFitted _ _ (typedWellFormed (known (by decide)).1) ok
    | numberValues =>
      obtain ⟨wf, own⟩ := known (by decide)
      have fitted := numberValuesFitted wf ok
      rw [← Func.tree, ← own] at fitted
      exact fitted
    | removeUnreachable =>
      simp only [perform, removeUnreachableBlocks]
      split <;> exact removeUnreachableFitted ok
    | eliminateDeadCode => exact eliminateDeadCodeFitted ok
    | allocateRegisters =>
      rw [performAllocates]
      exact allocateFitted ok
    | layOutFrame =>
      simp only [perform, Prod.mk.injEq] at done
      exact layOutFrameFitted (Prod.ext rfl done.2) ok
    | shrinkInstructions => exact ok.reform (shrinkReforms s.func)
    | relaxBranches =>
      have kept := ok.reform (relaxBranchesReforms t.limits s.func)
      simp only [perform, layOut]
      split <;> exact kept
  rwa [done] at whole

theorem lateFitted {stages : List Stage} (late : ∀ stage ∈ stages, stage ∈ Stage.all.drop 10)
    (done : runStages t stages s = (u, .ok ())) (ok : Fitted s.func) : Fitted u.func := by
  refine runStagesCarry (fun f g => Fitted f → Fitted g) (fun _ => id) (fun first next ok => next (first ok))
    (fun s u stage listed done => ?_) done ok
  have behind : stage ∈ Stage.all.drop 4 ∧ stage ∉ Stage.all.take 10 := by
    have all : ∀ stage ∈ Stage.all.drop 10, stage ∈ Stage.all.drop 4 ∧ stage ∉ Stage.all.take 10 := by decide
    exact all stage (late stage listed)
  exact performFitted behind.1 (fun early => absurd early behind.2) done

section Checked
variable (on : t.flags.enableVerifier = true)
include on

theorem middleFitted {stages : List Stage} (middle : ∀ stage ∈ stages, stage ∈ (Stage.all.take 10).drop 4)
    (honest : Honest False s) (wf : WellFormed s.func) (done : runStages t stages s = (u, .ok ()))
    (ok : Fitted s.func) : Fitted u.func := by
  induction stages generalizing s with
  | nil =>
    cases done
    exact ok
  | cons stage rest ih =>
    obtain ⟨next, first, later⟩ := runStagesCons done
    obtain ⟨early, late⟩ : stage ∈ Stage.all.take 10 ∧ stage ∈ Stage.all.drop 4 := by
      have all : ∀ stage ∈ (Stage.all.take 10).drop 4, stage ∈ Stage.all.take 10 ∧ stage ∈ Stage.all.drop 4 := by decide
      exact all stage (middle stage List.mem_cons_self)
    obtain ⟨before, after, same, worked, ended, -⟩ := runStageDone first
    have fitted : Fitted next.func := by
      rw [← ended.func]
      refine performFitted late (fun _ => ?_) worked (same.func ▸ ok)
      exact ⟨same.func ▸ wf, (honest.same same.func same.analyses).tree⟩
    exact ih (fun other listed => middle other (List.mem_cons_of_mem _ listed))
      (Honest.lasting.stageDone honest first) (stageWellFormed on early wf first) later fitted

theorem emittableRun (wf : WellFormed s.func) (current : s.analyses.Current s.func) (honest : Honest False s)
    (done : runStages t (Stage.activeFor t.flags) s = (u, .ok ())) : Emittable u.func := by
  obtain ⟨wellFormed, located⟩ := fittedRun (.inl on) wf current done
  have homes := runHasSlots done
  have lists := runListsSlots done
  rw [activeAround t.flags 3 .legalize rfl rfl rfl] at done
  obtain ⟨before, first, rest⟩ := runStagesAppend done
  obtain ⟨legalized, one, passes⟩ := runStagesCons rest
  obtain ⟨f, made⟩ := legalizeDone one
  have signature := runSignature passes
  have parts : Stage.all.drop 4 = ((Stage.all.take 10).drop 4).append (Stage.all.drop 10) := rfl
  rw [parts, List.append_eq, List.filter_append] at passes
  obtain ⟨trimming, middle, late⟩ := runStagesAppend passes
  have early : ∀ stage ∈ (Stage.all.take 3).filter (·.isActive t.flags), stage ∈ Stage.all.take 10 :=
    fun stage listed => List.take_subset_take_left _ (by decide) (List.mem_of_mem_filter listed)
  have known := stageWellFormed on (by decide) (earlyWellFormed on early wf first) one
  have fitted := middleFitted on (fun stage listed => List.mem_of_mem_filter listed)
    (Honest.lasting.stageDone (Honest.lasting.stagesDone honest first) one) known middle (legalizeFitted made)
  refine ⟨wellFormed, located, lateFitted (fun stage listed => List.mem_of_mem_filter listed) late fitted, ?_, homes,
    lists⟩
  rw [signature]
  exact legalizeSignature made

end Checked

/-- Relaxation lowers the instructions as well, to learn their sizes, in the forms that it has chosen by then. -/
theorem emissionStaysInRange (s : Session) {u : Session} {t : Target} {f : Func} {info : CodeInfo}
    (on : t.flags.enableVerifier = true) (done : (s.setFunction f).compile t = (u, .ok info)) :
    ∀ h, Reformed u.func h → (∀ i ∈ h.insts, lowerChecked h i = some (lowerInst h i)) ∧
      ∀ slot, .slot slot ∈ h.locations → slot < h.stackSlots.length := by
  obtain ⟨begun, last, same, accepted, ran, final, -⟩ := compileDone done
  have wf : WellFormed begun.func := verifiedWellFormed on accepted
  have ready : Emittable last.func := emittableRun on wf (same.analyses ▸ .ofEmpty rfl rfl rfl)
    ⟨wf.closed, same.analyses ▸ .ofEmpty rfl rfl rfl⟩ ran
  rw [final.func] at ready
  intro h reformed
  have ready := ready.reform reformed
  exact ⟨fun i inside => ready.checked inside, ready.homes⟩

def callUnlessZero : Func :=
  { signature := { params := [.i64], returns := [.i64] }
    blocks := [
      { label := "entry", params := [⟨0, .i64⟩]
        insts := [
          { op := .brIcmp, intCond := .eq, operands := [.temp 0, .int 0], targets := ["done", "more"],
            targetArgs := [[], []] }] },
      { label := "more"
        insts := [
          { op := .call, callee := "step", operands := [.temp 0, .int 1] },
          { op := .jump, targets := ["done"], targetArgs := [[]] }] },
      { label := "done", insts := [{ op := .ret, operands := [.temp 0] }] }]
    valueTypes := [.i64] }

theorem callUnlessZeroInRange : ∃ u info, (setFunction {} callUnlessZero).compile {} = (u, .ok info) ∧
    ∀ h, Reformed u.func h → (∀ i ∈ h.insts, lowerChecked h i = some (lowerInst h i)) ∧
      ∀ slot, .slot slot ∈ h.locations → slot < h.stackSlots.length := by
  obtain ⟨u, info, done⟩ := compiledOf (s := setFunction {} callUnlessZero) (t := {}) (by decide +kernel)
  exact ⟨u, info, done, emissionStaysInRange {} rfl done⟩

end Session
end SsaCodegen
