import SsaCodegen.Proofs.Flow.Entry
import SsaCodegen.Proofs.Pipeline.Current
/-! The prologue in any session. Every operation keeps it at the entry of a function whose frame is laid out,
but for one: a layout that is refused has dropped the earlier prologue by then and leaves the frame marked as
laid out. -/
namespace SsaCodegen

theorem EntryFramed.framed {f : Func} (ok : EntryFramed f) : Locations.frameViolations f = [] := by
  unfold Locations.frameViolations
  split
  · rfl
  · rename_i entry rest blocks
    obtain ⟨-, opens, -⟩ := ok entry rest blocks
    cases laid : f.frame.laidOut with
    | false => rfl
    | true =>
      obtain ⟨p, others, insts, op, -⟩ := (opens laid).first
      rw [insts, List.head?_cons, Option.map_some, op]
      rfl

theorem verifiedEntryFramed {f : Func} (verified : verifyFunction f = []) (unframed : f.frame.laidOut = false) :
    f.Closed ∧ EntryFramed f := by
  have ok := verifiedIff.mp verified
  refine ⟨ok.closed, fun entry rest blocks => ⟨?_, fun laid => ?_, ?_⟩⟩
  · obtain ⟨body, last, same, ends, -⟩ := ok.ended entry (blocks ▸ List.mem_cons_self)
    exact same ▸ concludesAppend.mpr ends
  · exact Bool.noConfusion (unframed.symm.trans laid)
  · have labels := ok.labels
    rw [Func.labels, blocks, List.map_cons] at labels
    exact (List.nodup_cons.mp labels).1

namespace X64
open FrameLayout

variable {limits : Limits} {f g : Func}

theorem layOutFrameEntryFramed (done : layOutFrame limits f = (g, .ok ())) (ok : EntryFramed f) : EntryFramed g := by
  obtain ⟨entry, rest, was, now⟩ := (frameLaidOf done).blocks
  intro a as blocks
  rw [now] at blocks
  cases blocks
  obtain ⟨ends, -, alone⟩ := ok entry rest was
  have ends := (dropPrologueReshapes entry.insts).concludes ends
  exact ⟨(concludesCons (concludesSome ends)).mpr ends, fun _ => opensCons.mpr ⟨rfl, rfl⟩, alone⟩

structure Refused (limits : Limits) (f g : Func) (e : Failure) : Prop where
  large : ∃ bytes, e = .frameTooLarge bytes limits.frameLimit ∧ limits.frameLimit < bytes
  entry : ∃ entry rest, f.blocks = entry :: rest ∧
    g = { f with blocks := { entry with insts := dropPrologue entry.insts } :: rest }

theorem layOutFrameRefused {e : Failure} (failed : layOutFrame limits f = (g, .error e)) :
    (f.blocks = [] ∧ e = .noEntryBlock ∧ g = f) ∨ Refused limits f g e := by
  unfold layOutFrame at failed
  split at failed
  · rename_i blocks
    cases failed
    exact .inl ⟨blocks, rfl, rfl⟩
  · rename_i entry rest blocks
    dsimp only at failed
    split at failed
    · rename_i large
      cases failed
      exact .inr ⟨⟨_, rfl, large⟩, entry, rest, blocks, rfl⟩
    · cases failed

namespace Refused
variable {e : Failure} (refused : Refused limits f g e)
include refused

theorem same : g = f ↔ (f.block 0).insts.head?.map Inst.op ≠ some .prologue := by
  obtain ⟨entry, rest, blocks, rfl⟩ := refused.entry
  have kept : dropPrologue entry.insts = entry.insts ↔ entry.insts.head?.map Inst.op ≠ some .prologue := by
    cases entry.insts with
    | nil => simp [dropPrologue]
    | cons p body =>
      rw [dropPrologue]
      by_cases op : p.op = .prologue
      · simp [op]
      · simp [op]
  rw [Func.block, blocks, List.getD_cons_zero, ← kept]
  constructor
  · intro same
    have here := congrArg Func.blocks same
    rw [blocks] at here
    exact congrArg Block.insts (List.cons.inj here).1
  · intro same
    rw [same, ← blocks]

theorem entered (ok : EntryFramed f) (unframed : f.frame.laidOut = false) : EntryFramed g := by
  obtain ⟨entry, rest, blocks, rfl⟩ := refused.entry
  intro a as same
  cases same
  obtain ⟨ends, -, alone⟩ := ok entry rest blocks
  exact ⟨(dropPrologueReshapes entry.insts).concludes ends, fun laid => Bool.noConfusion (unframed.symm.trans laid),
    alone⟩

end Refused
end X64

def Analyses.Sized (a : Analyses) : Prop := ∀ g, a.graph? = some g → g.preds.length = g.size

namespace Analyses.Sized
variable {a : Analyses} (ok : a.Sized)

theorem ofEmpty (graph : a.graph? = none) : a.Sized := fun _ present => nomatch graph.symm.trans present

theorem computeGraph (a : Analyses) (f : Func) : (a.computeGraph f).2.Sized := fun g cached => by
  cases (graphStored a f).symm.trans cached
  simp [FlowGraph.ofFunc, FlowGraph.size]

include ok

theorem sameGraph {b : Analyses} (same : b.graph = a.graph) : b.Sized := fun g cached =>
  ok g (by rwa [graph?, ← same])

theorem needGraph (f : Func) : (a.needGraph f).2.Sized := by
  unfold Analyses.needGraph
  split
  · exact ok
  · exact computeGraph a f

theorem computeTree (f : Func) : (a.computeTree f).2.Sized := (ok.needGraph f).sameGraph rfl

theorem needTree (f : Func) : (a.needTree f).2.Sized := by
  unfold Analyses.needTree
  dsimp only
  split
  · exact ok.needGraph f
  · exact (ok.needGraph f).computeTree f

theorem computeLoops (f : Func) : (a.computeLoops f).2.Sized := ((ok.needTree f).needGraph f).sameGraph rfl

theorem needLoops (f : Func) : (a.needLoops f).2.Sized := by
  unfold Analyses.needLoops
  dsimp only
  split
  · exact ok.needTree f
  · exact (ok.needTree f).computeLoops f

omit ok in
theorem refreshFlow (a : Analyses) (f : Func) : (a.refreshFlow f).Sized := (computeGraph a f).computeTree f

omit ok in
theorem refreshAll (a : Analyses) (f : Func) : (a.refreshAll f).Sized := (refreshFlow a f).computeLoops f

theorem inside {wrong : Prop} {f : Func} (tells : a.Tells wrong f) :
    (a.needGraph f).1.preds.length ≤ f.blocks.length := by
  unfold Analyses.needGraph
  split
  · rename_i g current
    obtain ⟨cached, source⟩ := Analyses.currentGraphIff.mp current
    rw [ok g cached]
    rcases (tells.graph g cached).2 source with rfl | ⟨-, less⟩
    · exact Nat.le_of_eq (FlowGraph.sizeOfFunc f)
    · exact Nat.le_of_lt less
  · rw [graphMade]
    simp [FlowGraph.ofFunc]

end Analyses.Sized

open X64 (Target)
namespace Session

def LosesFrame (f : Func) (e : Failure) : Prop :=
  f.frame.laidOut = true ∧ ∃ bytes limit, e = .frameTooLarge bytes limit

theorem performSized {s : Session} (sized : s.analyses.Sized) (t : Target) (stage : Stage) :
    (s.perform t stage).1.analyses.Sized := by
  cases stage with
  | flowGraph => exact .computeGraph _ _
  | foldConstants | canonicalizeNans | fuseBranches | layOutFrame | shrinkInstructions => exact sized
  | legalize =>
    simp only [Session.perform, legalizeFunction]
    split
    · exact .computeGraph _ _
    · exact sized.sameGraph rfl
  | dominators | refreshDominators => exact sized.computeTree _
  | loops => exact sized.computeLoops _
  | hoistInvariants => exact .refreshAll _ _
  | numberValues | eliminateDeadCode => exact sized.needTree _
  | removeUnreachable =>
    simp only [Session.perform, removeUnreachableBlocks]
    split
    · exact .computeGraph _ _
    · exact sized.needTree _
  | allocateRegisters => exact (sized.needTree _).needGraph _
  | relaxBranches =>
    simp only [Session.perform, layOut]
    split <;> exact sized

theorem performEntryFramed {s : Session} (honest : Honest True s) (sized : s.analyses.Sized) (ok : EntryFramed s.func)
    (t : Target) (stage : Stage) :
    Breaks LosesFrame (s.perform t stage) ∨ EntryFramed (s.perform t stage).1.func := by
  have keep {f : Func} (kept : EntryKept s.func.blocks f.blocks ∧ f.frame = s.func.frame) : EntryFramed f :=
    ok.kept kept.1 kept.2
  cases stage with
  | flowGraph | dominators | refreshDominators | loops => exact .inr ok
  | foldConstants =>
    refine .inr (keep ⟨foldConstantsEntry s.func, ?_⟩)
    simp only [Session.perform, become, foldConstants]
    split <;> rfl
  | canonicalizeNans => exact .inr (keep ⟨canonicalizeNansEntry s.func, rfl⟩)
  | fuseBranches =>
    refine .inr (keep ⟨fuseCompareBranchesEntry X64.encode? s.func, ?_⟩)
    simp only [Session.perform, become, fuseCompareBranches]
    split <;> rfl
  | legalize =>
    refine .inr ?_
    have kept := X64.legalizeEntry s.func
    simp only [Session.perform, legalizeFunction]
    split <;> exact keep kept
  | hoistInvariants =>
    exact .inr (hoistInvariantsEntry X64.encode? _ ok ((sized.needLoops _).inside honest.tells.needLoops))
  | numberValues => exact .inr (keep (numberValuesEntry s.withTree.1 s.func))
  | removeUnreachable =>
    refine .inr ?_
    have kept := removeUnreachableEntry s.withTree.1 s.func
    simp only [Session.perform, removeUnreachableBlocks]
    split <;> exact keep kept
  | eliminateDeadCode => exact .inr (keep (eliminateDeadCodeEntry s.withTree.1 s.func))
  | allocateRegisters =>
    refine .inr (keep ?_)
    rw [performAllocates]
    exact allocateEntry X64.registerFile _ s.withTree.1 s.func
  | layOutFrame =>
    simp only [Session.perform]
    cases laid : X64.layOutFrame t.limits s.func with
    | mk f result =>
      cases result with
      | ok => exact .inr (X64.layOutFrameEntryFramed laid ok)
      | error e =>
        rcases X64.layOutFrameRefused laid with ⟨-, -, rfl⟩ | refused
        · exact .inr ok
        · cases framed : s.func.frame.laidOut with
          | false => exact .inr (refused.entered ok framed)
          | true =>
            obtain ⟨bytes, large, -⟩ := refused.large
            obtain ⟨entry, rest, -, rfl⟩ := refused.entry
            exact .inl ⟨e, rfl, framed, bytes, _, large⟩
  | shrinkInstructions =>
    have formed := X64.shrinkReforms s.func
    exact .inr (keep ⟨formed.entry, formed.frame⟩)
  | relaxBranches =>
    have formed := X64.relaxBranchesReforms t.limits s.func
    refine .inr ?_
    simp only [Session.perform, layOut]
    split <;> exact keep ⟨formed.entry, formed.frame⟩

structure KeepsPrologue (lost : Prop) (s : Session) : Prop where
  honest : Honest True s
  sized : s.analyses.Sized
  entered : lost ∨ EntryFramed s.func

namespace KeepsPrologue
variable {lost : Prop} {s : Session}

theorem mono {worse : Prop} (ok : KeepsPrologue lost s) (le : lost → worse) : KeepsPrologue worse s :=
  ⟨ok.honest, ok.sized, ok.entered.imp_left le⟩

theorem lasting : Lasting KeepsPrologue LosesFrame where
  mono := mono
  same ok func analyses := ⟨ok.honest.same func analyses, analyses ▸ ok.sized, func ▸ ok.entered⟩
  perform ok t stage := by
    refine ⟨(ok.honest.perform t stage).mono fun _ => trivial, performSized ok.sized t stage, ?_⟩
    rcases ok.entered with gone | entered
    · exact .inl (.inl gone)
    · exact (performEntryFramed ok.honest ok.sized entered t stage).imp_left .inr

end KeepsPrologue

def Admits : Operation → Prop
  | .setFunction f => f.Closed ∧ EntryFramed f
  | _ => True

theorem KeepsPrologue.apply {lost : Prop} {s : Session} (ok : KeepsPrologue lost s) (op : Operation)
    (admits : Admits op) : KeepsPrologue (lost ∨ Breaks LosesFrame (op.apply s)) (op.apply s).1 := by
  have analysed {a : Analyses} (honest : Honest True { s with analyses := a }) (sized : a.Sized) :
      KeepsPrologue (lost ∨ Breaks LosesFrame ({ s with analyses := a }, (.ok none : Except Failure (Option CodeInfo))))
        { s with analyses := a } := ⟨honest, sized, ok.entered.imp_left .inl⟩
  have honest := ok.honest
  cases op with
  | setFunction f => exact ⟨⟨admits.1, .ofEmpty rfl rfl rfl⟩, .ofEmpty rfl, .inr admits.2⟩
  | clear => exact ⟨⟨List.forall_mem_nil _, .ofEmpty rfl rfl rfl⟩, .ofEmpty rfl,
    .inr fun _ _ present => nomatch present⟩
  | compile t => exact (lasting.compile ok t).mono (.imp_right .map)
  | compileAndEmit t => exact (lasting.compileAndEmit ok t).mono (.imp_right .map)
  | pass t p => exact (lasting.runStage ok t p.1).mono (.imp_right .map)
  | relax t => exact (lasting.relax ok t).mono (.imp_right .map)
  | emitInto buffer => exact (lasting.emitInto ok buffer).mono .inl
  | computeGraph => exact analysed ⟨honest.closed, honest.tells.computeGraph _⟩ (.computeGraph _ _)
  | computeTree => exact analysed ⟨honest.closed, honest.tells.computeTree.1⟩ (ok.sized.computeTree _)
  | computeLoops => exact analysed ⟨honest.closed, honest.tells.computeLoops⟩ (ok.sized.computeLoops _)
  | computeFlow => exact analysed ⟨honest.closed, honest.tells.refreshFlow _⟩ (.refreshFlow _ _)
  | graph => exact analysed ⟨honest.closed, honest.tells.needGraph.1⟩ (ok.sized.needGraph _)
  | tree => exact analysed ⟨honest.closed, honest.tells.needTree.1⟩ (ok.sized.needTree _)
  | loops => exact analysed ⟨honest.closed, honest.tells.needLoops⟩ (ok.sized.needLoops _)

def FrameLost (s : Session) : List Operation → Prop
  | [] => False
  | op :: rest => Breaks LosesFrame (op.apply s) ∨ FrameLost (op.apply s).1 rest

theorem KeepsPrologue.after {lost : Prop} {s : Session} (ok : KeepsPrologue lost s) {ops : List Operation}
    (admits : ∀ op ∈ ops, Admits op) : KeepsPrologue (lost ∨ FrameLost s ops) (s.after ops) := by
  induction ops generalizing s lost with
  | nil => exact ok.mono .inl
  | cons op rest ih =>
    obtain ⟨first, later⟩ := List.forall_mem_cons.mp admits
    exact (ih (ok.apply op first) later).mono or_assoc.mp

/-- A layout that fails leaves the function as it was, unless that opens with the prologue of an earlier one:
then the prologue is gone, and nothing else. In every sequence of operations in which this has not happened to a
function whose frame was laid out, such a function opens with its prologue. -/
theorem prologueKeptUnlessRefused (start : Func) (ops : List Operation) (closed : start.Closed)
    (entered : EntryFramed start) (admits : ∀ op ∈ ops, Admits op) :
    (∀ limits f g e, X64.layOutFrame limits f = (g, .error e) →
      (f.blocks = [] ∧ e = .noEntryBlock ∧ g = f) ∨ X64.Refused limits f g e ∧
        (g = f ↔ (f.block 0).insts.head?.map Inst.op ≠ some .prologue)) ∧
    (Locations.frameViolations ((ofFunc start).after ops).func = [] ∨ FrameLost (ofFunc start) ops) := by
  refine ⟨fun limits f g e failed => ?_, ?_⟩
  · exact (X64.layOutFrameRefused failed).imp_right fun refused => ⟨refused, refused.same⟩
  · have fresh : KeepsPrologue False (ofFunc start) := ⟨⟨closed, .ofEmpty rfl rfl rfl⟩, .ofEmpty rfl, .inr entered⟩
    rcases (fresh.after admits).entered with (never | lost) | entered
    · exact never.elim
    · exact .inr lost
    · exact .inl entered.framed

def returnGiven : Func :=
  { signature := { params := [.i64], returns := [.i64] }
    blocks := [{ label := "entry", params := [⟨0, .i64⟩]
                 insts := [{ op := .ret, operands := [.temp 0], enc := .ofRecipe .ret }] }]
    valueTypes := [.i64]
    locations := [.reg X64.rbx] }

def roomy : Target := { flags := { enableVerifier := false } }

def cramped : Target := { roomy with limits := { maxFrameBytes := 16 } }

def framedLater : List Operation :=
  [.setFunction returnGiven, .pass cramped ⟨.layOutFrame, rfl⟩, .pass roomy ⟨.layOutFrame, rfl⟩]

theorem refusedFirstKeepsPrologue : Func.Closed {} ∧ EntryFramed {} ∧ (∀ op ∈ framedLater, Admits op) ∧
    ((ofFunc {}).after framedLater).func.frame.laidOut = true ∧
    Locations.frameViolations ((ofFunc {}).after framedLater).func = [] := by
  have closed : Func.Closed {} := List.forall_mem_nil _
  have entered : EntryFramed {} := by
    intro entry rest blocks
    cases blocks
  have given : returnGiven.Closed ∧ EntryFramed returnGiven := verifiedEntryFramed (by decide) rfl
  have admits : ∀ op ∈ framedLater, Admits op := by simp [framedLater, Admits, given]
  refine ⟨closed, entered, admits, by decide +kernel, ?_⟩
  refine (prologueKeptUnlessRefused {} framedLater closed entered admits).2.resolve_right fun lost => ?_
  rcases lost with now | now | now | absent
  · exact Breaks.notOk rfl now
  · obtain ⟨e, -, laid, -⟩ := now
    have unframed : ((ofFunc {}).after (framedLater.take 2)).func.frame.laidOut = false := by decide +kernel
    exact Bool.noConfusion (unframed.symm.trans laid)
  · exact Breaks.notOk (show _ = Except.ok none by decide +kernel) now
  · exact absent

/-- The second layout is refused, and what the location verifier checks no longer holds. -/
theorem refusedLaterDropsPrologue :
    let s := (ofFunc {}).after [.setFunction returnGiven, .pass roomy ⟨.layOutFrame, rfl⟩]
    let refused := (Operation.pass cramped ⟨.layOutFrame, rfl⟩).apply s
    Locations.frameViolations s.func = [] ∧ refused.2 = .error (.frameTooLarge 32 16) ∧
      refused.1.func.blocks ≠ s.func.blocks ∧ Locations.frameViolations refused.1.func =
        [⟨"entry", "", "frame is laid out but the entry block has no prologue"⟩] := by
  decide +kernel

end Session
end SsaCodegen
