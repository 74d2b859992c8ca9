import SsaCodegen.Proofs.Flow.Entry
import SsaCodegen.Proofs.Layout.Placement
import SsaCodegen.X64.LabelRanges
/-! The side tables of a layout. Only relaxation fills in where blocks start, and only the layout of a frame marks it
as laid out, so before relaxation has been tried on a function there are no ranges of labels to be had. -/
namespace SsaCodegen
open X64

structure Unplaced (f : Func) : Prop where
  offsets : f.blockOffsets = []
  framed : f.frame.laidOut = true → f.blocks ≠ []

theorem labelRangesRefused {f : Func} (labelled : f.valueLabels ≠ []) :
    labelRanges f = .error (.noLayoutForRanges f.name) ↔
      f.frame.laidOut = false ∨ f.blockOffsets.length ≠ f.blocks.length := by
  unfold labelRanges
  rw [if_neg (by simpa using labelled)]
  cases f.frame.laidOut <;> simp

theorem labelRangesGiven {f : Func} (laid : f.frame.laidOut = true) (placed : f.blockOffsets.length = f.blocks.length) :
    ∃ ranges, labelRanges f = .ok ranges := by
  unfold labelRanges
  split
  · exact ⟨_, rfl⟩
  · rw [if_neg (by simp [laid, placed])]
    exact ⟨_, rfl⟩

theorem Unplaced.refused {f : Func} (unplaced : Unplaced f) (labelled : f.valueLabels ≠ []) :
    labelRanges f = .error (.noLayoutForRanges f.name) := by
  rw [labelRangesRefused labelled, unplaced.offsets]
  cases laid : f.frame.laidOut with
  | false => exact .inl rfl
  | true => exact .inr fun same => unplaced.framed laid (List.eq_nil_of_length_eq_zero same.symm)

structure KeepsTables (f g : Func) : Prop where
  offsets : g.blockOffsets = f.blockOffsets
  frame : g.frame = f.frame
  blocks : f.blocks ≠ [] → g.blocks ≠ []

theorem Unplaced.kept {f g : Func} (unplaced : Unplaced f) (keeps : KeepsTables f g) : Unplaced g :=
  ⟨keeps.offsets.trans unplaced.offsets, fun laid => keeps.blocks (unplaced.framed (keeps.frame ▸ laid))⟩

theorem EntryKept.remains {as bs : List Block} (kept : EntryKept as bs) (nonempty : as ≠ []) : bs ≠ [] := by
  cases kept with
  | nil => exact nonempty
  | cons => exact List.cons_ne_nil _ _

namespace KeepsTables
variable {f g h : Func}

theorem refl (f : Func) : KeepsTables f f := ⟨rfl, rfl, id⟩

theorem trans (a : KeepsTables f g) (b : KeepsTables g h) : KeepsTables f h :=
  ⟨b.offsets.trans a.offsets, b.frame.trans a.frame, fun present => b.blocks (a.blocks present)⟩

theorem ofEntry (kept : EntryKept f.blocks g.blocks ∧ g.frame = f.frame) (offsets : g.blockOffsets = f.blockOffsets) :
    KeepsTables f g := ⟨offsets, kept.2, kept.1.remains⟩

theorem modify (f : Func) (b : Nat) (change : Block → Block) : KeepsTables f (f.modifyBlock b change) := by
  refine ⟨rfl, rfl, fun present absent => present ?_⟩
  have count := congrArg List.length absent
  simp only [Func.modifyBlock, List.length_modify, List.length_nil] at count
  exact List.eq_nil_of_length_eq_zero count

end KeepsTables

section Passes

open ConstantFold in
theorem foldConstantsTables (f : Func) : KeepsTables f (foldConstants f).1 := by
  refine .ofEntry ⟨foldConstantsEntry f, ?_⟩ ?_
  all_goals
    unfold foldConstants
    dsimp only
    split <;> rfl

theorem canonicalizeNansTables (f : Func) : KeepsTables f (canonicalizeNans f).1 :=
  .ofEntry ⟨canonicalizeNansEntry f, rfl⟩ rfl

theorem fuseCompareBranchesTables (encode : Func → Inst → Option Encoding) (f : Func) :
    KeepsTables f (fuseCompareBranches encode f).1 := by
  refine .ofEntry ⟨fuseCompareBranchesEntry encode f, ?_⟩ ?_
  all_goals
    unfold fuseCompareBranches
    dsimp only
    split <;> rfl

theorem legalizeTables (f : Func) : KeepsTables f (legalize f).1 := by
  refine .ofEntry (legalizeEntry f) ?_
  unfold legalize
  split
  · rfl
  · dsimp only
    split
    · rfl
    · dsimp only
      split <;> rfl

theorem numberValuesTables (t : DomTree) (f : Func) : KeepsTables f (numberValues t f).1 := by
  refine .ofEntry (numberValuesEntry t f) ?_
  unfold numberValues
  split <;> rfl

theorem removeUnreachableTables (t : DomTree) (f : Func) : KeepsTables f (removeUnreachable t f).1 := by
  refine .ofEntry (removeUnreachableEntry t f) ?_
  unfold removeUnreachable
  dsimp only
  split <;> rfl

theorem eliminateDeadCodeTables (t : DomTree) (f : Func) : KeepsTables f (eliminateDeadCode t f).1 :=
  .ofEntry (eliminateDeadCodeEntry t f) (by rw [(eliminateDeadCodeThins t f).rest])

theorem allocateTables (regs : RegisterFile) (g : FlowGraph) (t : DomTree) (f : Func) :
    KeepsTables f (RegAlloc.run regs g t f).1 := by
  have recorded (intervals : Intervals) (f : Func) :
      (RegAlloc.recordSafepoints intervals f).blockOffsets = f.blockOffsets := by
    unfold RegAlloc.recordSafepoints
    refine LoopInvariant.foldKeeps (fun g : Func => g.blockOffsets = f.blockOffsets) intervals.calls
      (fun g kept call _ => ?_) rfl
    exact kept
  refine .ofEntry (allocateEntry regs g t f) ?_
  unfold RegAlloc.run
  split
  · rfl
  · split
    · rfl
    · exact recorded _ _

theorem shrinkInstructionsTables (f : Func) : KeepsTables f (shrinkInstructions f).1 :=
  .ofEntry ⟨(shrinkReforms f).entry, (shrinkReforms f).frame⟩ rfl

end Passes

namespace LoopInvariant

theorem hoistAllTables (g : FlowGraph) (loops : List Loop) (f : Func) : KeepsTables f (hoistAll g loops f) := by
  let keeps (state : Func × DefBlocks) := KeepsTables f state.1
  have block (l : Loop) (p : Nat) (state : Func × DefBlocks) (kept : keeps state) (b : Nat) :
      keeps (hoistBlock l p state b) := kept.trans ((KeepsTables.modify ..).trans (.modify ..))
  have rounds (l : Loop) (p rounds : Nat) (state : Func × DefBlocks) (kept : keeps state) :
      keeps (hoistRounds l p rounds state) := by
    induction rounds generalizing state with
    | zero => exact kept
    | succ rounds ih =>
      have next := foldKeeps keeps l.blocks (fun _ kept b _ => block l p _ kept b) kept
      unfold hoistRounds
      dsimp only
      split
      · exact ih _ next
      · exact next
  refine foldKeeps keeps (deepestFirst loops) (fun state kept l _ => ?_) (.refl f)
  unfold hoistLoop
  split
  · exact rounds l _ _ _ kept
  · exact kept

theorem redirectedTables (old new : String) (sources : List String) (f : Func) :
    KeepsTables f (sources.foldl (fun f source =>
      match f.findBlock? source with
      | some b => f.modifyBlock b (retarget old new)
      | none => f) f) := by
  refine foldKeeps (KeepsTables f) sources (fun g kept source _ => ?_) (.refl f)
  split
  · exact kept.trans (.modify ..)
  · exact kept

theorem insertPreheaderTables (encode : Func → Inst → Option Encoding) (f : Func) (e : Entry) :
    KeepsTables f (insertPreheader encode f e).1 := by
  unfold insertPreheader
  split
  · exact .refl f
  · rename_i header found
    dsimp only
    split
    · exact ⟨rfl, rfl, id⟩
    · have turned := redirectedTables e.header (f.newLabel (e.header ++ ".preheader")) e.sources
        (f.newParams ((f.block header).params.map Param.ty)).2
      refine ⟨turned.offsets, turned.frame, fun present absent => turned.blocks present ?_⟩
      have count := congrArg List.length absent
      simp only [Func.insertBlock, List.length_insertIdx, List.length_nil] at count
      exact List.eq_nil_of_length_eq_zero (by split at count <;> omega)

theorem insertPreheadersTables (encode : Func → Inst → Option Encoding) (f : Func) (entries : List Entry) :
    KeepsTables f (insertPreheaders encode f entries).1 := by
  induction entries generalizing f with
  | nil => exact .refl f
  | cons e rest ih => exact (insertPreheaderTables encode f e).trans (ih _)

theorem hoistInvariantsTables (encode : Func → Inst → Option Encoding) (g : FlowGraph) (loops : LoopForest) (f : Func) :
    KeepsTables f (hoistInvariants encode g loops f).func := by
  have inserted := insertPreheadersTables encode f (loops.loops.filterMap (entryOf? f g))
  have noted (f : Func) : KeepsTables f f.noteLayoutChange := ⟨rfl, rfl, id⟩
  unfold hoistInvariants
  dsimp only
  split
  · exact inserted.trans ((noted _).trans (hoistAllTables ..))
  · exact inserted.trans (hoistAllTables ..)

end LoopInvariant

theorem layOutFrameUnplaced {limits : Limits} {f : Func} (unplaced : Unplaced f) :
    Unplaced (layOutFrame limits f).1 := by
  unfold layOutFrame
  split
  · exact unplaced
  · dsimp only
    split <;> exact ⟨unplaced.offsets, fun _ => List.cons_ne_nil _ _⟩

namespace X64
open Layout

theorem placeBlocksLength (limit offset : Nat) {sizes old : List Nat} (same : old.length = sizes.length) :
    (placeBlocks limit offset sizes old).1.length = sizes.length := by
  induction sizes generalizing offset old with
  | nil => rfl
  | cons size rest ih =>
    unfold placeBlocks
    split
    · exact same
    · exact congrArg (· + 1) (ih _ (by rw [List.length_tail, same]; rfl))

theorem relaxPlaces (limit rounds : Nat) {f : Func} (same : f.blockOffsets.length = f.blocks.length) :
    (relax limit rounds f).1.blockOffsets.length = (relax limit rounds f).1.blocks.length := by
  induction rounds generalizing f with
  | zero => exact same
  | succ rounds ih =>
    have placed := placeBlocksLength limit 0 (same.trans (List.length_map (blockSize f)).symm)
    rw [List.length_map] at placed
    have widened (g : Func) : (widenBlocks g 0 f.blocks).length = f.blocks.length := by
      rw [← List.length_map Block.label, (headersWiden g 0 f.blocks).1, List.length_map]
    unfold relax
    dsimp only
    split
    · exact placed
    · split
      · exact placed
      · exact ih (placed.trans (widened _).symm)

theorem relaxBranchesPlaces (limits : Limits) (f : Func) :
    (relaxBranches limits f).1.blockOffsets.length = (relaxBranches limits f).1.blocks.length := by
  have placed := relaxPlaces limits.functionLimit (roundsFor f) (f := { f with
      blocks := initBlocks f.blocks, blockOffsets := List.replicate f.blocks.length 0 }) <| by
    rw [List.length_replicate, ← List.length_map Block.label, ← List.length_map Block.label, (headersInit _).1]
  unfold relaxBranches
  dsimp only
  split
  · exact placed
  · split <;> exact placed

end X64

end SsaCodegen
