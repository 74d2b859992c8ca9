import SsaCodegen.Opt.CompareBranch
import SsaCodegen.Opt.ConstantFold
import SsaCodegen.Opt.DeadCode
import SsaCodegen.Opt.LoopInvariant
import SsaCodegen.Opt.NanGuard
import SsaCodegen.Opt.Unreachable
import SsaCodegen.Opt.ValueNumbering
import SsaCodegen.RegAlloc.LinearScan
import SsaCodegen.Verify.Locations
import SsaCodegen.Verify.Structure
import SsaCodegen.X64.Frame
import SsaCodegen.X64.Layout
import SsaCodegen.X64.Legalize
import SsaCodegen.X64.Shrink
/-! Layout versions. A transformation counts the version up and never reads it, so on a
function at a later version it does what it did before, at a version as much later. -/
namespace SsaCodegen

def Func.later (n : Nat) (f : Func) : Func := { f with layoutVersion := f.layoutVersion + n }

def Unversioned {α : Type} (pass : Func → Func × α) : Prop :=
  ∀ n f, pass (f.later n) = ((pass f).1.later n, (pass f).2)

theorem notedLater (n : Nat) (f : Func) : (f.later n).noteLayoutChange = f.noteLayoutChange.later n := by
  simp only [Func.later, Func.noteLayoutChange, Nat.add_right_comm]

section Checks
variable (n : Nat) (f : Func)

theorem verifyFunctionLater : verifyFunction (f.later n) = verifyFunction f := by
  have definitions (seen : List Nat) (defs : List Definition) :
      Structure.definitionViolations (f.later n) seen defs =
        Structure.definitionViolations f seen defs := by
    induction defs generalizing seen with
    | nil => rfl
    | cons d rest ih =>
      simp only [Structure.definitionViolations, ih]
      rfl
  have blocks : (f.later n).blocks = f.blocks := rfl
  unfold verifyFunction
  rw [blocks]
  split
  · rfl
  · simp only [definitions]
    rfl

theorem verifyLocationsLater (regs : RegisterFile) :
    verifyLocations regs (f.later n) = verifyLocations regs f := by
  have params (bb : Block) (live ids : List Nat) :
      Locations.paramViolations regs (f.later n) bb live ids =
        Locations.paramViolations regs f bb live ids := by
    induction ids with
    | nil => rfl
    | cons id rest ih =>
      simp only [Locations.paramViolations, ih]
      rfl
  have walk (bb : Block) (live : List Nat) (insts : List (Inst × Nat)) :
      Locations.interferenceBackwards regs (f.later n) bb live insts =
        Locations.interferenceBackwards regs f bb live insts := by
    induction insts generalizing live with
    | nil => exact params ..
    | cons i rest ih =>
      simp only [Locations.interferenceBackwards, ih]
      rfl
  unfold verifyLocations
  simp only [walk]
  rfl

end Checks

open ConstantFold in
theorem foldConstantsUnversioned : Unversioned foldConstants := by
  intro n f
  have insts (known : Known) (insts : List Inst) :
      foldInsts (f.later n) known insts = foldInsts f known insts := by
    induction insts generalizing known with
    | nil => rfl
    | cons i rest ih =>
      simp only [foldInsts, ih]
      rfl
  have blocks (known : Known) (blocks : List Block) :
      foldBlocks (f.later n) known blocks = foldBlocks f known blocks := by
    induction blocks generalizing known with
    | nil => rfl
    | cons bb rest ih => simp only [foldBlocks, ih, insts]
  have folded : foldBlocks (f.later n) (List.replicate (f.later n).numValues none) (f.later n).blocks =
      foldBlocks f (List.replicate f.numValues none) f.blocks := blocks _ _
  unfold foldConstants
  rw [folded]
  generalize foldBlocks f _ _ = made
  change ((if countBranches { f with blocks := made } < countBranches f then
    (Func.later n { f with blocks := made }).noteLayoutChange else _), _) = _
  rw [notedLater]
  dsimp only
  split <;> rfl

theorem canonicalizeNansUnversioned : Unversioned canonicalizeNans := fun _ _ => rfl

namespace X64
open Legalize

theorem legalizeUnversioned : Unversioned legalize := by
  intro n f
  have insts (g : Func) (insts : List Inst) : encodeInsts (g.later n) insts = encodeInsts g insts := by
    induction insts with
    | nil => rfl
    | cons i rest ih =>
      have same : encode? (g.later n) i = encode? g i := rfl
      simp only [encodeInsts, ih, same]
  have blocks (g : Func) (blocks : List Block) :
      encodeBlocks (g.later n) blocks = encodeBlocks g blocks := by
    induction blocks with
    | nil => rfl
    | cons bb rest ih => simp only [encodeBlocks, ih, insts]
  unfold legalize
  have signature : (f.later n).signature = f.signature := rfl
  rw [signature]
  split
  · rfl
  · have lowered : internConstants (splitArgumentEdges (expandFloatSelects
        (materializeFloats (f.later n)))) = (internConstants (splitArgumentEdges (expandFloatSelects
        (materializeFloats f)))).later n := rfl
    rw [lowered]
    generalize internConstants _ = g
    dsimp only
    have encoded : encodeBlocks (g.later n) (g.later n).blocks = encodeBlocks g g.blocks := blocks ..
    rw [encoded]
    cases encodeBlocks g g.blocks with
    | mk new result =>
      cases result with
      | error e => rfl
      | ok =>
        change ((if new.length = f.blocks.length then _ else
          (Func.later n { g with blocks := new }).noteLayoutChange), _) = _
        rw [notedLater]
        dsimp only
        split <;> rfl

end X64

theorem fuseCompareBranchesUnversioned :
    Unversioned (fuseCompareBranches X64.encode?) := by
  intro n f
  unfold fuseCompareBranches
  change (if (f.mapBlocks (CompareBranch.fuseBlock (X64.encode? f) f.countUses)).blocks == f.blocks
    then _ else ((Func.later n (f.mapBlocks _)).noteLayoutChange, _)) = _
  rw [notedLater]
  dsimp only
  split <;> rfl

theorem numberValuesUnversioned (t : DomTree) : Unversioned (numberValues t) := by
  intro n f
  have blocks : (f.later n).blocks = f.blocks := rfl
  unfold numberValues
  rw [blocks]
  split <;> rfl

theorem removeUnreachableUnversioned (t : DomTree) : Unversioned (removeUnreachable t) := by
  intro n f
  have blocks : (f.later n).blocks = f.blocks := rfl
  unfold removeUnreachable
  rw [blocks]
  generalize Unreachable.keptBlocks t f.blocks = kept
  change (if kept.length = f.blocks.length then _ else
    ((Func.later n { f with blocks := kept }).noteLayoutChange, _)) = _
  rw [notedLater]
  dsimp only
  split <;> rfl

open DeadCode in
theorem eliminateDeadCodeUnversioned (t : DomTree) : Unversioned (eliminateDeadCode t) := by
  intro n f
  let later (s : Progress) : Progress := { s with func := s.func.later n }
  have visited (b : Nat) (s : Progress) (i : Nat) : visit b (later s) i = later (visit b s i) := by
    have block : (later s).func.block b = s.func.block b := rfl
    unfold visit
    rw [block]
    split
    · split <;> rfl
    · rfl
  have swept (s : Progress) : sweep t.order (later s) = later (sweep t.order s) :=
    List.foldl_hom later fun s b => List.foldl_hom later fun s i => visited b s i
  have sweeps (rounds : Nat) (s : Progress) :
      sweepAll t.order rounds (later s) = later (sweepAll t.order rounds s) := by
    induction rounds generalizing s with
    | zero => rfl
    | succ rounds ih =>
      simp only [sweepAll, swept, ih]
      split <;> rfl
  have done : sweepAll t.order ((f.later n).insts.length + 1) (start (f.later n)) =
      later (sweepAll t.order (f.insts.length + 1) (start f)) := sweeps _ (start f)
  unfold eliminateDeadCode
  rw [done]

theorem allocateUnversioned (regs : RegisterFile) (g : FlowGraph) (t : DomTree) :
    Unversioned (RegAlloc.run regs g t) := by
  intro n f
  have recorded (intervals : Intervals) (f : Func) :
      RegAlloc.recordSafepoints intervals (f.later n) =
        (RegAlloc.recordSafepoints intervals f).later n :=
    List.foldl_hom (Func.later n) (fun _ _ => rfl)
  have blocks : (f.later n).blocks = f.blocks := rfl
  unfold RegAlloc.run
  rw [blocks]
  split
  · rfl
  · have same : Intervals.ofFunc (f.later n) (Liveness.ofFunc (f.later n) g) =
        Intervals.ofFunc f (Liveness.ofFunc f g) := rfl
    rw [same]
    split
    · rfl
    · rename_i intervals _
      generalize scanned : Scan.run regs f.numValues intervals.intervals = scan
      have same : Scan.run regs (f.later n).numValues intervals.intervals = scan := scanned
      rw [same]
      exact Prod.ext (recorded intervals
        { f with locations := scan.locations, stackSlots := List.replicate scan.slots {} }) rfl

theorem layOutFrameUnversioned (limits : X64.Limits) : Unversioned (X64.layOutFrame limits) := by
  intro n f
  have blocks : (f.later n).blocks = f.blocks := rfl
  unfold X64.layOutFrame
  rw [blocks]
  split
  · rfl
  · dsimp only
    have same : (f.later n).locations = f.locations ∧ (f.later n).stackSlots = f.stackSlots :=
      ⟨rfl, rfl⟩
    rw [same.1, same.2]
    split <;> rfl

theorem shrinkInstructionsUnversioned : Unversioned X64.shrinkInstructions := fun _ _ => rfl

section Relaxation
open X64 X64.Layout

theorem widenInstsLater (n : Nat) (f : Func) (offset : Nat) (insts : List Inst) :
    widenInsts (f.later n) offset insts = widenInsts f offset insts := by
  induction insts generalizing offset with
  | nil => rfl
  | cons i rest ih =>
    simp only [widenInsts, ih]
    rfl

theorem widenBlocksLater (n : Nat) (f : Func) (offset : Nat) (blocks : List Block) :
    widenBlocks (f.later n) offset blocks = widenBlocks f offset blocks := by
  induction blocks generalizing offset with
  | nil => rfl
  | cons bb rest ih =>
    simp only [widenBlocks, ih, widenInstsLater]
    rfl

theorem relaxLater (limit rounds n : Nat) (f : Func) :
    relax limit rounds (f.later n) = ((relax limit rounds f).1.later n, (relax limit rounds f).2) := by
  induction rounds generalizing f with
  | zero => rfl
  | succ rounds ih =>
    have placed : placeBlocks limit 0 ((f.later n).blocks.map (blockSize (f.later n)))
        (f.later n).blockOffsets = placeBlocks limit 0 (f.blocks.map (blockSize f)) f.blockOffsets := rfl
    simp only [relax, placed]
    generalize placeBlocks limit 0 _ _ = located
    obtain ⟨offsets, codeEnd⟩ := located
    cases codeEnd with
    | none => rfl
    | some codeEnd =>
      dsimp only
      change (if widenBlocks (Func.later n { f with blockOffsets := offsets }) 0 f.blocks ==
          f.blocks then _ else relax limit rounds (Func.later n { f with
            blockOffsets := offsets
            blocks := widenBlocks (Func.later n { f with blockOffsets := offsets }) 0 f.blocks })) = _
      rw [widenBlocksLater, ih]
      split <;> rfl

theorem relaxBranchesUnversioned (limits : X64.Limits) : Unversioned (X64.relaxBranches limits) := by
  intro n f
  have start : relax limits.functionLimit (roundsFor (f.later n)) { f.later n with
      blocks := initBlocks (f.later n).blocks
      blockOffsets := List.replicate (f.later n).blocks.length 0 } = _ :=
    relaxLater limits.functionLimit (roundsFor f) n { f with
      blocks := initBlocks f.blocks
      blockOffsets := List.replicate f.blocks.length 0 }
  unfold X64.relaxBranches
  dsimp only
  rw [start]
  generalize relax _ _ _ = done
  obtain ⟨g, result⟩ := done
  cases result with
  | error e => rfl
  | ok codeEnd =>
    change (if limits.functionLimit < poolOffset g.constants codeEnd + 8 * g.constants.length then _
      else _) = _
    dsimp only
    split <;> rfl

end Relaxation

namespace LoopInvariant

theorem insertPreheaderUnversioned (e : Entry) : Unversioned (insertPreheader X64.encode? · e) := by
  intro n f
  have found : (f.later n).findBlock? e.header = f.findBlock? e.header := rfl
  dsimp only [insertPreheader]
  rw [found]
  split
  · rfl
  · rename_i header _
    generalize made : f.newParams ((f.block header).params.map Param.ty) = new
    have params : (f.later n).newParams (((f.later n).block header).params.map Param.ty) =
        (new.1, new.2.later n) := by
      rw [← made]
      rfl
    have encode : X64.encode? (new.2.later n) = X64.encode? new.2 := rfl
    have label : (f.later n).newLabel (e.header ++ ".preheader") =
        f.newLabel (e.header ++ ".preheader") := rfl
    rw [params, label]
    dsimp only
    rw [encode]
    split
    · rfl
    · rw [List.foldl_hom (Func.later n) fun f source => ?_]
      · rfl
      · have same : (f.later n).findBlock? source = f.findBlock? source := rfl
        rw [same]
        split <;> rfl

theorem insertPreheadersUnversioned (entries : List Entry) :
    Unversioned (insertPreheaders X64.encode? · entries) := by
  intro n f
  induction entries generalizing f with
  | nil => rfl
  | cons e rest ih =>
    have first := insertPreheaderUnversioned e n f
    have later := ih (insertPreheader X64.encode? f e).1
    dsimp only at first later ⊢
    simp only [insertPreheaders, first, later]

theorem hoistAllLater (g : FlowGraph) (loops : List Loop) (n : Nat) (f : Func) :
    hoistAll g loops (f.later n) = (hoistAll g loops f).later n := by
  -- the table of definitions goes along unchanged
  let lift (state : Func × DefBlocks) : Func × DefBlocks := (state.1.later n, state.2)
  have rounds (l : Loop) (p rounds : Nat) (state : Func × DefBlocks) :
      hoistRounds l p rounds (lift state) = lift (hoistRounds l p rounds state) := by
    induction rounds generalizing state with
    | zero => rfl
    | succ rounds ih =>
      have pass : l.blocks.foldl (hoistBlock l p) (lift state) =
          lift (l.blocks.foldl (hoistBlock l p) state) := List.foldl_hom lift fun _ _ => rfl
      have size (state : Func × DefBlocks) : loopSize l (lift state).1 = loopSize l state.1 := rfl
      simp only [hoistRounds, pass, size, ih]
      split <;> rfl
  have loop (state : Func × DefBlocks) (l : Loop) :
      hoistLoop g (lift state) l = lift (hoistLoop g state l) := by
    unfold hoistLoop
    split
    · exact rounds _ _ _ _
    · rfl
  have whole : (deepestFirst loops).foldl (hoistLoop g) (lift (f, DefBlocks.ofFunc f)) =
      lift ((deepestFirst loops).foldl (hoistLoop g) (f, DefBlocks.ofFunc f)) :=
    List.foldl_hom lift loop
  exact congrArg Prod.fst whole

end LoopInvariant

open LoopInvariant in
theorem hoistInvariantsLater (g : FlowGraph) (loops : LoopForest) (n : Nat) (f : Func) :
    let made := hoistInvariants X64.encode? g loops f
    hoistInvariants X64.encode? g loops (f.later n) = { made with func := made.func.later n } := by
  have entries : loops.loops.filterMap (entryOf? (f.later n) g) = loops.loops.filterMap (entryOf? f g) :=
    rfl
  have inserted := insertPreheadersUnversioned (loops.loops.filterMap (entryOf? f g)) n f
  dsimp only at inserted ⊢
  unfold hoistInvariants
  rw [entries, inserted]
  generalize insertPreheaders X64.encode? f _ = made
  obtain ⟨h, changed⟩ := made
  cases changed with
  | true =>
    simp only [if_true, notedLater, hoistAllLater]
    rfl
  | false =>
    simp only [Bool.false_eq_true, if_false, hoistAllLater]
    rfl

end SsaCodegen
