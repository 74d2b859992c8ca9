import SsaCodegen.Opt.LoopInvariant
import SsaCodegen.Opt.Unreachable
import SsaCodegen.Opt.ValueNumbering
import SsaCodegen.Proofs.Flow.Closed
import SsaCodegen.Proofs.Layout.Forms
import SsaCodegen.Proofs.Opt.CompareBranch
import SsaCodegen.Proofs.Opt.ConstantFold
import SsaCodegen.Proofs.Opt.DeadCode
import SsaCodegen.Proofs.Opt.NanGuard
import SsaCodegen.Proofs.RegAlloc.Allocation
/-! Transformations of closed functions. They stay closed, whatever analyses a transformation
was given, and the layout version tells where edges changed. -/
namespace SsaCodegen

open ConstantFold in
theorem foldInstsEnds (f : Func) (known : Known) (insts : List Inst) :
    (foldInsts f known insts).1.map Inst.isTerminator = insts.map Inst.isTerminator := by
  induction insts generalizing known with
  | nil => rfl
  | cons i rest ih =>
    have here : ((fold? f known i).getD i).isTerminator = i.isTerminator := by
      rcases @foldExit f known i with ⟨exit, -⟩ | ⟨was, now⟩
      · exact (Prod.mk.inj exit).1
      · rw [Inst.isTerminator, Inst.isTerminator, was, now]
        rfl
    exact List.cons_eq_cons.mpr ⟨here, ih _⟩

open ConstantFold in
theorem foldConstantsFaithful (f : Func) : Faithful f (foldConstants f).1 := by
  intro closed
  refine ⟨fun b inside => ?_, foldConstantsFlow f⟩
  obtain ⟨known, blocks, -⟩ := folded f
  rw [blocks] at inside
  obtain ⟨n, located⟩ := List.getElem?_of_mem inside
  obtain ⟨a, known, was, rfl⟩ := foldBlocksAt.2 n b located
  exact (closed a (List.mem_of_getElem? was)).same (foldInstsEnds f known a.insts)

namespace NanGuard

theorem guardInstsReshapes (next : Nat) (insts : List Inst) : Reshapes insts (guardInsts next insts).1 := by
  induction insts generalizing next with
  | nil => exact .nil
  | cons i rest ih =>
    unfold guardInsts
    split
    · rename_i float _
      have plain : i.isTerminator = false := by
        revert float
        rw [Inst.isTerminator]
        cases i.op <;> decide
      refine .adds (fun j inside => ?_) (.drop plain (ih _))
      simp only [guarded, List.mem_cons, List.not_mem_nil, or_false] at inside
      rcases inside with rfl | rfl | rfl
      · exact plain
      · rfl
      · rfl
    · exact .keep rfl (fun absent => by rw [absent]; rfl) (ih _)

end NanGuard

open NanGuard in
theorem canonicalizeNansFaithful (f : Func) : Faithful f (canonicalizeNans f).1 := by
  have blocks (next : Nat) (blocks : List Block) :
      List.Forall₂ Reshaped blocks (guardBlocks next blocks).1 := by
    induction blocks generalizing next with
    | nil => exact .nil
    | cons bb rest ih => exact .cons ⟨rfl, guardInstsReshapes _ _⟩ (ih _)
  exact .ofExits (.ofReshaped (blocks _ _)) rfl

open CompareBranch in
theorem fuseCompareBranchesFaithful (encode : Func → Inst → Option Encoding) (f : Func) :
    Faithful f (fuseCompareBranches encode f).1 := by
  intro closed
  refine ⟨?_, fuseCompareBranchesFlow encode f⟩
  unfold fuseCompareBranches
  dsimp only
  split
  · exact closed
  · intro b inside
    obtain ⟨a, home, rfl⟩ := List.mem_map.mp inside
    have was := closed a home
    rcases fuseBlockCases (encode f) f.countUses a with same |
      ⟨before, compare, branch, fused, id, old, new, fusion⟩
    · rw [same]
      exact was
    · rw [old] at was
      rw [new]
      obtain ⟨front, -, plain⟩ := closedAppend.mp was
      exact closedAppend.mpr ⟨front, List.pairwise_singleton _ _, fun _ => plain (by simp)⟩

namespace LoopInvariant

theorem retargetClosed {old new : String} {bb : Block} (closed : Closed bb.insts) :
    Closed (retarget old new bb).insts := by
  unfold retarget
  split
  · rename_i t ends
    refine closed.same ?_
    obtain ⟨body, split⟩ := List.getLast?_eq_some_iff.mp (Option.filter_eq_some_iff.mp ends).1
    rw [split, List.dropLast_concat, List.map_append, List.map_append]
    rfl
  · exact closed

theorem insertPreheaderClosed (encode : Func → Inst → Option Encoding) {f : Func} (closed : f.Closed)
    (e : Entry) : (insertPreheader encode f e).1.Closed := by
  unfold insertPreheader
  split
  · exact closed
  · dsimp only
    split
    · exact closed
    · intro b inside
      rcases List.eq_or_mem_of_mem_insertIdx inside with rfl | old
      · exact List.pairwise_singleton _ _
      · refine foldKeeps Func.Closed e.sources (fun g closed source _ => ?_) ?_ b old
        · split
          · exact closed.modify (fun _ => retargetClosed) _
          · exact closed
        · exact closed

theorem insertPreheadersClosed (encode : Func → Inst → Option Encoding) (entries : List Entry)
    {f : Func} (closed : f.Closed) : (insertPreheaders encode f entries).1.Closed := by
  induction entries generalizing f with
  | nil => exact closed
  | cons e rest ih => exact ih (insertPreheaderClosed encode closed e)

theorem splitInstsClosed (l : Loop) (preheader : Nat) (defs : DefBlocks) (insts : List Inst) :
    (∀ i ∈ (splitInsts l preheader defs insts).hoisted, i.isTerminator = false) ∧
      (splitInsts l preheader defs insts).kept.Sublist insts := by
  induction insts generalizing defs with
  | nil => exact ⟨List.forall_mem_nil _, .slnil⟩
  | cons i rest ih =>
    unfold splitInsts
    split
    · rename_i invariant
      obtain ⟨plain, part⟩ := ih (i.result.elim defs fun id => defs.set id (some preheader))
      simp only [isInvariant, Bool.and_eq_true] at invariant
      exact ⟨List.forall_mem_cons.mpr ⟨plainOfPure invariant.1.2, plain⟩, part.cons i⟩
    · obtain ⟨plain, part⟩ := ih defs
      exact ⟨plain, part.cons_cons i⟩

theorem insertBeforeLastClosed {moved insts : List Inst} (closed : Closed insts)
    (plain : ∀ i ∈ moved, i.isTerminator = false) : Closed (insertBeforeLast moved insts) := by
  rcases List.eq_nil_or_concat insts with rfl | ⟨body, last, rfl⟩
  · simpa [insertBeforeLast] using Closed.ofPlain plain
  · rw [List.concat_eq_append] at closed ⊢
    obtain ⟨-, -, front⟩ := closedAppend.mp closed
    rw [insertBeforeLast, List.dropLast_concat, List.getLast?_concat]
    have all := List.forall_mem_append.mpr ⟨front (by simp), plain⟩
    exact closedAppend.mpr ⟨.ofPlain all, List.pairwise_singleton _ _, fun _ => all⟩

theorem hoistBlockClosed (l : Loop) (preheader : Nat) {state : Func × DefBlocks}
    (closed : state.1.Closed) (b : Nat) : (hoistBlock l preheader state b).1.Closed := by
  obtain ⟨f, defs⟩ := state
  obtain ⟨plain, part⟩ := splitInstsClosed l preheader defs (f.block b).insts
  have block : Closed (f.block b).insts := by
    rw [Func.block, List.getD_eq_getElem?_getD]
    cases located : f.blocks[b]? with
    | none => exact .nil
    | some bb => exact closed bb (List.mem_of_getElem? located)
  refine Func.Closed.modify (.modify closed (fun _ _ => ?_) _) (fun _ was => ?_) _
  · exact block.sublist part
  · exact insertBeforeLastClosed was plain

theorem hoistRoundsClosed (l : Loop) (preheader : Nat) (rounds : Nat) {state : Func × DefBlocks}
    (closed : state.1.Closed) : (hoistRounds l preheader rounds state).1.Closed := by
  induction rounds generalizing state with
  | zero => exact closed
  | succ rounds ih =>
    have next := foldKeeps (fun state : Func × DefBlocks => state.1.Closed) l.blocks
      (fun _ closed b _ => hoistBlockClosed l preheader closed b) closed
    unfold hoistRounds
    dsimp only
    split
    · exact ih next
    · exact next

theorem hoistAllClosed (g : FlowGraph) (loops : List Loop) {f : Func} (closed : f.Closed) :
    (hoistAll g loops f).Closed := by
  have start : (f, DefBlocks.ofFunc f).1.Closed := closed
  refine foldKeeps (fun state : Func × DefBlocks => state.1.Closed) (deepestFirst loops)
    (fun state closed l _ => ?_) start
  unfold hoistLoop
  split
  · exact hoistRoundsClosed l _ _ closed
  · exact closed

end LoopInvariant

open LoopInvariant in
theorem hoistInvariantsClosed (encode : Func → Inst → Option Encoding) (g : FlowGraph)
    (loops : LoopForest) {f : Func} (closed : f.Closed) :
    (hoistInvariants encode g loops f).func.Closed := by
  have inserted := insertPreheadersClosed encode (loops.loops.filterMap (entryOf? f g)) closed
  unfold hoistInvariants
  dsimp only
  split
  · exact hoistAllClosed _ _ inserted
  · exact hoistAllClosed _ _ inserted

namespace ValueNumbering

theorem numberInstsReshapes (scope : Scope) (insts : List Inst) :
    Reshapes insts (numberInsts scope insts).1 := by
  induction insts generalizing scope with
  | nil => exact .nil
  | cons i rest ih =>
    have last {s : Scope} : rest = [] → (numberInsts s rest).1 = [] := fun absent => by rw [absent]; rfl
    unfold numberInsts numberInst
    dsimp only
    split
    · rename_i key id keyed result
      split
      · refine .drop ?_ (ih _)
        unfold Inst.valueKey? at keyed
        split at keyed
        · rename_i fits
          exact plainOfPure (Bool.and_eq_true_iff.mp fits).2
        · cases keyed
      · exact .keep rfl last (ih _)
    · exact .keep rfl last (ih _)

theorem visitExits (t : DomTree) (fuel : Nat) (leaders : Leaders) (p : Progress) (b : Nat) :
    KeepsExits p.blocks (visit t fuel leaders p b).blocks := by
  induction fuel generalizing leaders p b with
  | zero => exact .refl _
  | succ fuel ih =>
    unfold visit
    dsimp only
    refine LoopInvariant.foldKeeps (fun q : Progress => KeepsExits p.blocks q.blocks) _
      (fun q below c _ => below.trans (ih _ q c)) ?_
    refine .ofAt (List.length_modify ..) fun m a c left right => ?_
    rw [List.getElem?_modify, left, Option.map_eq_map, Option.map_some, Option.some.injEq] at right
    subst right
    split
    · rename_i here
      rw [here, List.getD_eq_getElem?_getD, left, Option.getD_some]
      exact ⟨rfl, numberInstsReshapes _ _⟩
    · exact ⟨rfl, .refl _⟩

end ValueNumbering

open ValueNumbering in
theorem numberValuesFaithful (t : DomTree) (f : Func) : Faithful f (numberValues t f).1 := by
  unfold numberValues
  split
  · exact fun closed => ⟨closed, .refl f⟩
  · have visited := visitExits t (t.order.length + 1) [] ⟨f.blocks, List.replicate f.numValues none, 0⟩ 0
    refine .ofExits (visited.trans (.ofMap fun a _ => ⟨rfl, .ofLeaves ?_⟩)) rfl
    rw [Block.mapInsts, List.map_map]
    rfl

theorem removeUnreachableFaithful (t : DomTree) (f : Func) : Faithful f (removeUnreachable t f).1 := by
  intro closed
  unfold removeUnreachable
  dsimp only
  split
  · exact ⟨closed, .refl f⟩
  · exact ⟨fun b inside => closed b ((Unreachable.keptSublist t f.blocks).subset inside),
      .noted f _ rfl⟩

theorem eliminateDeadCodeFaithful (t : DomTree) (f : Func) : Faithful f (eliminateDeadCode t f).1 := by
  have thins := eliminateDeadCodeThins t f
  exact .ofExits thins.exits thins.version

theorem allocateFaithful (regs : RegisterFile) (g : FlowGraph) (t : DomTree) (f : Func) :
    Faithful f (RegAlloc.run regs g t f).1 :=
  .ofExits (.ofBare (RegAlloc.runSameCode regs g t f).blocks) (RegAlloc.runVersion regs g t f)

namespace X64

open FrameLayout in
theorem dropPrologueReshapes (insts : List Inst) : Reshapes insts (dropPrologue insts) := by
  cases insts with
  | nil => exact .nil
  | cons i rest =>
    rw [dropPrologue]
    split
    · rename_i opens
      exact .drop (by rw [Inst.isTerminator, eq_of_beq opens]; rfl) (.refl rest)
    · exact .refl _

open FrameLayout in
theorem layOutFrameFaithful (limits : Limits) (f : Func) : Faithful f (layOutFrame limits f).1 := by
  unfold layOutFrame
  split
  · exact fun closed => ⟨closed, .refl f⟩
  · rename_i entry rest blocks
    have same : List.Forall₂ Reshaped rest rest := List.forall₂_same.mpr fun b _ => ⟨rfl, .refl _⟩
    dsimp only
    split
    · refine .ofExits ?_ rfl
      rw [blocks]
      exact .ofReshaped (.cons ⟨rfl, dropPrologueReshapes _⟩ same)
    · refine .ofExits ?_ rfl
      rw [blocks]
      exact .ofReshaped (.cons ⟨rfl, .add rfl (dropPrologueReshapes _)⟩ same)

end X64

theorem Reformed.faithful {f g : Func} (r : Reformed f g) : Faithful f g :=
  .ofExits (.ofBare r.sameCode.blocks) r.version

end SsaCodegen
