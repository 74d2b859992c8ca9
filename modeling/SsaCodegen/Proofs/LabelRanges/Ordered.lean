import Mathlib
import SsaCodegen.Proofs.LabelRanges.Spans
import SsaCodegen.Proofs.Pipeline.Unchecked
import SsaCodegen.Proofs.Pipeline.Unplaced
/-! The ranges of a label after a compilation. They follow the layout block by block, and neighbours do not meet. Inside
a block they come by the ids of the values, which is the order of the code only where ids and definitions agree. -/
namespace SsaCodegen.X64.LabelRanges

def InOneBlock (f : Func) (x y : Nat) : Prop :=
  ∃ (b : Nat) (bb : Block) (start : Nat), f.blocks[b]? = some bb ∧ f.blockOffsets[b]? = some start ∧
    (start ≤ x ∧ x < start + codeSize f bb.insts) ∧ (start ≤ y ∧ y < start + codeSize f bb.insts)

def BeginInOrder (f : Func) (label : Nat) : Prop :=
  let live := Liveness.ofFunc f (FlowGraph.ofFunc f)
  ∀ b bb, f.blocks[b]? = some bb → ∀ v w, v ∈ carriers f label → w ∈ carriers f label → v < w →
    ∀ i j, beginsAt live b bb v = some i → beginsAt live b bb w = some j → i ≤ j

section Laid
variable {f : Func} (laid : f.blockOffsets = startsFrom 0 (f.blocks.map (Layout.blockSize f))) {label : Nat}
include laid

theorem startsByBlock : (rangesOf f (Liveness.ofFunc f (FlowGraph.ofFunc f)) label).Pairwise
    fun a b => a.start ≤ b.start ∨ InOneBlock f a.start b.start := by
  refine rangesPairwise laid (fun b bb located => ?_) fun a b proper behind => .inl (by omega)
  refine List.pairwise_of_forall_mem_list fun r first s second => .inr ?_
  obtain ⟨v, -, found⟩ := List.mem_filterMap.mp first
  obtain ⟨w, -, other⟩ := List.mem_filterMap.mp second
  have left := rangeInside laid located found
  have right := rangeInside laid located other
  rw [startOfNext located] at left right
  exact ⟨b, bb, startOf f f.blocks b, located, offsetAt laid located, ⟨left.1, by omega⟩, ⟨right.1, by omega⟩⟩

theorem startsInOrder (order : BeginInOrder f label) :
    (rangesOf f (Liveness.ofFunc f (FlowGraph.ofFunc f)) label).Pairwise fun a b => a.start ≤ b.start := by
  refine rangesPairwise laid (fun b bb located => ?_) fun a b proper behind => by omega
  refine List.pairwise_filterMap.mpr (carriersAscend.imp_of_mem fun carries also below r first s second => ?_)
  obtain ⟨i, begins, rfl, -⟩ := blockRangeIff.mp first
  obtain ⟨j, other, rfl, -⟩ := blockRangeIff.mp second
  -- more instructions come before the later value
  have split := codeSizeSplit (f := f) (bb.insts.take j) i
  rw [List.take_take, Nat.min_eq_left (order b bb located _ _ carries also below i j begins other)] at split
  unfold between
  dsimp only
  omega

end Laid
end LabelRanges

end SsaCodegen.X64

namespace SsaCodegen.Session
open X64 X64.LabelRanges

structure OrderedRanges (f : Func) (label : Nat) (found : List LocationRange) : Prop where
  nonempty : found ≠ []
  proper : ∀ r ∈ found, r.start < r.stop
  apart : found.IsChain fun a b => ¬ a.Meets b
  byBlock : found.Pairwise fun a b => a.start ≤ b.start ∨ InOneBlock f a.start b.start
  inOrder : BeginInOrder f label → found.Pairwise fun a b => a.start ≤ b.start

theorem compiledRangesOrdered {s u : Session} {t : Target} {info : CodeInfo}
    (compiled : s.compile t = (u, .ok info)) :
    ∃ ranges, labelRanges u.func = .ok ranges ∧
      ∀ label found, (label, found) ∈ ranges → OrderedRanges u.func label found := by
  obtain ⟨laid, ranges, given⟩ := compiledRanges compiled
  refine ⟨ranges, given, fun label found listed => ?_⟩
  obtain ⟨rfl, present⟩ := memLabelRanges given listed
  generalize live : Liveness.ofFunc u.func (FlowGraph.ofFunc u.func) = l at present ⊢
  have joins : Joins (rangesOf u.func l label) _ := rangesJoined
  -- joining leaves the starts of some of the ranges, in their order
  have kept (rel : Nat → Nat → Prop) (all : (rangesOf u.func l label).Pairwise fun a b => rel a.start b.start) :
      (joined (rangesOf u.func l label)).Pairwise fun a b => rel a.start b.start :=
    List.pairwise_map.mp ((List.pairwise_map.mpr all).sublist joins.starts)
  subst live
  exact ⟨present, joins.proper, joins.apart,
    kept (fun x y => x ≤ y ∨ InOneBlock u.func x y) (startsByBlock laid),
    fun order => kept (fun x y => x ≤ y) (startsInOrder laid order)⟩

def addedTwice : Func :=
  { name := "f"
    signature := { params := [.i64], returns := [.i64] }
    blocks := [{ label := "entry", params := [⟨0, .i64⟩], insts :=
      [{ op := .iadd, ty := .i64, operands := [.temp 0, .int 1], result := some 2, enc := .ofRecipe .alu },
        { op := .iadd, ty := .i64, operands := [.temp 2, .int 2], result := some 1, enc := .ofRecipe .alu },
        { op := .ret, operands := [.temp 1], enc := .ofRecipe .ret }] }]
    valueTypes := [.i64, .i64, .i64]
    valueLabels := [⟨1, 7⟩, ⟨2, 7⟩] }

def addedTwiceAllocated : Func := { addedTwice with locations := [.reg rbx, .reg rbx, .reg r12] }

def addedTwiceFramed : Func :=
  { addedTwiceAllocated with
    blocks := addedTwice.blocks.modify 0 fun entry => { entry with insts := FrameLayout.prologueInst :: entry.insts }
    frame := { laidOut := true, savedRegs := [rbx, r12] } }

def addedTwiceLaid : Func := { addedTwiceFramed with blockOffsets := [0], constantPoolOffset := 48 }

def quickly : Target := { flags := { optLevel := .fastest, enableVerifier := false } }

theorem addedTwiceCompiles :
    ∃ u info, (ofFunc addedTwice).compile quickly = (u, .ok info) ∧ u.func = addedTwiceLaid := by
  have relaxed : relaxBranches quickly.limits addedTwiceFramed = (addedTwiceLaid, .ok ⟨48, 0, 0, 48⟩) := by
    decide +kernel
  refine compileUnchecked rfl rfl [.flowGraph, .legalize, .refreshDominators, .removeUnreachable] [.relaxBranches]
    ⟨[[]], [[]]⟩ ⟨[0], [none], [[]]⟩ addedTwice addedTwiceAllocated addedTwiceFramed ?_ ?_ ?_ ?_ ?_ fun s func =>
      relaxedUnchecked rfl func relaxed []
  · decide
  · decide +kernel
  · decide +kernel
  · cbv
  · cbv

theorem addedTwiceOrdered : ∃ u info, (ofFunc addedTwice).compile quickly = (u, .ok info) ∧
    ∃ ranges, labelRanges u.func = .ok ranges ∧
      ∀ label found, (label, found) ∈ ranges → OrderedRanges u.func label found := by
  obtain ⟨u, info, compiled, -⟩ := addedTwiceCompiles
  exact ⟨u, info, compiled, compiledRangesOrdered compiled⟩

/-- The sum with the lower id has its range first, although it starts where the other range ends. -/
theorem lowerIdFirst : verifyFunction addedTwice = [] ∧
    ∃ u info, (ofFunc addedTwice).compile quickly = (u, .ok info) ∧
      labelRanges u.func = .ok [(7, [⟨.reg rbx, 36, 48⟩, ⟨.reg r12, 23, 36⟩])] := by
  obtain ⟨u, info, compiled, func⟩ := addedTwiceCompiles
  refine ⟨by decide, u, info, compiled, ?_⟩
  rw [func]
  cbv

end SsaCodegen.Session
