import Mathlib
import SsaCodegen.Proofs.LabelRanges.Spans
import SsaCodegen.Proofs.Pipeline.Reached
import SsaCodegen.Proofs.Pipeline.Unchecked
import SsaCodegen.Proofs.Pipeline.Unplaced
/-! Ranges and liveness. In a finished function a value is not defined in a block that it is live into, so between
where it begins and where it ends nothing defines it, and it is live there before every instruction. -/
namespace SsaCodegen

theorem LiveInto.notDefined {f : Func} (ok : WellFormed f) (reachable : Reachable f) {v b : Nat} {bb : Block}
    (sited : f.blocks[b]? = some bb) (live : LiveInto f v b) : v ∉ bb.definedIds := fun defines => by
  have inside := List.mem_of_getElem? sited
  have only : ∀ other ∈ f.blocks, v ∈ other.definedIds → other = bb := fun _ there also =>
    Func.oneHome ok.once there inside also defines
  exact live.notMissing ok sited ((FlowGraph.missingAtDefinition only (reachable bb inside)).elim id id)

theorem WellFormed.prologueFirst {f : Func} (ok : WellFormed f) {b k : Nat} {bb : Block} {inst : Inst}
    (sited : f.blocks[b]? = some bb) (there : bb.insts[k]? = some inst) (now : inst.op = .prologue) :
    b = 0 ∧ k = 0 := by
  obtain ⟨entry, rest, fits⟩ := ok.entry
  rw [fits.blocks] at sited
  cases b with
  | zero =>
    cases Option.some.inj sited
    cases k with
    | zero => exact ⟨rfl, rfl⟩
    | succ k =>
      have later : inst ∈ bb.insts.tail := by
        refine List.mem_of_getElem? (i := k) ?_
        rwa [List.getElem?_tail]
      exact absurd now (fits.opening inst later)
  | succ b =>
    exact absurd now (fits.others bb (List.mem_of_getElem? sited) inst (List.mem_of_getElem? there))

namespace X64.LabelRanges
open Layout

section Presence
variable {f : Func} {b v : Nat} {bb : Block} (sited : f.blocks[b]? = some bb)
include sited

theorem liveBack {k : Nat} (inside : k ≤ bb.insts.length)
    (free : ∀ i inst, i < k → bb.insts[i]? = some inst → inst.result ≠ some v) (live : v ∈ f.liveAt b k) :
    v ∈ bb.paramIds ∨ LiveInto f v b := by
  induction k with
  | zero =>
    refine (Liveness.liveAtStart sited ?_).imp_right And.right
    simpa only [Func.liveAt, Func.blockAt sited, List.drop_zero] using live
  | succ k ih =>
    have there : bb.insts[k]? = some bb.insts[k] := List.getElem?_eq_getElem inside
    refine ih (Nat.le_of_succ_le inside) (fun i inst before => free i inst (by omega)) ?_
    refine (memLiveAt (by rwa [Func.blockAt sited])).mpr (.inr ⟨live, free k _ (Nat.lt_succ_self k) there⟩)

variable (below : v < f.numValues)
include below

theorem liveUnlessDefined {k : Nat} (free : ∀ inst ∈ bb.insts.drop k, inst.result ≠ some v) :
    v ∈ f.liveAt b k ↔ 0 < usedUpTo v (bb.insts.drop k) ∨
      (Liveness.ofFunc f (FlowGraph.ofFunc f)).isLiveOut b v = true := by
  unfold Func.liveAt
  rw [Func.blockAt sited, memLiveFrom (Liveness.ascendingOut _ b), Liveness.listedOut]
  generalize bb.insts.drop k = insts at *
  have reads : readsBeforeDef v insts = true ↔ 0 < usedUpTo v insts := by
    induction insts with
    | nil => simp [readsBeforeDef, usedUpTo]
    | cons inst rest ih =>
      obtain ⟨here, later⟩ := List.forall_mem_cons.mp free
      have other : inst.defines v = false := by simpa [Inst.defines] using here
      rw [readsBeforeDef, other, Bool.not_false, Bool.true_and, Bool.or_eq_true, ih later, usedUpTo]
      by_cases nonempty : inst.usesTemp v = true ∨ 0 < usedUpTo v rest
      · simp [nonempty]
      · simp [not_or.mp nonempty]
  rw [reads]
  exact or_congr (and_iff_right below) (and_iff_left free)

theorem endsBehind {first k : Nat} (begun : first ≤ k) (inside : k < bb.insts.length)
    (free : ∀ inst ∈ bb.insts.drop k, inst.result ≠ some v) :
    k < endsAt (Liveness.ofFunc f (FlowGraph.ofFunc f)) b bb v first ↔ v ∈ f.liveAt b k := by
  rw [liveUnlessDefined sited below free]
  unfold endsAt
  split
  · rename_i leaves
    exact ⟨fun _ => .inr leaves, fun _ => inside⟩
  · rename_i stays
    rw [or_iff_left stays, usedUpToIff]
    have shifted : k < first + usedUpTo v (bb.insts.drop first) ↔
        k - first < usedUpTo v (bb.insts.drop first) := by omega
    rw [shifted, usedUpToIff]
    constructor
    · rintro ⟨j, inst, after, there, uses⟩
      rw [List.getElem?_drop] at there
      refine ⟨first + j - k, inst, Nat.zero_le _, ?_, uses⟩
      rwa [List.getElem?_drop, show k + (first + j - k) = first + j by omega]
    · rintro ⟨j, inst, -, there, uses⟩
      rw [List.getElem?_drop] at there
      refine ⟨k + j - first, inst, by omega, ?_, uses⟩
      rwa [List.getElem?_drop, show first + (k + j - first) = k + j by omega]

end Presence

section Finished
variable {f : Func} (ok : WellFormed f) (reachable : Reachable f) {b v : Nat} {bb : Block}
  (sited : f.blocks[b]? = some bb)
include ok reachable sited

theorem definedBefore {first k : Nat}
    (begins : beginsAt (Liveness.ofFunc f (FlowGraph.ofFunc f)) b bb v = some first) (begun : first ≤ k) :
    ∀ inst ∈ bb.insts.drop k, inst.result ≠ some v := by
  have once := Func.definedOnceIn ok.once (List.mem_of_getElem? sited)
  intro inst later defines
  have inside := List.mem_of_mem_drop later
  unfold beginsAt at begins
  split at begins
  · rename_i live
    refine (Liveness.isLiveInIff.mp live).2.notDefined ok reachable sited ?_
    exact Block.memDefinedIds.mpr (.inr ⟨inst, inside, defines⟩)
  · split at begins
    · rename_i param
      exact Block.paramNotResult once (List.contains_iff_mem.mp param) inside defines
    · obtain ⟨d, found, rfl⟩ := Option.map_eq_some_iff.mp begins
      obtain ⟨short, defines', -⟩ := List.findIdx?_eq_some_iff_getElem.mp found
      obtain ⟨j, there⟩ := List.getElem?_of_mem later
      rw [List.getElem?_drop] at there
      have same := Block.resultIndex once (List.getElem?_eq_getElem short) there
        (by simpa [Inst.defines] using defines') defines
      omega

variable (below : v < f.numValues)
include below

omit ok reachable in
theorem begunBefore {k : Nat} {inst : Inst} (there : bb.insts[k]? = some inst) (other : inst.op ≠ .prologue)
    (live : v ∈ f.liveAt b k) :
    ∃ first, beginsAt (Liveness.ofFunc f (FlowGraph.ofFunc f)) b bb v = some first ∧ first ≤ k := by
  have inside := (List.getElem?_eq_some_iff.mp there).1
  unfold beginsAt
  split
  · exact ⟨0, rfl, Nat.zero_le k⟩
  · rename_i outside
    have notInto : ¬ LiveInto f v b := fun into => outside (Liveness.isLiveInIff.mpr ⟨below, into⟩)
    split
    · refine ⟨_, rfl, ?_⟩
      split
      · -- the entry opens with its prologue, which is not this instruction
        rename_i opens
        refine Nat.pos_of_ne_zero fun first => other ?_
        subst first
        rw [List.head?_eq_getElem?, there] at opens
        exact (by simpa using opens : b = 0 ∧ inst.op = .prologue).2
      · exact Nat.zero_le k
    · rename_i notParam
      have free : ¬ ∀ i inst, i < k → bb.insts[i]? = some inst → inst.result ≠ some v := fun free =>
        (liveBack sited (Nat.le_of_lt inside) free live).elim
          (fun param => notParam (List.contains_iff_mem.mpr param)) notInto
      obtain ⟨i, definer, before, at', defines⟩ : ∃ i definer, i < k ∧ bb.insts[i]? = some definer ∧
          definer.result = some v := by
        by_contra absent
        exact free fun i inst before there defines => absent ⟨i, inst, before, there, defines⟩
      cases found : bb.insts.findIdx? (·.defines v) with
      | none =>
        have absent := List.findIdx?_eq_none_iff.mp found definer (List.mem_of_getElem? at')
        simp [Inst.defines, defines] at absent
      | some d =>
        refine ⟨d + 1, rfl, ?_⟩
        obtain ⟨short, -, first⟩ := List.findIdx?_eq_some_iff_getElem.mp found
        by_contra late
        have := first i (by omega)
        obtain ⟨low, rfl⟩ := List.getElem?_eq_some_iff.mp at'
        simp [Inst.defines, defines] at this

theorem presentIff {k : Nat} {inst : Inst} (there : bb.insts[k]? = some inst) :
    (∃ first, beginsAt (Liveness.ofFunc f (FlowGraph.ofFunc f)) b bb v = some first ∧ first ≤ k ∧
        k < endsAt (Liveness.ofFunc f (FlowGraph.ofFunc f)) b bb v first) ↔
      inst.op ≠ .prologue ∧ v ∈ f.liveAt b k := by
  have inside := (List.getElem?_eq_some_iff.mp there).1
  constructor
  · rintro ⟨first, begins, begun, before⟩
    have free := definedBefore ok reachable sited begins begun
    refine ⟨fun now => ?_, (endsBehind sited below begun inside free).mp before⟩
    -- no value begins ahead of the prologue
    obtain ⟨rfl, rfl⟩ := ok.prologueFirst sited there now
    cases Nat.le_zero.mp begun
    unfold beginsAt at begins
    split at begins
    · rename_i live
      exact notLiveIntoEntry ok (Liveness.isLiveInIff.mp live).2
    · split at begins
      · rw [List.head?_eq_getElem?, there] at begins
        simp [now] at begins
      · obtain ⟨d, -, absent⟩ := Option.map_eq_some_iff.mp begins
        cases absent
  · rintro ⟨other, live⟩
    obtain ⟨first, begins, begun⟩ := begunBefore sited below there other live
    have free := definedBefore ok reachable sited begins begun
    exact ⟨first, begins, begun, (endsBehind sited below begun inside free).mpr live⟩

end Finished

structure SoleCarrier (f : Func) (label v : Nat) : Prop where
  carries : ⟨v, label⟩ ∈ f.valueLabels
  assigned : (f.location v).isAssigned = true
  only : ∀ w, ⟨w, label⟩ ∈ f.valueLabels → (f.location w).isAssigned = true → w = v

theorem SoleCarrier.carriers {f : Func} {label v : Nat} (sole : SoleCarrier f label v) : carriers f label = [v] := by
  have ascend : (LabelRanges.carriers f label).Pairwise (· < ·) := carriersAscend
  have all : ∀ w ∈ LabelRanges.carriers f label, w = v := fun w listed =>
    sole.only w (memCarriers.mp listed).2 (memCarriers.mp listed).1
  have inside : v ∈ LabelRanges.carriers f label := memCarriers.mpr ⟨sole.assigned, sole.carries⟩
  generalize LabelRanges.carriers f label = values at *
  match values, inside with
  | [w], _ => rw [all w List.mem_cons_self]
  | a :: b :: rest, _ =>
    have before := (List.pairwise_cons.mp ascend).1 b List.mem_cons_self
    rw [all a List.mem_cons_self, all b (by simp)] at before
    exact absurd before (Nat.lt_irrefl v)

section Covered
variable {f : Func} {live : Liveness} {b v : Nat} {bb : Block}

theorem codeSizeTake (insts : List Inst) {i j : Nat} (le : i ≤ j) :
    codeSize f (insts.take i) ≤ codeSize f (insts.take j) := by
  have split := codeSizeSplit (f := f) (insts.take j) i
  rw [List.take_take, Nat.min_eq_left le] at split
  omega

def BytesOf (f : Func) (b : Nat) (bb : Block) (k : Nat) (inst : Inst) (offset : Nat) : Prop :=
  ∃ start, f.blockOffsets[b]? = some start ∧ start + codeSize f (bb.insts.take k) ≤ offset ∧
    offset < start + codeSize f (bb.insts.take k) + instructionSize f inst

variable {k offset : Nat} {inst : Inst} (there : bb.insts[k]? = some inst) (bytes : BytesOf f b bb k inst offset)
include there bytes

theorem betweenContains (first last : Nat) :
    (between f b bb v first last).Contains offset ↔ first ≤ k ∧ k < last := by
  obtain ⟨start, sited, low, high⟩ := bytes
  have next := codeSizeNext (f := f) there
  unfold between LocationRange.Contains
  dsimp only
  rw [List.getD_eq_getElem?_getD, sited, Option.getD_some]
  constructor
  · rintro ⟨begun, before⟩
    refine ⟨Nat.le_of_not_lt fun later => ?_, Nat.lt_of_not_le fun beyond => ?_⟩
    · have far := codeSizeTake (f := f) (i := k + 1) bb.insts later
      omega
    · have near := codeSizeTake (f := f) bb.insts beyond
      omega
  · rintro ⟨begun, before⟩
    have first := codeSizeTake (f := f) bb.insts begun
    have last := codeSizeTake (f := f) (i := k + 1) bb.insts before
    omega

theorem blockRangeContains : (∃ r, blockRange? f live b bb v = some r ∧ r.Contains offset) ↔
    ∃ first, beginsAt live b bb v = some first ∧ first ≤ k ∧ k < endsAt live b bb v first := by
  constructor
  · rintro ⟨r, found, contains⟩
    obtain ⟨first, begins, rfl, -⟩ := blockRangeIff.mp found
    exact ⟨first, begins, (betweenContains there bytes ..).mp contains⟩
  · rintro ⟨first, begins, inside⟩
    have contains := (betweenContains (v := v) there bytes ..).mpr inside
    exact ⟨_, blockRangeIff.mpr ⟨first, begins, rfl, Nat.lt_of_le_of_lt contains.1 contains.2⟩, contains⟩

variable (laid : f.blockOffsets = startsFrom 0 (f.blocks.map (blockSize f))) (sited : f.blocks[b]? = some bb)
include laid sited

theorem rangesContain {label : Nat} (sole : SoleCarrier f label v) :
    (∃ r ∈ rangesOf f live label, r.Contains offset) ↔
      ∃ first, beginsAt live b bb v = some first ∧ first ≤ k ∧ k < endsAt live b bb v first := by
  rw [← blockRangeContains there bytes]
  constructor
  · rintro ⟨r, listed, contains⟩
    obtain ⟨c, cc, home, w, carries, found⟩ := memRangesOf.mp listed
    rw [sole.carriers, List.mem_singleton] at carries
    subst carries
    have inside := rangeInside laid home found
    obtain ⟨start, place, low, high⟩ := bytes
    cases (offsetAt laid sited).symm.trans place
    have next := startOfNext (f := f) sited
    have rest := codeSizeTake (f := f) (i := k + 1) bb.insts (List.getElem?_eq_some_iff.mp there).1
    rw [codeSizeNext there, List.take_length] at rest
    unfold LocationRange.Contains at contains
    have same : c = b := by
      rcases Nat.lt_trichotomy c b with before | same | after
      · have later : startOf f f.blocks b = startOf f f.blocks (c + 1) + _ := startOfLater before
        omega
      · exact same
      · have later : startOf f f.blocks c = startOf f f.blocks (b + 1) + _ := startOfLater after
        omega
    subst same
    cases Option.some.inj (home.symm.trans sited)
    exact ⟨r, found, contains⟩
  · rintro ⟨r, found, contains⟩
    exact ⟨r, memRangesOf.mpr ⟨b, bb, sited, v, sole.carriers ▸ List.mem_singleton_self v, found⟩, contains⟩

end Covered

theorem Joins.contains {ranges found : List LocationRange} (joins : Joins ranges found) (offset : Nat) :
    (∃ r ∈ found, r.Contains offset) ↔ ∃ a ∈ ranges, a.Contains offset := by
  constructor
  · rintro ⟨r, listed, contains⟩
    obtain ⟨a, inside, -, also⟩ := (joins.covers r.location offset).mp ⟨r, listed, rfl, contains⟩
    exact ⟨a, inside, also⟩
  · rintro ⟨a, listed, contains⟩
    obtain ⟨r, inside, -, also⟩ := (joins.covers a.location offset).mpr ⟨a, listed, rfl, contains⟩
    exact ⟨r, inside, also⟩

/-- Ranges that hold, of every instruction but the prologue, the bytes exactly if a value is live before it, with gaps
between them and the value's location in all of them. -/
structure FollowsLiveness (f : Func) (v : Nat) (found : List LocationRange) : Prop where
  located : ∀ r ∈ found, r.location = f.location v
  proper : ∀ r ∈ found, r.start < r.stop
  gaps : found.Pairwise fun a b => a.stop < b.start
  live : ∀ b bb k inst offset, f.blocks[b]? = some bb → bb.insts[k]? = some inst → BytesOf f b bb k inst offset →
    ((∃ r ∈ found, r.Contains offset) ↔ inst.op ≠ .prologue ∧ v ∈ f.liveAt b k)

theorem joinedFollow {f : Func} (ok : WellFormed f) (reachable : Reachable f)
    (sized : f.locations.length = f.numValues)
    (laid : f.blockOffsets = startsFrom 0 (f.blocks.map (blockSize f))) {label v : Nat}
    (sole : SoleCarrier f label v) :
    FollowsLiveness f v (joined (rangesOf f (Liveness.ofFunc f (FlowGraph.ofFunc f)) label)) := by
  have joins : Joins (rangesOf f (Liveness.ofFunc f (FlowGraph.ofFunc f)) label) _ := rangesJoined
  have located : ∀ r ∈ joined (rangesOf f (Liveness.ofFunc f (FlowGraph.ofFunc f)) label),
      r.location = f.location v := by
    intro r listed
    obtain ⟨a, inside, place, -⟩ := joins.ends r listed
    obtain ⟨b, bb, -, w, carries, found⟩ := memRangesOf.mp inside
    rw [sole.carriers, List.mem_singleton] at carries
    obtain ⟨first, -, rfl, -⟩ := blockRangeIff.mp found
    rw [← place, ← carries]
    rfl
  have ordered : (rangesOf f (Liveness.ofFunc f (FlowGraph.ofFunc f)) label).Pairwise
      fun a b => a.stop ≤ b.start := by
    refine rangesPairwise laid (fun b bb _ => ?_) fun _ _ _ behind => behind
    rw [sole.carriers, List.filterMap_cons]
    split
    · exact .nil
    · exact List.pairwise_singleton _ _
  refine ⟨located, joins.proper, joins.gaps located ordered, fun b bb k inst offset sited there bytes => ?_⟩
  have below : v < f.numValues := by
    rw [← sized]
    by_contra beyond
    have assigned := sole.assigned
    rw [Func.location, List.getD_eq_getElem?_getD, List.getElem?_eq_none (Nat.not_lt.mp beyond)] at assigned
    cases assigned
  rw [joins.contains, rangesContain there bytes laid sited sole, presentIff ok reachable sited below there]

end X64.LabelRanges

namespace Session
open X64 X64.LabelRanges

theorem labelRangesFollowLiveness {s u : Session} {t : Target} {f : Func} {info : CodeInfo}
    (verified : verifyFunction f = []) (checked : t.flags.enableVerifier = true ∨ Tidy f)
    (compiled : (s.setFunction f).compile t = (u, .ok info)) :
    ∃ ranges, labelRanges u.func = .ok ranges ∧ ∀ label v, SoleCarrier u.func label v →
      FollowsLiveness u.func v ((ranges.lookup label).getD []) := by
  have finished := compileFinished verified checked compiled
  obtain ⟨laid, ranges, given⟩ := compiledRanges compiled
  refine ⟨ranges, given, fun label v sole => ?_⟩
  rw [lookupLabelRanges given]
  exact joinedFollow finished.wellFormed finished.reachable finished.located.sized laid sole

theorem namedReturnFollows : verifyFunction namedReturn = [] ∧
    ∃ u info, (setFunction {} namedReturn).compile {} = (u, .ok info) ∧ ∃ ranges, labelRanges u.func = .ok ranges ∧
      ∀ label v, SoleCarrier u.func label v → FollowsLiveness u.func v ((ranges.lookup label).getD []) := by
  have verified : verifyFunction namedReturn = [] := by decide
  obtain ⟨u, info, compiled⟩ := compiledOf (s := setFunction {} namedReturn) (t := {}) (by decide +kernel)
  exact ⟨verified, u, info, compiled, labelRangesFollowLiveness verified (.inl rfl) compiled⟩

/-- Goes round until what it loads is zero. The constant that it returns names the loaded value where a constant has
no use for it. -/
def hiddenUse : Func :=
  { name := "f"
    signature := { params := [.i64], returns := [.i64] }
    blocks := [
      { label := "entry", params := [⟨0, .i64⟩]
        insts := [{ op := .jump, targets := ["loop"], targetArgs := [[]], enc := .ofRecipe .jump }] },
      { label := "loop"
        insts := [
          { op := .load, ty := .i64, operands := [.temp 0], result := some 1, enc := .ofRecipe .load },
          { op := .iconst, ty := .i64, operands := [.int 7], targetArgs := [[.temp 1]], result := some 2,
            enc := .ofRecipe .iconst },
          { op := .brif, operands := [.temp 1], targets := ["loop", "done"], targetArgs := [[], []],
            enc := .ofRecipe .brif }] },
      { label := "done", insts := [{ op := .ret, operands := [.temp 2], enc := .ofRecipe .ret }] }]
    valueTypes := [.i64, .i64, .i64]
    valueLabels := [⟨1, 9⟩] }

def hiddenUseHoisted : Func :=
  { hiddenUse with
    blocks := (hiddenUse.blocks.modify 0 fun entry => { entry with
        insts := (hiddenUse.block 1).insts[1]?.toList ++ entry.insts }).modify 1 fun loop =>
      { loop with insts := loop.insts.eraseIdx 1 } }

def hiddenUseAllocated : Func := { hiddenUseHoisted with locations := [.reg rbx, .reg r12, .reg r13] }

def hiddenUseFramed : Func :=
  { hiddenUseAllocated with
    blocks := hiddenUseHoisted.blocks.modify 0 fun entry =>
      { entry with insts := FrameLayout.prologueInst :: entry.insts }
    frame := { laidOut := true, spillAreaSize := 8, savedRegs := [rbx, r12, r13] } }

def hiddenUseLaid : Func := (relaxBranches {} (shrinkInstructions hiddenUseFramed).1).1

def thoroughly : Target := { flags := { optLevel := .best, enableVerifier := false } }

theorem hiddenUseCompiles :
    ∃ u info, (ofFunc hiddenUse).compile thoroughly = (u, .ok info) ∧ u.func = hiddenUseLaid := by
  have relaxed : relaxBranches thoroughly.limits (shrinkInstructions hiddenUseFramed).1 =
      (hiddenUseLaid, .ok ⟨52, 0, 0, 52⟩) := Prod.ext rfl (by decide +kernel)
  refine compileUnchecked rfl rfl [.flowGraph, .foldConstants, .legalize, .fuseBranches, .dominators, .loops,
      .hoistInvariants, .numberValues, .refreshDominators, .removeUnreachable, .eliminateDeadCode]
    [.shrinkInstructions, .relaxBranches] ⟨[[1], [1, 2], []], [[], [0, 1], [1]]⟩
    ⟨[0, 1, 2], [none, some 0, some 1], [[1], [2], []]⟩ hiddenUseHoisted hiddenUseAllocated
      hiddenUseFramed ?_ ?_ ?_ ?_ ?_
    fun s func => ?_
  · decide
  · decide +kernel
  · decide +kernel
  · cbv
  · cbv
  · obtain ⟨shrunk, func, ran⟩ := shrunkUnchecked (t := thoroughly) rfl func [.relaxBranches]
    obtain ⟨laid, func, last⟩ := relaxedUnchecked (t := thoroughly) rfl func relaxed []
    exact ⟨laid, func, ran.trans last⟩

/-- The loaded value has become live into the entry, and its range has the bytes of the prologue. -/
theorem hiddenUseInPrologue : verifyFunction hiddenUse = [] ∧
    ∃ u info, (ofFunc hiddenUse).compile thoroughly = (u, .ok info) ∧ SoleCarrier u.func 9 1 ∧
      ∃ found, labelRanges u.func = .ok [(9, found)] ∧ ¬ FollowsLiveness u.func 1 found := by
  obtain ⟨u, info, compiled, func⟩ := hiddenUseCompiles
  refine ⟨by decide, u, info, compiled, ?_⟩
  rw [func]
  have labels : hiddenUseLaid.valueLabels = [⟨1, 9⟩] := by decide +kernel
  have given : labelRanges hiddenUseLaid = .ok [(9, [⟨.reg r12, 0, 22⟩, ⟨.reg r12, 31, 38⟩])] := by cbv
  refine ⟨⟨labels ▸ List.mem_singleton_self _, by decide +kernel, fun w carries _ => ?_⟩, _, given, fun follows => ?_⟩
  · rw [labels, List.mem_singleton] at carries
    exact (ValueLabel.mk.inj carries).1
  · have opens : (hiddenUseLaid.block 0).insts[0]? = some FrameLayout.prologueInst := by decide +kernel
    have entry : hiddenUseLaid.blocks[0]? = some (hiddenUseLaid.block 0) := by decide +kernel
    have bytes : BytesOf hiddenUseLaid 0 (hiddenUseLaid.block 0) 0 FrameLayout.prologueInst 0 :=
      ⟨0, by decide +kernel, Nat.le_refl 0, by decide +kernel⟩
    exact ((follows.live 0 _ 0 _ 0 entry opens bytes).mp
      ⟨_, List.mem_cons_self, Nat.le_refl 0, Nat.succ_pos 21⟩).1 rfl

end Session
end SsaCodegen
