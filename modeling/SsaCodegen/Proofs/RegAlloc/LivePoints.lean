import Mathlib.Data.List.Permutation
import SsaCodegen.Proofs.Flow.LivenessByPaths
import SsaCodegen.Proofs.RegAlloc.Intervals
/-! Intervals against the liveness of single instructions. Liveness runs along edges, back edges included, while an
interval is one range over the layout. Inside a block the two meet: a value that is live at a point was defined in
front of it or came in with the block, and is read behind it or leaves with the block, and all of these are touched. -/
namespace SsaCodegen
open FlowGraph Intervals

inductive Func.LiveBefore (f : Func) (v : Nat) : Nat → Nat → Prop where
  | reads {b i bb inst} (located : f.blocks[b]? = some bb) (there : bb.insts[i]? = some inst)
      (used : v ∈ inst.usedTemps) : f.LiveBefore v b i
  | passes {b i bb inst} (located : f.blocks[b]? = some bb) (there : bb.insts[i]? = some inst)
      (kept : inst.result ≠ some v) (later : f.LiveBefore v b (i + 1)) : f.LiveBefore v b i
  | leaves {b s bb next} (located : f.blocks[b]? = some bb) (edge : s ∈ (FlowGraph.ofFunc f).successors b)
      (into : f.blocks[s]? = some next) (other : v ∉ next.paramIds) (later : f.LiveBefore v s 0) :
      f.LiveBefore v b bb.insts.length

variable {f : Func} {v : Nat}

namespace Func.LiveBefore

theorem backToStart {b n : Nat} {bb : Block} (located : f.blocks[b]? = some bb) (inside : n ≤ bb.insts.length)
    (free : ∀ inst ∈ bb.insts.take n, inst.result ≠ some v) (live : f.LiveBefore v b n) :
    f.LiveBefore v b 0 := by
  induction n with
  | zero => exact live
  | succ n ih =>
    have there : bb.insts[n]? = some bb.insts[n] := List.getElem?_eq_getElem inside
    have last : bb.insts[n] ∈ bb.insts.take (n + 1) :=
      List.mem_of_getElem? (by rwa [List.getElem?_take_of_lt (Nat.lt_succ_self n)])
    refine ih (Nat.le_of_succ_le inside) (fun inst early => free inst ?_) (.passes located there (free _ last) live)
    exact List.take_subset_take_left _ (Nat.le_succ n) early

theorem readSomewhere {b i : Nat} (live : f.LiveBefore v b i) :
    ∃ bb ∈ f.blocks, ∃ inst ∈ bb.insts, v ∈ inst.usedTemps := by
  induction live with
  | reads located there used =>
    exact ⟨_, List.mem_of_getElem? located, _, List.mem_of_getElem? there, used⟩
  | passes _ _ _ _ ih => exact ih
  | leaves _ _ _ _ _ ih => exact ih

end Func.LiveBefore

theorem LiveInto.before {b : Nat} (live : LiveInto f v b) :
    ∃ bb, f.blocks[b]? = some bb ∧ v ∉ bb.paramIds ∧ f.LiveBefore v b 0 := by
  induction live with
  | @reads b bb located reads =>
    obtain ⟨param, before, reader, after, split, used, free⟩ := Block.readsOnEntryIff.mp reads
    have there : bb.insts[before.length]? = some reader := by simp [split]
    refine ⟨bb, located, param, .backToStart located (Nat.le_of_lt (List.getElem?_eq_some_iff.mp there).1) ?_
      (.reads located there used)⟩
    simpa [split] using free
  | @through b s bb located edge _ pass ih =>
    obtain ⟨next, into, other, later⟩ := ih
    refine ⟨bb, located, fun param => pass (Block.memDefinedIds.mpr (.inl param)),
      .backToStart located (Nat.le_refl _) (fun inst inside result => ?_)
        (.leaves located (memSuccessors.mpr ⟨bb, located, edge⟩) into other later)⟩
    exact pass (Block.memDefinedIds.mpr (.inr ⟨inst, List.mem_of_mem_take inside, result⟩))

theorem liveAtEnd {b : Nat} {bb : Block} (located : f.blocks[b]? = some bb) :
    f.liveAt b bb.insts.length = (Liveness.ofFunc f (FlowGraph.ofFunc f)).liveOut b := by
  rw [Func.liveAt, Func.blockAt located, List.drop_length]
  rfl

theorem memLiveAtIff {b i : Nat} {bb : Block} (located : f.blocks[b]? = some bb) (inside : i ≤ bb.insts.length) :
    v ∈ f.liveAt b i ↔ v < f.numValues ∧ f.LiveBefore v b i := by
  constructor
  · intro live
    obtain ⟨n, size⟩ := Nat.exists_eq_add_of_le inside
    induction n generalizing i with
    | zero =>
      cases size
      rw [liveAtEnd located] at live
      obtain ⟨below, s, edge, later⟩ := (Liveness.memLiveOut located).mp live
      obtain ⟨next, into, other, later⟩ := later.before
      exact ⟨below, .leaves located (memSuccessors.mpr ⟨bb, located, edge⟩) into other later⟩
    | succ n ih =>
      have there : bb.insts[i]? = some bb.insts[i] := List.getElem?_eq_getElem (by omega)
      rcases (memLiveAt (by rwa [Func.blockAt located])).mp live with ⟨used, below⟩ | ⟨later, kept⟩
      · exact ⟨below, .reads located there used⟩
      · exact (ih (by omega) later (by omega)).imp_right (.passes located there kept)
  · rintro ⟨below, live⟩
    clear located inside
    induction live with
    | reads located there used => exact (memLiveAt (by rwa [Func.blockAt located])).mpr (.inl ⟨used, below⟩)
    | passes located there kept _ ih => exact (memLiveAt (by rwa [Func.blockAt located])).mpr (.inr ⟨ih, kept⟩)
    | leaves located edge into other _ ih =>
      rw [liveAtEnd located]
      obtain ⟨_, here, edge⟩ := memSuccessors.mp edge
      cases Option.some.inj (located.symm.trans here)
      have starts := Liveness.liveAtStart into
        (by simpa only [Func.liveAt, Func.blockAt into, List.drop_zero] using ih)
      exact (Liveness.memLiveOut located).mpr ⟨below, _, edge, (starts.resolve_left other).2⟩

inductive Func.Needed (f : Func) (v : Nat) : Nat → Prop where
  | before {b k bb inst} (located : f.blocks[b]? = some bb) (there : bb.insts[k]? = some inst)
      (live : f.LiveBefore v b k) : f.Needed v (instPos (blockStart f b) k)
  | after {b k bb inst} (located : f.blocks[b]? = some bb) (there : bb.insts[k]? = some inst)
      (live : f.LiveBefore v b (k + 1)) : f.Needed v (instPos (blockStart f b) k)
  | defined {b k bb inst} (located : f.blocks[b]? = some bb) (there : bb.insts[k]? = some inst)
      (result : inst.result = some v) : f.Needed v (instPos (blockStart f b) k)
  | param {b bb} (located : f.blocks[b]? = some bb) (param : v ∈ bb.paramIds) : f.Needed v (blockStart f b)
  | into {b} (live : (Liveness.ofFunc f (FlowGraph.ofFunc f)).isLiveIn b v = true) : f.Needed v (blockStart f b)

def Func.CallsAt (f : Func) (pos : Nat) : Prop :=
  ∃ b k bb inst, f.blocks[b]? = some bb ∧ bb.insts[k]? = some inst ∧ inst.op = .call ∧
    pos = instPos (blockStart f b) k

def Interval.Contains (iv : Interval) (pos : Nat) : Prop := iv.start ≤ pos ∧ pos ≤ iv.stop

theorem Func.Needed.between {pos : Nat} (needed : f.Needed v pos) (below : v < f.numValues) :
    (∃ p, Touched f v p ∧ p ≤ pos) ∧ ∃ p, Touched f v p ∧ pos ≤ p := by
  have itself {p : Nat} (touched : Touched f v p) :
      (∃ q, Touched f v q ∧ q ≤ p) ∧ ∃ q, Touched f v q ∧ p ≤ q :=
    ⟨⟨p, touched, Nat.le_refl p⟩, p, touched, Nat.le_refl p⟩
  cases needed with
  | @before b k bb inst located there live =>
    have inside : k < bb.insts.length := (List.getElem?_eq_some_iff.mp there).1
    have live := (memLiveAtIff located (Nat.le_of_lt inside)).mpr ⟨below, live⟩
    obtain ⟨p, touched, since⟩ := liveSince located (Nat.le_of_lt inside) live
    exact ⟨⟨p, touched, by simp only [instPos]; omega⟩, liveOnward located there live⟩
  | @after b k bb inst located there live =>
    have inside : k + 1 ≤ bb.insts.length := (List.getElem?_eq_some_iff.mp there).1
    have live := (memLiveAtIff located inside).mpr ⟨below, live⟩
    obtain ⟨p, touched, since⟩ := liveSince located inside live
    obtain ⟨q, touched', still⟩ := liveStill located inside live
    exact ⟨⟨p, touched, by simp only [instPos]; omega⟩, q, touched', by simp only [instPos]; omega⟩
  | @defined b k bb inst located there result =>
    exact itself (touchedIff.mpr ⟨b, bb, located, .inr (.inl ⟨k, inst, there, rfl, .inr result⟩)⟩)
  | param located param => exact itself (paramTouched located param)
  | @into b live =>
    obtain ⟨bb, located, -⟩ := (Liveness.isLiveInIff.mp live).2.before
    exact itself (touchedIff.mpr ⟨b, bb, located, .inl ⟨rfl, .inr (Liveness.listedIn.mpr live)⟩⟩)

namespace Intervals
variable {ivs : Intervals}

namespace Listing
variable (all : Listing f ivs)
include all

theorem contains {pos : Nat} (below : v < f.numValues) (needed : f.Needed v pos) :
    ∃ iv ∈ ivs.intervals, iv.value = v ∧ iv.Contains pos := by
  obtain ⟨⟨p, touched, since⟩, q, touched', still⟩ := needed.between below
  obtain ⟨iv, inside, rfl⟩ := all.all v p below touched
  have covers := (all.hull iv inside).covers
  exact ⟨iv, inside, rfl, Nat.le_trans (covers p touched).1 since, Nat.le_trans still (covers q touched').2⟩

theorem crossesIff {iv : Interval} (inside : iv ∈ ivs.intervals) :
    iv.crossesCall = true ↔ ∃ pos, f.CallsAt pos ∧ iv.start < pos ∧ pos < iv.stop := by
  rw [(all.hull iv inside).crosses]
  constructor
  · rintro ⟨c, site, within⟩
    obtain ⟨bb, inst, located, there, called, place⟩ := memCallSites.mp site
    exact ⟨c.pos, ⟨c.block, c.index, bb, inst, located, there, called, place⟩, within⟩
  · rintro ⟨pos, ⟨b, k, bb, inst, located, there, called, place⟩, within⟩
    exact ⟨⟨pos, b, k⟩, memCallSites.mpr ⟨bb, inst, located, there, called, place⟩, within⟩

theorem strictlyOrdered : ivs.intervals.Pairwise fun a b =>
    a.start < b.start ∨ (a.start = b.start ∧ a.value < b.value) := by
  refine (all.ordered.and (List.pairwise_map.mp all.once)).imp fun {a b} both => ?_
  obtain ⟨before | ⟨same, le⟩, differ⟩ := both
  · exact .inl before
  · exact .inr ⟨same, Nat.lt_of_le_of_ne le differ⟩

theorem memValues : v ∈ ivs.intervals.map Interval.value ↔ v < f.numValues ∧ v ∈ f.definedIds := by
  rw [List.mem_map]
  constructor
  · rintro ⟨iv, inside, rfl⟩
    exact ⟨(all.hull iv inside).allocated, all.defined iv inside⟩
  · rintro ⟨below, defined⟩
    obtain ⟨pos, touched⟩ := definedTouched defined
    exact all.all v pos below touched

theorem crossesAcross (ok : WellFormed f) {b k : Nat} {bb : Block} {call : Inst} (located : f.blocks[b]? = some bb)
    (there : bb.insts[k]? = some call) (called : call.op = .call) (before : f.LiveBefore v b k)
    (after : f.LiveBefore v b (k + 1)) : ∃ iv ∈ ivs.intervals, iv.value = v ∧ iv.crossesCall = true := by
  have below : v < f.numValues := by
    obtain ⟨home, listed, reader, inside, used⟩ := before.readSomewhere
    exact ok.allocated ((ok.sound home listed reader inside).defined v used)
  have inner := callInner ok located there called
  have live := (memLiveAtIff located (by omega)).mpr ⟨below, before⟩
  have still := (memLiveAtIff located (Nat.le_of_lt inner)).mpr ⟨below, after⟩
  obtain ⟨p, touched, since⟩ := liveSince located (by omega) live
  obtain ⟨q, touched', behind⟩ := liveBehind located inner still
  obtain ⟨iv, inside, rfl⟩ := all.all v p below touched
  have covers := (all.hull iv inside).covers
  refine ⟨iv, inside, rfl, (all.crossesIff inside).mpr ⟨_, ⟨b, k, bb, call, located, there, called, rfl⟩, ?_, ?_⟩⟩
  · exact Nat.lt_of_le_of_lt (Nat.le_trans (covers p touched).1 since) (by simp only [instPos]; omega)
  · exact Nat.lt_of_lt_of_le behind (covers q touched').2

end Listing

/-- Whatever the function, the intervals that are found cover the liveness of all values that it has a type for. -/
theorem intervalsCoverLiveness {f : Func} {ivs : Intervals}
    (made : Intervals.ofFunc f (Liveness.ofFunc f (FlowGraph.ofFunc f)) = .ok ivs) :
    (∀ v pos, v < f.numValues → f.Needed v pos → ∃ iv ∈ ivs.intervals, iv.value = v ∧ iv.Contains pos) ∧
    (∀ iv ∈ ivs.intervals, iv.crossesCall = true ↔
      ∃ pos, f.CallsAt pos ∧ iv.start < pos ∧ pos < iv.stop) ∧
    (verifyFunction f = [] → ∀ v b k bb call, f.blocks[b]? = some bb → bb.insts[k]? = some call →
      call.op = .call → f.LiveBefore v b k → f.LiveBefore v b (k + 1) →
        ∃ iv ∈ ivs.intervals, iv.value = v ∧ iv.crossesCall = true) ∧
    (ivs.intervals.Pairwise fun a b => a.start < b.start ∨ (a.start = b.start ∧ a.value < b.value)) ∧
    (ivs.intervals.map Interval.value).Nodup ∧
    ∀ v, v ∈ ivs.intervals.map Interval.value ↔ v < f.numValues ∧ v ∈ f.definedIds := by
  have all := listed made
  refine ⟨fun v pos => all.contains, fun iv => all.crossesIff, fun verified v b k bb call => ?_,
    all.strictlyOrdered, all.once, fun v => all.memValues⟩
  exact all.crossesAcross (verifiedIff.mp verified)

def callUntilZeroIntervals : Intervals :=
  { intervals := [⟨0, 0, 2, .gpr, false, false⟩, ⟨1, 4, 12, .gpr, true, false⟩, ⟨2, 6, 8, .gpr, false, false⟩]
    calls := [⟨6, 1, 0⟩] }

theorem callUntilZeroCovered :
    Intervals.ofFunc callUntilZero (Liveness.ofFunc callUntilZero (FlowGraph.ofFunc callUntilZero)) =
      .ok callUntilZeroIntervals ∧
    verifyFunction callUntilZero = [] ∧ callUntilZero.LiveBefore 1 1 0 ∧ callUntilZero.LiveBefore 1 1 1 ∧
    (∃ iv ∈ callUntilZeroIntervals.intervals, iv.value = 1 ∧ iv.crossesCall = true) ∧
    ∀ pos, callUntilZero.Needed 2 pos → 6 ≤ pos ∧ pos ≤ 8 := by
  have made : Intervals.ofFunc callUntilZero (Liveness.ofFunc callUntilZero (FlowGraph.ofFunc callUntilZero)) =
      .ok callUntilZeroIntervals := by cbv
  have verified : verifyFunction callUntilZero = [] := by decide
  have again : callUntilZero.blocks[1]? = some (callUntilZero.block 1) := rfl
  have before : callUntilZero.LiveBefore 1 1 0 := .reads again rfl (by decide)
  have after : callUntilZero.LiveBefore 1 1 1 := .reads again rfl (by decide)
  obtain ⟨covered, -, across, -⟩ := intervalsCoverLiveness made
  refine ⟨made, verified, before, after, across verified 1 1 0 _ _ again rfl rfl before after, fun pos needed => ?_⟩
  obtain ⟨iv, inside, value, within⟩ := covered 2 pos (by decide) needed
  simp only [callUntilZeroIntervals, List.mem_cons, List.not_mem_nil, or_false] at inside
  rcases inside with rfl | rfl | rfl
  · cases value
  · cases value
  · exact within

def untypedParameter : Func :=
  { signature := { params := [.i64], returns := [.i64] }
    blocks := [{ label := "entry", params := [⟨0, .i64⟩], insts := [{ op := .ret, operands := [.temp 0] }] }] }

/-- An id without a type gets no interval, although it is defined and read and nothing is reported as undefined. -/
theorem untypedParameterUncovered : ∃ ivs,
    Intervals.ofFunc untypedParameter (Liveness.ofFunc untypedParameter (FlowGraph.ofFunc untypedParameter)) =
      .ok ivs ∧
    untypedParameter.Needed 0 0 ∧ untypedParameter.LiveBefore 0 0 0 ∧ 0 ∈ untypedParameter.definedIds ∧
    ¬ ∃ iv ∈ ivs.intervals, iv.value = 0 := by
  have entry : untypedParameter.blocks[0]? = some (untypedParameter.block 0) := rfl
  exact ⟨⟨[], []⟩, by cbv, .param entry (by decide), .reads entry rfl (by decide), by decide, by simp⟩

end Intervals
end SsaCodegen
