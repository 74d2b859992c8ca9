import SsaCodegen.Proofs.Flow.Labels
import SsaCodegen.Proofs.Flow.LiveRounds
import SsaCodegen.Verify.Locations
/-! Liveness inside blocks and between them. The set before an instruction is computed from
the set after it; at the start of a block nothing is live but its parameters and what is
live into it, and nothing is live into the entry of a well-formed function. -/
namespace SsaCodegen
open Search FlowGraph

theorem memInsertAscending {n m : Nat} {live : List Nat} :
    m ∈ insertAscending n live ↔ m = n ∨ m ∈ live := by
  induction live with
  | nil => simp [insertAscending]
  | cons k rest ih =>
    unfold insertAscending
    split
    · simp
    · split
      · rename_i same
        simp [same]
      · simp only [List.mem_cons, ih]
        rw [or_left_comm]

theorem ascendingInsert {n : Nat} {live : List Nat} (sorted : live.Pairwise (· < ·)) :
    (insertAscending n live).Pairwise (· < ·) := by
  induction live with
  | nil => simp [insertAscending]
  | cons k rest ih =>
    obtain ⟨least, later⟩ := List.pairwise_cons.mp sorted
    unfold insertAscending
    split
    · rename_i below
      refine List.pairwise_cons.mpr ⟨fun m inside => ?_, sorted⟩
      rcases List.mem_cons.mp inside with rfl | further
      · exact below
      · exact Nat.lt_trans below (least m further)
    · split
      · exact sorted
      · refine List.pairwise_cons.mpr ⟨fun m inside => ?_, ih later⟩
        rcases memInsertAscending.mp inside with rfl | further
        · omega
        · exact least m further

theorem memInsertAll {m : Nat} {used live : List Nat} :
    m ∈ used.foldl (fun live id => insertAscending id live) live ↔ m ∈ used ∨ m ∈ live := by
  induction used generalizing live with
  | nil => simp
  | cons id rest ih =>
    rw [List.foldl_cons, ih, memInsertAscending, List.mem_cons, or_left_comm, or_assoc]

theorem ascendingInsertAll {used live : List Nat} (sorted : live.Pairwise (· < ·)) :
    (used.foldl (fun live id => insertAscending id live) live).Pairwise (· < ·) := by
  induction used generalizing live with
  | nil => exact sorted
  | cons id rest ih => exact ih (ascendingInsert sorted)

namespace Inst
variable {inst : Inst} {size v : Nat} {after : List Nat}

theorem ascendingBefore (sorted : after.Pairwise (· < ·)) :
    (inst.liveBefore size after).Pairwise (· < ·) := by
  unfold liveBefore
  refine ascendingInsertAll ?_
  cases inst.result with
  | none => exact sorted
  | some id => exact sorted.sublist List.erase_sublist

theorem memLiveBefore (sorted : after.Pairwise (· < ·)) : v ∈ inst.liveBefore size after ↔
    (v ∈ inst.usedTemps ∧ v < size) ∨ (v ∈ after ∧ inst.result ≠ some v) := by
  have once : after.Nodup := sorted.imp Nat.ne_of_lt
  unfold liveBefore
  rw [memInsertAll, List.mem_filter, decide_eq_true_eq]
  refine or_congr_right ?_
  cases inst.result with
  | none => simp
  | some id =>
    rw [List.Nodup.mem_erase_iff once, and_comm]
    simp [eq_comm]

end Inst

theorem readerAmong {v : Nat} {insts : List Inst} (reads : readsBeforeDef v insts = true) :
    ∃ inst ∈ insts, v ∈ inst.usedTemps := by
  induction insts with
  | nil => cases reads
  | cons inst rest ih =>
    simp only [readsBeforeDef, Inst.usesTemp, Bool.or_eq_true, List.contains_iff_mem,
      Bool.and_eq_true] at reads
    rcases reads with used | ⟨-, later⟩
    · exact ⟨inst, List.mem_cons_self, used⟩
    · obtain ⟨reader, inside, used⟩ := ih later
      exact ⟨reader, List.mem_cons_of_mem _ inside, used⟩

def liveFrom (size : Nat) (out : List Nat) (insts : List Inst) : List Nat :=
  insts.foldr (fun inst after => inst.liveBefore size after) out

section LiveFrom
variable {size : Nat} {out : List Nat} (sorted : out.Pairwise (· < ·))
include sorted

theorem ascendingFrom (insts : List Inst) : (liveFrom size out insts).Pairwise (· < ·) := by
  induction insts with
  | nil => exact sorted
  | cons inst rest ih => exact Inst.ascendingBefore ih

theorem memLiveFrom {insts : List Inst} {v : Nat} : v ∈ liveFrom size out insts ↔
    (v < size ∧ readsBeforeDef v insts = true) ∨
      (v ∈ out ∧ ∀ inst ∈ insts, inst.result ≠ some v) := by
  induction insts with
  | nil => simp [liveFrom, readsBeforeDef]
  | cons inst rest ih =>
    have reads : readsBeforeDef v (inst :: rest) = true ↔
        v ∈ inst.usedTemps ∨ (inst.result ≠ some v ∧ readsBeforeDef v rest = true) := by
      simp [readsBeforeDef, Inst.usesTemp, Inst.defines]
    have step : liveFrom size out (inst :: rest) =
        inst.liveBefore size (liveFrom size out rest) := rfl
    rw [step, Inst.memLiveBefore (ascendingFrom sorted rest), ih, reads, List.forall_mem_cons]
    constructor
    · rintro (⟨used, below⟩ | ⟨⟨below, later⟩ | ⟨leaves, later⟩, kept⟩)
      · exact .inl ⟨below, .inl used⟩
      · exact .inl ⟨below, .inr ⟨kept, later⟩⟩
      · exact .inr ⟨leaves, kept, later⟩
    · rintro (⟨below, used | ⟨kept, later⟩⟩ | ⟨leaves, kept, later⟩)
      · exact .inl ⟨used, below⟩
      · exact .inr ⟨.inl ⟨below, later⟩, kept⟩
      · exact .inr ⟨.inr ⟨leaves, later⟩, kept⟩

end LiveFrom

inductive LiveInto (f : Func) (v : Nat) : Nat → Prop where
  | reads {b bb} (located : f.blocks[b]? = some bb) (reads : bb.readsOnEntry v = true) :
      LiveInto f v b
  | through {b s bb} (located : f.blocks[b]? = some bb) (edge : s ∈ targetsOf f bb)
      (later : LiveInto f v s) (pass : v ∉ bb.definedIds) : LiveInto f v b

namespace Liveness
variable {f : Func} {v b : Nat}

theorem withinOf (f : Func) : (FlowGraph.ofFunc f).Within f := fun _ _ _ edge =>
  (memSuccessors.mp edge).elim fun _ found => targetsInside found.2

theorem liveAlongIff : LiveAlong f (FlowGraph.ofFunc f) v b ↔ LiveInto f v b := by
  constructor
  · intro live
    induction live with
    | reads found reads => exact .reads found reads
    | through found edge later pass ih =>
      obtain ⟨bb, here, edge⟩ := memSuccessors.mp edge
      cases Option.some.inj (found.symm.trans here)
      exact .through found edge ih pass
  · intro live
    induction live with
    | reads found reads => exact .reads found reads
    | through found edge later pass ih =>
      exact .through found (memSuccessors.mpr ⟨_, found, edge⟩) ih pass

theorem isLiveInIff : (ofFunc f (FlowGraph.ofFunc f)).isLiveIn b v = true ↔
    v < f.numValues ∧ LiveInto f v b :=
  ((solution {} (withinOf f)).into b v).trans (and_congr_right fun _ => liveAlongIff)

theorem isLiveOutIff : (ofFunc f (FlowGraph.ofFunc f)).isLiveOut b v = true ↔
    ∃ s ∈ (FlowGraph.ofFunc f).successors b, (ofFunc f (FlowGraph.ofFunc f)).isLiveIn s v = true := by
  refine ((solution {} (withinOf f)).out b v).trans (and_iff_right_of_imp ?_)
  rintro ⟨s, edge, -⟩
  obtain ⟨bb, found, -⟩ := memSuccessors.mp edge
  exact (List.getElem?_eq_some_iff.mp found).1

theorem memLiveOut {bb : Block} (located : f.blocks[b]? = some bb) :
    v ∈ (ofFunc f (FlowGraph.ofFunc f)).liveOut b ↔
      v < f.numValues ∧ ∃ s ∈ targetsOf f bb, LiveInto f v s := by
  rw [listedOut, isLiveOutIff]
  simp only [isLiveInIff, memSuccessors]
  constructor
  · rintro ⟨s, ⟨bb', at', edge⟩, below, live⟩
    cases Option.some.inj (located.symm.trans at')
    exact ⟨below, s, edge, live⟩
  · rintro ⟨below, s, edge, live⟩
    exact ⟨s, ⟨bb, located, edge⟩, below, live⟩

theorem liveAtStart {bb : Block} (located : f.blocks[b]? = some bb)
    (live : v ∈ liveFrom f.numValues ((ofFunc f (FlowGraph.ofFunc f)).liveOut b) bb.insts) :
    v ∈ bb.paramIds ∨ (v < f.numValues ∧ LiveInto f v b) := by
  refine Classical.or_iff_not_imp_left.mpr fun notParam => ?_
  rcases (memLiveFrom (ascendingOut _ b)).mp live with ⟨below, reads⟩ | ⟨leaves, kept⟩
  · exact ⟨below, .reads located (by simp [Block.readsOnEntry, notParam, reads])⟩
  · obtain ⟨below, s, edge, later⟩ := (memLiveOut located).mp leaves
    refine ⟨below, .through located edge later fun defines => ?_⟩
    rcases Block.memDefinedIds.mp defines with param | ⟨inst, inside, result⟩
    · exact notParam param
    · exact kept inst inside result

end Liveness

theorem Available.notReads {known : Nat → Prop} {insts : List Inst} (ok : Available known insts)
    {v : Nat} (unknown : ¬ known v) : readsBeforeDef v insts = false := by
  induction insts generalizing known with
  | nil => rfl
  | cons inst rest ih =>
    have unused : v ∉ inst.usedTemps := fun used => unknown (ok.1 v used)
    by_cases defines : inst.result = some v
    · simp [readsBeforeDef, Inst.usesTemp, Inst.defines, unused, defines]
    · have later := ih ok.2 (by simp [unknown, defines])
      simp [readsBeforeDef, Inst.usesTemp, Inst.defines, unused, later]

theorem LiveInto.notMissing {f : Func} (ok : WellFormed f) {v b : Nat} (live : LiveInto f v b)
    {bb : Block} (located : f.blocks[b]? = some bb) : ¬ Missing f v bb.label := by
  induction live generalizing bb with
  | reads here reads =>
    cases Option.some.inj (located.symm.trans here)
    intro missing
    simp only [Block.readsOnEntry, Bool.and_eq_true, Bool.not_eq_true', List.contains_eq_mem,
      decide_eq_false_iff_not] at reads
    have silent := (ok.available _ (List.mem_of_getElem? located) missing.reaches).notReads
      (not_or.mpr ⟨not_not_intro missing, reads.1⟩)
    exact absurd (silent.symm.trans reads.2) Bool.false_ne_true
  | through here edge later pass ih =>
    cases Option.some.inj (located.symm.trans here)
    intro missing
    obtain ⟨label, target, found⟩ := memTargetsOf.mp edge
    obtain ⟨next, there, rfl⟩ := Func.findBlockSound found
    exact ih there (.edge (List.mem_of_getElem? located) missing pass target)

theorem notLiveIntoEntry {f : Func} (ok : WellFormed f) {v : Nat} : ¬ LiveInto f v 0 := by
  intro live
  obtain ⟨entry, rest, fits⟩ := ok.entry
  have first : f.blocks[0]? = some entry := by simp [fits.blocks]
  exact live.notMissing ok first (.entry fits.blocks)

end SsaCodegen
