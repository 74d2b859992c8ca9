import SsaCodegen.Proofs.Flow.Liveness
import SsaCodegen.Proofs.Flow.Paths
/-! Liveness by paths. A value is live into a block when a way leads from there to an instruction that reads it
and neither a block on the way nor an instruction in front of the reader defines it. The search for those
blocks, for each value apart, finds them all in any graph. -/
namespace SsaCodegen
open FlowGraph

structure Block.ReadsFirst (bb : Block) (v : Nat) : Prop where
  param : v ∉ bb.paramIds
  reader : ∃ before reader after, bb.insts = before ++ reader :: after ∧ v ∈ reader.usedTemps ∧
    ∀ inst ∈ before, inst.result ≠ some v

def Func.ReadsAlong (f : Func) (v : Nat) (nodes : List Nat) : Prop :=
  ∃ earlier n later, nodes = earlier ++ n :: later ∧ (∀ m ∈ earlier, v ∉ (f.block m).definedIds) ∧
    (f.block n).ReadsFirst v

theorem readsBeforeDefIff {v : Nat} {insts : List Inst} : readsBeforeDef v insts = true ↔
    ∃ before reader after, insts = before ++ reader :: after ∧ v ∈ reader.usedTemps ∧
      ∀ inst ∈ before, inst.result ≠ some v := by
  induction insts with
  | nil => simp [readsBeforeDef]
  | cons inst rest ih =>
    simp only [readsBeforeDef, Inst.usesTemp, Inst.defines, Bool.or_eq_true, List.contains_iff_mem, Bool.and_eq_true,
      Bool.not_eq_true', beq_eq_false_iff_ne, ih]
    constructor
    · rintro (used | ⟨passes, before, reader, after, rfl, used, free⟩)
      · exact ⟨[], inst, rest, rfl, used, fun _ absent => absurd absent List.not_mem_nil⟩
      · exact ⟨inst :: before, reader, after, rfl, used, List.forall_mem_cons.mpr ⟨passes, free⟩⟩
    · rintro ⟨before, reader, after, split, used, free⟩
      cases before with
      | nil =>
        cases split
        exact .inl used
      | cons first before =>
        cases split
        obtain ⟨passes, free⟩ := List.forall_mem_cons.mp free
        exact .inr ⟨passes, before, reader, after, rfl, used, free⟩

theorem Block.readsOnEntryIff {bb : Block} {v : Nat} : bb.readsOnEntry v = true ↔ bb.ReadsFirst v := by
  simp only [readsOnEntry, Bool.and_eq_true, Bool.not_eq_true', List.contains_eq_mem, decide_eq_false_iff_not,
    readsBeforeDefIff]
  exact ⟨fun reads => ⟨reads.1, reads.2⟩, fun reads => ⟨reads.param, reads.reader⟩⟩

theorem Block.ReadsFirst.inside {f : Func} {n v : Nat} (reads : (f.block n).ReadsFirst v) :
    f.blocks[n]? = some (f.block n) := by
  cases located : f.blocks[n]? with
  | some bb => rw [Func.blockAt located]
  | none =>
    have nothing : (f.block n).insts = [] := by
      rw [Func.block, List.getD_eq_getElem?_getD, located]
      rfl
    obtain ⟨_, _, _, split, -⟩ := reads.reader
    exact absurd (nothing.symm.trans split) (by simp)

theorem liveIntoIff {f : Func} {v b : Nat} : LiveInto f v b ↔
    ∃ nodes last, (FlowGraph.ofFunc f).Way b nodes last ∧ f.ReadsAlong v nodes := by
  constructor
  · intro live
    induction live with
    | @reads b bb located reads =>
      have reads := Block.readsOnEntryIff.mp reads
      refine ⟨[b], b, .here, [], b, [], rfl, fun _ absent => absurd absent List.not_mem_nil, ?_⟩
      rwa [Func.blockAt located]
    | @through b s bb located edge later pass ih =>
      obtain ⟨nodes, last, way, earlier, n, rest, rfl, free, reads⟩ := ih
      refine ⟨_, last, .step (memSuccessors.mpr ⟨bb, located, edge⟩) way, b :: earlier, n, rest, rfl, ?_, reads⟩
      rw [List.forall_mem_cons, Func.blockAt located]
      exact ⟨pass, free⟩
  · rintro ⟨nodes, last, way, earlier, n, rest, split, free, reads⟩
    induction earlier generalizing b nodes with
    | nil =>
      have start : n = b := by cases way <;> cases split <;> rfl
      exact start ▸ .reads reads.inside (Block.readsOnEntryIff.mpr reads)
    | cons m earlier ih =>
      obtain ⟨pass, free⟩ := List.forall_mem_cons.mp free
      cases way with
      | here => simp at split
      | step edge way =>
        cases split
        obtain ⟨bb, located, edge⟩ := memSuccessors.mp edge
        exact .through located edge (ih _ way rfl free) (Func.blockAt located ▸ pass)

/-- Whatever the function and the storage, the rounds come to an end, and what they leave says of each block and
value whether a way leads from the block to a reader; the values are listed in their order, each once. -/
theorem livenessByPaths (old : Liveness) (f : Func) :
    let g := FlowGraph.ofFunc f
    ∃ live, old.compute? f g = some live ∧
      (∀ b v, live.isLiveIn b v = true ↔
        v < f.numValues ∧ ∃ nodes last, g.Way b nodes last ∧ f.ReadsAlong v nodes) ∧
      (∀ b v, live.isLiveOut b v = true ↔ ∃ s ∈ g.successors b, live.isLiveIn s v = true) ∧
      ∀ b, ((live.liveIn b).Pairwise (· < ·) ∧ ∀ v, v ∈ live.liveIn b ↔ live.isLiveIn b v = true) ∧
        (live.liveOut b).Pairwise (· < ·) ∧ ∀ v, v ∈ live.liveOut b ↔ live.isLiveOut b v = true := by
  obtain ⟨live, made, solves⟩ := Liveness.computes old (Liveness.withinOf f)
  refine ⟨live, made, fun b v => ?_, fun b v => (solves.out b v).trans (and_iff_right_of_imp ?_), fun b =>
    ⟨⟨live.ascendingIn b, fun v => Liveness.listedIn⟩, live.ascendingOut b, fun v => Liveness.listedOut⟩⟩
  · exact (solves.into b v).trans (and_congr_right fun _ => Liveness.liveAlongIff.trans liveIntoIff)
  · rintro ⟨s, edge, -⟩
    obtain ⟨bb, found, -⟩ := memSuccessors.mp edge
    exact (List.getElem?_eq_some_iff.mp found).1

end SsaCodegen
