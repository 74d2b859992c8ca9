import SsaCodegen.Proofs.Legalize.LegalizedRuns
import SsaCodegen.Proofs.Pipeline.Current
/-! What legalization leaves. The stages after it rely on the form that it gives a function and do
not check it: each encoding is the one that the target would choose now, a float literal stands
only where its bits are loaded from the pool, and conditional edges pass nothing. -/
namespace SsaCodegen
namespace X64

structure Legalized (f : Func) : Prop where
  signature : Legalize.checkSignature f.signature = .ok ()
  encoded : Encoded f
  own : ∀ i ∈ f.insts, encode? f i = some i.enc
  literals : ∀ i ∈ f.insts, ∀ bits, .float bits ∈ i.uses → i.op = .fconst ∧ i.uses = [.float bits]
  pooled : ∀ i ∈ f.insts, i.op = .fconst → ∃ bits, i.operands = [.float bits] ∧ 0 ≤ i.imm ∧
    f.constants[i.imm.toNat]? = some bits
  bare : ∀ i ∈ f.insts, i.op ∈ [.brif, .brIcmp] → ∀ args ∈ i.targetArgs, args = []
  selects : ∀ i ∈ f.insts, i.op = .select → i.ty ≠ .f64
  labels : f.labels.Nodup
  targets : ∀ i ∈ f.insts, ∀ label ∈ i.targets, ∃ b, f.findBlock? label = some b

theorem constantUses {f : Func} {i : Inst} {bits : BitVec 64} (sound : SoundInst f i) (tidy : i.Tidy)
    (op : i.op = .fconst) (operands : i.operands = [.float bits]) : i.uses = [.float bits] := by
  have empty : i.targets = [] := Structure.plainTargets sound.shape (by rw [Inst.isTerminator, op]; rfl)
  rw [Inst.uses, operands, tidy empty]
  rfl

theorem targetFound {f : Func} {i : Inst} (sound : SoundInst f i) {label : String}
    (listed : label ∈ i.targets) : ∃ b, f.findBlock? label = some b := by
  have lists := sound.lists (List.ne_nil_of_mem listed)
  obtain ⟨k, below, rfl⟩ := List.mem_iff_getElem.mp listed
  have paired : (i.targets[k], i.targetArgs[k]) ∈ i.targets.zip i.targetArgs :=
    List.mem_iff_getElem.mpr ⟨k, by simp [lists, below], List.getElem_zip⟩
  obtain ⟨bb, there, same, -⟩ := sound.edges _ paired
  refine Option.isSome_iff_exists.mp (List.findIdx?_isSome.trans ?_)
  exact List.any_eq_true.mpr ⟨bb, List.mem_of_mem_tail there, beq_iff_eq.mpr same⟩

theorem legalizedOf {f : Func} (clean : Clean f) (signature : Legalize.checkSignature f.signature = .ok ())
    (own : ∀ i ∈ f.insts, encode? f i = some i.enc) : Legalized f := by
  have fits (i : Inst) (inside : i ∈ f.insts) : Fits f i := ⟨i.enc, own i inside, rfl⟩
  have pooled (i : Inst) (inside : i ∈ f.insts) := constantPooled (fits i inside) (clean.inst inside).1.toFitInst
  refine ⟨signature, fun i inside => encodeLegal (own i inside), own, fun i inside bits used => ?_, pooled,
    fun i inside => edgesBare (fits i inside), fun i inside => selectsInteger (fits i inside),
    clean.wellFormed.labels, fun i inside label => targetFound (clean.inst inside).1⟩
  have op := literalsConstant (fits i inside) (List.any_eq_true.mpr ⟨_, used, rfl⟩)
  obtain ⟨own, operands, -⟩ := pooled i inside op
  have uses := constantUses (clean.inst inside).1 (clean.inst inside).2.1 op operands
  cases Value.float.inj (List.mem_singleton.mp (uses ▸ used))
  exact ⟨op, uses⟩

def PoolGrown (pool later : List (BitVec 64)) : Prop :=
  ∃ added, later = pool ++ added ∧ added.Nodup ∧ ∀ bits ∈ added, bits ∉ pool

namespace PoolGrown
variable {a b c : List (BitVec 64)}

theorem refl (pool : List (BitVec 64)) : PoolGrown pool pool :=
  ⟨[], (List.append_nil _).symm, List.nodup_nil, fun _ absent => absurd absent List.not_mem_nil⟩

theorem trans (first : PoolGrown a b) (second : PoolGrown b c) : PoolGrown a c := by
  obtain ⟨early, rfl, once, fresh⟩ := first
  obtain ⟨late, rfl, onceLate, freshLate⟩ := second
  refine ⟨early ++ late, List.append_assoc .., List.nodup_append.mpr ⟨once, onceLate, ?_⟩, ?_⟩
  · intro x inEarly y inLate same
    exact freshLate y inLate (same ▸ List.mem_append_right _ inEarly)
  · intro bits inside
    rcases List.mem_append.mp inside with inEarly | inLate
    · exact fresh bits inEarly
    · exact fun old => freshLate bits inLate (List.mem_append_left _ old)

end PoolGrown

namespace Legalize

theorem internConstantGrown (pool : List (BitVec 64)) (bits : BitVec 64) :
    PoolGrown pool (internConstant pool bits).2 := by
  unfold internConstant
  split
  · exact .refl pool
  · rename_i new
    refine ⟨[bits], rfl, List.pairwise_singleton _ _, fun b inside => ?_⟩
    rw [List.mem_singleton.mp inside]
    simpa using new

theorem internInstGrown (pool : List (BitVec 64)) (inst : Inst) : PoolGrown pool (internInst pool inst).2 := by
  unfold internInst
  split
  · exact internConstantGrown ..
  · exact .refl pool

theorem internInstsGrown (pool : List (BitVec 64)) (insts : List Inst) :
    PoolGrown pool (internInsts pool insts).2 := by
  induction insts generalizing pool with
  | nil => exact .refl pool
  | cons inst rest ih => exact (internInstGrown pool inst).trans (ih _)

theorem internBlocksGrown (pool : List (BitVec 64)) (blocks : List Block) :
    PoolGrown pool (internBlocks pool blocks).2 := by
  induction blocks generalizing pool with
  | nil => exact .refl pool
  | cons bb rest ih => exact (internInstsGrown pool bb.insts).trans (ih _)

end Legalize

open Legalize in
theorem legalizePool {f g : Func} (done : legalize f = (g, .ok ())) : PoolGrown f.constants g.constants := by
  have grown := internBlocksGrown f.constants
    (splitArgumentEdges (expandFloatSelects (materializeFloats f))).blocks
  unfold legalize at done
  split at done
  · cases done
  · dsimp only at done
    split at done
    · cases done
    · simp only [Prod.mk.injEq, and_true] at done
      split at done <;> exact done ▸ grown

open Legalize in
theorem legalizeSignature {f g : Func} (done : legalize f = (g, .ok ())) :
    checkSignature g.signature = .ok () := by
  unfold legalize at done
  split at done
  · cases done
  · rename_i fits
    dsimp only at done
    split at done
    · cases done
    · simp only [Prod.mk.injEq, and_true] at done
      split at done <;> exact done ▸ fits

end X64

/-- Legalization that succeeds leaves a legalized function and the graph of it; patterns that the
pool did not have are in it once. -/
theorem legalizationSettles (s u : Session) (verified : verifyFunction s.func = []) (quiet : Quiet s.func)
    (done : s.legalizeFunction = (u, .ok ())) :
    X64.Legalized u.func ∧ X64.PoolGrown s.func.constants u.func.constants ∧
      u.analyses.currentGraph? u.func = some (FlowGraph.ofFunc u.func) := by
  have clean : Clean s.func := ⟨verifiedIff.mp verified, quiet.tidy⟩
  unfold Session.legalizeFunction at done
  cases legalized : X64.legalize s.func with
  | mk g result =>
    rw [legalized] at done
    cases result with
    | error e => cases done
    | ok =>
      cases done
      exact ⟨X64.legalizedOf (X64.legalizeLowered clean legalized).clean (X64.legalizeSignature legalized)
        (X64.legalizeOwn legalized), X64.legalizePool legalized,
        Analyses.currentGraphIff.mpr (Analyses.computeGraphHas ..)⟩

theorem chooseFloatSettled : verifyFunction chooseFloat = [] ∧ Quiet chooseFloat ∧
    ∃ u, (Session.ofFunc chooseFloat).legalizeFunction = (u, .ok ()) ∧ X64.Legalized u.func ∧
      u.func.constants = [0, 1] ∧
      (u.analyses.currentGraph? u.func).map FlowGraph.size = some 7 := by
  have verified : verifyFunction chooseFloat = [] := by decide +kernel
  have quiet : Quiet chooseFloat := by decide
  have done : ((Session.ofFunc chooseFloat).legalizeFunction).2 = .ok () := by decide +kernel
  obtain ⟨legalized, -, current⟩ := legalizationSettles (Session.ofFunc chooseFloat) _ verified quiet
    (Prod.ext rfl done)
  refine ⟨verified, quiet, _, Prod.ext rfl done, legalized, by decide +kernel, ?_⟩
  rw [current]
  decide +kernel

end SsaCodegen
