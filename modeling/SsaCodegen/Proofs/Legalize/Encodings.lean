import SsaCodegen.Proofs.Ir.Bare
import SsaCodegen.Proofs.Legalize.Edges
import SsaCodegen.Proofs.Legalize.FloatRuns
import SsaCodegen.Proofs.Legalize.SelectedRuns
/-! Legalization as a whole. Pool indices and encodings leave the code as it is, and when no
instruction was refused all have an encoding. -/
namespace SsaCodegen

namespace X64

theorem encodeLegal {f : Func} {inst : Inst} {enc : Encoding} (present : encode? f inst = some enc) :
    enc.isLegal = true := by
  unfold encode? at present
  dsimp only at present
  split at present
  · cases present
  · split at present
    · cases present
      simp [Encoding.isLegal, Encoding.ofRecipe, Recipe.number]
    · cases present

namespace Legalize

theorem internInstsCore (pool : List (BitVec 64)) (insts : List Inst) :
    (internInsts pool insts).1.map Inst.core = insts.map Inst.core := by
  induction insts generalizing pool with
  | nil => rfl
  | cons inst rest ih =>
    have same : (internInst pool inst).1.core = inst.core := by
      unfold internInst
      split
      · rename_i op _
        simp [Inst.core, op]
      · rfl
    exact List.cons_eq_cons.mpr ⟨same, ih _⟩

theorem internBlocksCore (pool : List (BitVec 64)) (blocks : List Block) :
    (internBlocks pool blocks).1.map (Block.mapInsts Inst.core) =
      blocks.map (Block.mapInsts Inst.core) := by
  induction blocks generalizing pool with
  | nil => rfl
  | cons bb rest ih =>
    refine List.cons_eq_cons.mpr ⟨?_, ih _⟩
    simp only [Block.mapInsts, internInstsCore]

theorem encodeInstsDone {f : Func} {insts : List Inst} (done : (encodeInsts f insts).2 = none) :
    (encodeInsts f insts).1.map Inst.core = insts.map Inst.core ∧
      ∀ inst ∈ (encodeInsts f insts).1, inst.enc.isLegal = true := by
  induction insts with
  | nil => exact ⟨rfl, fun inst absent => absurd absent List.not_mem_nil⟩
  | cons inst rest ih =>
    unfold encodeInsts at done ⊢
    cases encoded : encode? f inst with
    | none => rw [encoded] at done; cases done
    | some enc =>
      rw [encoded] at done
      obtain ⟨core, legal⟩ := ih done
      refine ⟨List.cons_eq_cons.mpr ⟨rfl, core⟩, fun j listed => ?_⟩
      rcases List.mem_cons.mp listed with rfl | later
      · exact encodeLegal encoded
      · exact legal j later

theorem encodeBlocksDone {f : Func} {blocks : List Block}
    (done : (encodeBlocks f blocks).2 = .ok ()) :
    (encodeBlocks f blocks).1.map (Block.mapInsts Inst.core) = blocks.map (Block.mapInsts Inst.core) ∧
      ∀ bb ∈ (encodeBlocks f blocks).1, ∀ inst ∈ bb.insts, inst.enc.isLegal = true := by
  induction blocks with
  | nil => exact ⟨rfl, fun bb absent => absurd absent List.not_mem_nil⟩
  | cons bb rest ih =>
    unfold encodeBlocks at done ⊢
    cases failed : (encodeInsts f bb.insts).2 with
    | some inst => simp [failed] at done
    | none =>
      simp only [failed] at done ⊢
      obtain ⟨core, legal⟩ := encodeInstsDone failed
      obtain ⟨core', legal'⟩ := ih done
      refine ⟨List.cons_eq_cons.mpr ⟨?_, core'⟩, fun b listed => ?_⟩
      · simp only [Block.mapInsts, core]
      · rcases List.mem_cons.mp listed with rfl | later
        · exact legal
        · exact legal' b later

theorem encodeBlocksKind {f : Func} {blocks : List Block} {e : Failure}
    (failed : (encodeBlocks f blocks).2 = .error e) : e.kind = .legalization := by
  induction blocks with
  | nil => cases failed
  | cons bb rest ih =>
    unfold encodeBlocks at failed
    dsimp only at failed
    split at failed
    · cases failed
      rfl
    · exact ih failed

end Legalize

namespace Legalize

theorem rewritesRemade {f : Func} (clean : Clean f) :
    Remade f (splitArgumentEdges (expandFloatSelects (materializeFloats f))) := by
  have floats := materializeFloatsRemade clean
  have selects := expandFloatSelectsRemade floats.clean
  exact (floats.trans selects).trans (splitArgumentEdgesRemade selects.clean)

end Legalize

open Legalize in
theorem legalizeEncodes {f g : Func} (done : legalize f = (g, .ok ())) :
    SameCore (splitArgumentEdges (expandFloatSelects (materializeFloats f))) g ∧ Encoded g := by
  unfold legalize at done
  split at done
  · cases done
  · dsimp only at done
    generalize splitArgumentEdges (expandFloatSelects (materializeFloats f)) = e at done ⊢
    have interned : SameCore e (internConstants e) := ⟨internBlocksCore e.constants e.blocks, rfl, rfl⟩
    generalize internConstants e = mid at done interned
    cases result : (encodeBlocks mid mid.blocks).2 with
    | error e => rw [result] at done; cases done
    | ok =>
      rw [result] at done
      obtain ⟨core, legal⟩ := encodeBlocksDone result
      generalize (encodeBlocks mid mid.blocks).1 = blocks at *
      have after := interned.trans (⟨core, rfl, rfl⟩ : SameCore mid { mid with blocks := blocks })
      have all : Encoded { mid with blocks := blocks } := fun inst listed => by
        obtain ⟨bb, inside, there⟩ := List.mem_flatMap.mp listed
        exact legal bb inside inst there
      simp only [Prod.mk.injEq, and_true] at done
      split at done
      · subst done
        exact ⟨after, all⟩
      · subst done
        exact ⟨after.trans (.noted _), all⟩

theorem legalizeLowered {f g : Func} (clean : Clean f) (done : legalize f = (g, .ok ())) : Lowered g := by
  obtain ⟨same, encoded⟩ := legalizeEncodes done
  exact ⟨same.toSameCode.clean (Legalize.rewritesRemade clean).clean, encoded⟩

theorem legalizeKind {f g : Func} {e : Failure} (failed : legalize f = (g, .error e)) :
    e.kind = .legalization := by
  unfold legalize at failed
  split at failed
  · rename_i refused
    cases failed
    unfold Legalize.checkSignature at refused
    split at refused
    · cases refused
      rfl
    · split at refused
      · cases refused
        rfl
      · cases refused
  · dsimp only at failed
    generalize Legalize.internConstants _ = mid at failed
    cases result : (Legalize.encodeBlocks mid mid.blocks).2 with
    | error e' =>
      rw [result] at failed
      cases failed
      exact Legalize.encodeBlocksKind result
    | ok => rw [result] at failed; cases failed

end X64
end SsaCodegen
