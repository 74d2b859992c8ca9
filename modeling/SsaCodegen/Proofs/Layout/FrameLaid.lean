import SsaCodegen.Flow.Graph
import SsaCodegen.X64.Frame
import SsaCodegen.X64.Lower
/-! What the layout of a frame leaves. The registers that are saved are those of the caller that hold a value,
the slots follow below them without gaps, and laying the frame out once more changes nothing. -/
namespace SsaCodegen.X64
open FrameLayout (savedRegs spillAreaSize frameBytes layOutSlots prologueInst dropPrologue)

variable {limits : Limits} {f g : Func}

structure FrameLaid (limits : Limits) (f g : Func) : Prop where
  locations : g.locations = f.locations
  types : g.valueTypes = f.valueTypes
  slots : g.stackSlots = layOutSlots (savedRegs f.locations).length f.stackSlots
  frame : g.frame = ⟨true, spillAreaSize (savedRegs f.locations).length f.stackSlots.length, savedRegs f.locations⟩
  blocks : ∃ entry rest, f.blocks = entry :: rest ∧
    g.blocks = { entry with insts := prologueInst :: dropPrologue entry.insts } :: rest
  small : frameBytes g.frame.savedRegs.length g.frame.spillAreaSize ≤ limits.frameLimit

theorem frameLaidOf (done : layOutFrame limits f = (g, .ok ())) : FrameLaid limits f g := by
  unfold layOutFrame at done
  split at done
  · cases done
  · rename_i entry rest blocks
    dsimp only at done
    split at done
    · cases done
    · rename_i small
      cases done
      exact ⟨rfl, rfl, rfl, rfl, ⟨entry, rest, blocks, rfl⟩, Nat.le_of_not_lt small⟩

theorem dropPrologueSubset (insts : List Inst) : dropPrologue insts ⊆ insts := by
  cases insts with
  | nil => exact List.Subset.refl _
  | cons first rest =>
    rw [dropPrologue]
    split
    · exact List.subset_cons_self ..
    · exact List.Subset.refl _

theorem layOutFrameInsts (done : layOutFrame limits f = (g, .ok ())) : ∀ j ∈ g.insts,
    j = prologueInst ∨ j ∈ f.insts := by
  obtain ⟨entry, rest, was, now⟩ := (frameLaidOf done).blocks
  intro j inside
  simp only [Func.insts, was, now, List.flatMap_cons, List.cons_append, List.mem_cons, List.mem_append] at inside ⊢
  exact inside.imp_right (.imp_left fun listed => dropPrologueSubset _ listed)

theorem layOutFrameKeeps (limits : Limits) (f : Func) : (layOutFrame limits f).1.signature = f.signature ∧
    (layOutFrame limits f).1.constants = f.constants ∧
    (layOutFrame limits f).1.layoutVersion = f.layoutVersion := by
  unfold layOutFrame
  split
  · exact ⟨rfl, rfl, rfl⟩
  · dsimp only
    split <;> exact ⟨rfl, rfl, rfl⟩

theorem memLocations {r : Nat} : .reg r ∈ f.locations ↔ ∃ v, f.location v = .reg r := by
  simp only [Func.location, List.getD_eq_getElem?_getD]
  constructor
  · intro inside
    obtain ⟨v, located⟩ := List.getElem?_of_mem inside
    exact ⟨v, by rw [located]; rfl⟩
  · rintro ⟨v, home⟩
    cases located : f.locations[v]? with
    | none => rw [located] at home; cases home
    | some l =>
      rw [located] at home
      cases home
      exact List.mem_of_getElem? located

theorem memSavedRegs {r : Nat} :
    r ∈ savedRegs f.locations ↔ registerFile.isCalleeSaved r = true ∧ ∃ v, f.location v = .reg r := by
  rw [← memLocations, savedRegs, (List.mergeSort_perm _ _).mem_iff, List.mem_eraseDups, List.mem_filterMap]
  constructor
  · rintro ⟨l, inside, kept⟩
    cases l with
    | reg n =>
      obtain ⟨saved, same⟩ := Option.ite_none_right_eq_some.mp kept
      cases same
      exact ⟨saved, inside⟩
    | _ => cases kept
  · rintro ⟨saved, inside⟩
    exact ⟨_, inside, if_pos saved⟩

theorem savedOnce : (savedRegs f.locations).Nodup :=
  (List.mergeSort_perm _ _).nodup_iff.mpr (FlowGraph.nodupEraseDups _)

structure FrameFits (limits : Limits) (f : Func) : Prop where
  apart : ∀ s < f.stackSlots.length, ∀ t < f.stackSlots.length, s ≠ t →
    slotBytes ≤ (Lower.slotOffset f s - Lower.slotOffset f t).natAbs
  inside : ∀ s < f.stackSlots.length,
    -(slotBytes * f.frame.savedRegs.length + f.frame.spillAreaSize : Nat) ≤ Lower.slotOffset f s ∧
      Lower.slotOffset f s + slotBytes ≤ -(slotBytes * f.frame.savedRegs.length : Nat)
  aligned : stackAlignment ∣ slotBytes * f.frame.savedRegs.length + f.frame.spillAreaSize
  limit : frameBytes f.frame.savedRegs.length f.frame.spillAreaSize ≤ limits.frameLimit
  saved : ∀ r, r ∈ f.frame.savedRegs ↔ registerFile.isCalleeSaved r = true ∧ ∃ v, f.location v = .reg r
  once : f.frame.savedRegs.Nodup

namespace FrameLaid
variable (laid : FrameLaid limits f g)
include laid

theorem savedRegs : g.frame.savedRegs = FrameLayout.savedRegs g.locations := by
  rw [laid.frame, laid.locations]

theorem slotCount : g.stackSlots.length = f.stackSlots.length := by
  rw [laid.slots, layOutSlots, List.length_mapIdx]

theorem spillArea : g.frame.spillAreaSize = spillAreaSize g.frame.savedRegs.length g.stackSlots.length := by
  rw [laid.slotCount, laid.frame]

theorem slotPlaced {s : Nat} (below : s < g.stackSlots.length) :
    Lower.slotOffset g s = FrameLayout.slotOffset g.frame.savedRegs.length s := by
  rw [laid.slotCount] at below
  rw [Lower.slotOffset, laid.slots, layOutSlots, List.getElem?_mapIdx, List.getElem?_eq_getElem below, laid.frame]
  rfl

theorem slotDisp {s : Nat} (below : s < g.stackSlots.length) :
    Lower.slotDisp g s = BitVec.ofInt 32 (-(8 * (g.frame.savedRegs.length + s + 1) : Nat)) := by
  rw [Lower.slotDisp, laid.slotPlaced below]
  exact FrameLayout.slotOffsetMod ..

theorem slotsFill : slotBytes * g.stackSlots.length ≤ g.frame.spillAreaSize := by
  rw [laid.spillArea]
  unfold FrameLayout.spillAreaSize
  dsimp only
  split
  · exact Nat.le_refl _
  · exact Nat.le_add_right _ _

theorem slotOffset (small : limits.frameLimit < 2147483648) {s : Nat} (below : s < g.stackSlots.length) :
    Lower.slotOffset g s = -(8 * (g.frame.savedRegs.length + s + 1) : Nat) := by
  have fill := laid.slotsFill
  have limit := laid.small
  simp only [frameBytes, slotBytes] at fill limit
  rw [laid.slotPlaced below]
  exact FrameLayout.slotOffsetEq (by rw [slotBytes]; omega)

theorem savedIff (r : Nat) : r ∈ g.frame.savedRegs ↔
    registerFile.isCalleeSaved r = true ∧ ∃ v, g.location v = .reg r := by
  rw [laid.savedRegs]
  exact memSavedRegs

theorem savedNodup : g.frame.savedRegs.Nodup := by
  rw [laid.savedRegs]
  exact savedOnce

theorem fits (small : limits.frameLimit < 2147483648) : FrameFits limits g where
  apart s left t right other := by
    rw [laid.slotOffset small left, laid.slotOffset small right]
    simp only [slotBytes]
    omega
  inside s below := by
    have fill := laid.slotsFill
    rw [laid.slotOffset small below]
    simp only [slotBytes] at fill ⊢
    omega
  aligned := by
    have aligned := FrameLayout.stackAligned g.frame.savedRegs.length g.stackSlots.length
    rw [← laid.spillArea] at aligned
    simp only [frameBytes, slotBytes, stackAlignment] at aligned ⊢
    omega
  limit := laid.small
  saved := laid.savedIff
  once := laid.savedNodup

theorem again : layOutFrame limits g = (g, .ok ()) := by
  obtain ⟨entry, rest, -, blocks⟩ := laid.blocks
  have small := laid.small
  rw [laid.spillArea, laid.savedRegs] at small
  have slots : layOutSlots (FrameLayout.savedRegs g.locations).length g.stackSlots = g.stackSlots := by
    rw [← laid.savedRegs, laid.frame, laid.slots]
    refine List.ext_getElem? fun k => ?_
    simp only [layOutSlots, List.getElem?_mapIdx, Option.map_map]
    rfl
  have frame : (⟨true, spillAreaSize (FrameLayout.savedRegs g.locations).length g.stackSlots.length,
      FrameLayout.savedRegs g.locations⟩ : Frame) = g.frame := by
    rw [laid.slotCount, laid.locations, laid.frame]
  have opens : dropPrologue (prologueInst :: dropPrologue entry.insts) = dropPrologue entry.insts := rfl
  simp only [layOutFrame, blocks, if_neg (Nat.not_lt.mpr small), slots, opens]
  rw [frame, ← blocks]

end FrameLaid

end SsaCodegen.X64
