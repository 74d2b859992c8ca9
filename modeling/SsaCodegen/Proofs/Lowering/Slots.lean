import SsaCodegen.Proofs.Lowering.Integers
import SsaCodegen.X64.Frame
import SsaCodegen.X64.Lower
/-! Where values are while code runs: in a general register that the allocator hands out, or in a stack
slot, which is eight bytes at its offset from rbp. Slots lie apart, so what is written to one is read
from it and from no other. -/
namespace SsaCodegen.X64

structure SlotsApart (f : Func) : Prop where
  reach : ∀ s < f.stackSlots.length, fitsInt32 (Lower.slotOffset f s) = true
  apart : ∀ s < f.stackSlots.length, ∀ t < f.stackSlots.length, s ≠ t →
    Lower.slotOffset f s + slotBytes ≤ Lower.slotOffset f t ∨
      Lower.slotOffset f t + slotBytes ≤ Lower.slotOffset f s

def Usable (f : Func) : Location → Prop
  | .reg n => n ∈ registerFile.allocatableGpr
  | .slot s => s < f.stackSlots.length
  | .unassigned => False

namespace Machine

def slotAddress (m : Machine) (f : Func) (slot : Nat) : BitVec 64 :=
  m.address (gprOf rbp) (Lower.slotDisp f slot)

def value (m : Machine) (f : Func) : Location → BitVec 64
  | .reg n => m.regs (gprOf n)
  | .slot s => m.word (m.slotAddress f s)
  | .unassigned => 0

section Words
variable (m : Machine) (address word : BitVec 64)

theorem wordWritten : (m.setWord address word).word address = word := by
  have bytes : ((List.range 8).map fun k => (m.setWord address word).memory (address + BitVec.ofNat 64 k)) =
      littleEndian 8 word := by
    refine List.map_congr_left fun k below => ?_
    have near : (address + BitVec.ofNat 64 k - address).toNat = k := by
      rw [BitVec.add_comm, BitVec.add_sub_cancel, BitVec.toNat_ofNat]
      exact Nat.mod_eq_of_lt (Nat.lt_trans (List.mem_range.mp below) (by decide))
    simp only [setWord, near, if_pos (List.mem_range.mp below)]
  rw [Machine.word, bytes, fromLittleEndianOf]
  refine BitVec.eq_of_toNat_eq ?_
  rw [BitVec.toNat_ofNat, Nat.mod_mod_of_dvd _ (by decide)]
  exact Nat.mod_eq_of_lt word.isLt

theorem wordKept {other : BitVec 64}
    (apart : ∀ k < 8, 8 ≤ (other + BitVec.ofNat 64 k - address).toNat) :
    (m.setWord address word).word other = m.word other := by
  unfold Machine.word
  congr 2
  refine List.map_congr_left fun k below => ?_
  exact if_neg (Nat.not_lt.mpr (apart k (List.mem_range.mp below)))

theorem wordSame {n : Machine} (memory : n.memory = m.memory) : n.word address = m.word address := by
  unfold Machine.word
  rw [memory]

end Words

theorem slotSame {m n : Machine} (f : Func) (s : Nat) (memory : n.memory = m.memory)
    (frame : n.regs (gprOf rbp) = m.regs (gprOf rbp)) : n.value f (.slot s) = m.value f (.slot s) := by
  have here : n.slotAddress f s = m.slotAddress f s := by
    rw [slotAddress, slotAddress, address, address, frame]
  rw [value, value, here]
  exact wordSame m _ memory

section Frames
variable {f : Func} (apart : SlotsApart f) {s t : Nat} (left : s < f.stackSlots.length)
  (right : t < f.stackSlots.length)
include apart left

theorem dispReach : ((Lower.slotDisp f s).signExtend 64).toInt = Lower.slotOffset f s := by
  have reach := apart.reach s left
  simp only [fitsInt32, Bool.and_eq_true, decide_eq_true_eq] at reach
  rw [BitVec.toInt_signExtend_of_le (by decide), Lower.slotDisp, BitVec.toInt_ofInt]
  exact Int.bmod_eq_of_le_mul_two (by omega) (by omega)

include right

theorem slotsApart (m : Machine) (other : s ≠ t) (k : Nat) (below : k < 8) :
    8 ≤ (m.slotAddress f t + BitVec.ofNat 64 k - m.slotAddress f s).toNat := by
  have here := dispReach apart left
  have there := dispReach apart right
  have reachS := apart.reach s left
  have reachT := apart.reach t right
  have distance := apart.apart s left t right other
  simp only [fitsInt32, Bool.and_eq_true, decide_eq_true_eq] at reachS reachT
  rw [← here, ← there] at distance
  rw [← here] at reachS
  rw [← there] at reachT
  unfold slotAddress address
  generalize (Lower.slotDisp f s).signExtend 64 = a at *
  generalize (Lower.slotDisp f t).signExtend 64 = b at *
  generalize m.regs (gprOf rbp) = base
  rw [BitVec.toInt_eq_toNat_cond, BitVec.toInt_eq_toNat_cond] at distance
  rw [BitVec.toInt_eq_toNat_cond] at reachS reachT
  simp only [BitVec.toNat_sub, BitVec.toNat_add, BitVec.toNat_ofNat, slotBytes] at *
  split at reachS <;> split at reachT <;> simp only [*, if_true, if_false] at distance <;> omega

end Frames
end Machine

theorem laidOutApart {f : Func} {saved : Nat} {slots : List StackSlot}
    (laid : f.stackSlots = FrameLayout.layOutSlots saved slots)
    (small : slotBytes * (saved + slots.length) < 2147483648) : SlotsApart f := by
  have length : f.stackSlots.length = slots.length := by rw [laid, FrameLayout.layOutSlots, List.length_mapIdx]
  have offset (s : Nat) (below : s < f.stackSlots.length) :
      Lower.slotOffset f s = -((8 * (saved + s + 1) : Nat) : Int) := by
    rw [length] at below
    rw [Lower.slotOffset, laid, FrameLayout.layOutSlots, List.getElem?_mapIdx, List.getElem?_eq_getElem below]
    exact FrameLayout.slotOffsetEq (by simp only [slotBytes] at small ⊢; omega)
  simp only [slotBytes] at small
  refine ⟨fun s below => ?_, fun s left t right other => ?_⟩
  · rw [offset s below]
    simp only [fitsInt32, Bool.and_eq_true, decide_eq_true_eq]
    omega
  · rw [offset s left, offset t right]
    simp only [slotBytes]
    omega

end SsaCodegen.X64
