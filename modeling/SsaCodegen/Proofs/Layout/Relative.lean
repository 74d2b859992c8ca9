import Mathlib.Algebra.Group.Nat.Defs
import SsaCodegen.Proofs.Layout.Sizes
/-! Addresses relative to the next instruction, as the machine makes them: the last bytes of
the instruction, lowest first, are a signed distance from its end. -/
namespace SsaCodegen

def fromLittleEndian : List Byte → Nat
  | [] => 0
  | b :: rest => b.toNat + 256 * fromLittleEndian rest

def signedOf (bytes : List Byte) : Int := Int.bmod (fromLittleEndian bytes) (256 ^ bytes.length)

theorem fromLittleEndianOf {w : Nat} (count : Nat) (word : BitVec w) :
    fromLittleEndian (littleEndian count word) = word.toNat % 256 ^ count := by
  have go (k : Nat) : fromLittleEndian ((List.range' k count).map fun j => word.extractLsb' (8 * j) 8) =
      word.toNat / 256 ^ k % 256 ^ count := by
    induction count generalizing k with
    | zero => simp [fromLittleEndian, Nat.mod_one]
    | succ count ih =>
      have byte : (word.extractLsb' (8 * k) 8).toNat = word.toNat / 256 ^ k % 256 := by
        simp [BitVec.extractLsb'_toNat, Nat.shiftRight_eq_div_pow, Nat.pow_mul]
      have split : 256 ^ (count + 1) = 256 * 256 ^ count := Nat.pow_succ'
      rw [List.range'_succ, List.map_cons, fromLittleEndian, ih, byte, split, Nat.mod_mul,
        Nat.div_div_eq_div_mul, ← Nat.pow_succ]
  have all := go 0
  rwa [← List.range_eq_range', Nat.pow_zero, Nat.div_one] at all

theorem signedOfWord (count : Nat) (word : BitVec (8 * count)) :
    signedOf (littleEndian count word) = word.toInt := by
  have power : 256 ^ count = 2 ^ (8 * count) := by rw [Nat.pow_mul]
  rw [signedOf, fromLittleEndianOf, lengthLittleEndian, BitVec.toInt_eq_toNat_bmod, power,
    Nat.mod_eq_of_lt word.isLt]

namespace X64
namespace MachineInst

def distanceBytes? : MachineInst → Option Nat
  | jmpShort _ | jccShort .. => some 1
  | jmpNear _ | jccNear .. | movsdRip .. => some 4
  | _ => none

def reaches? (offset : Nat) (i : MachineInst) : Option Int :=
  i.distanceBytes?.map fun count =>
    let code := i.bytes offset
    (offset + code.length : Nat) + signedOf (code.drop (code.length - count))

theorem reachesTarget {i : MachineInst} {offset count target : Nat} {front : List Byte}
    (relative : i.distanceBytes? = some count) (code : i.bytes offset = front ++ littleEndian count
      (BitVec.ofInt (8 * count) (Asm.displacement offset (front.length + count) target)))
    (low : -((2 ^ (8 * count) : Nat) : Int) ≤ 2 * Asm.displacement offset (front.length + count) target)
    (high : 2 * Asm.displacement offset (front.length + count) target < (2 ^ (8 * count) : Nat)) :
    i.reaches? offset = some (target : Int) := by
  generalize distance : Asm.displacement offset (front.length + count) target = d at *
  have length : (i.bytes offset).length = front.length + count := by
    rw [code, List.length_append, lengthLittleEndian]
  have field : (i.bytes offset).drop ((i.bytes offset).length - count) =
      littleEndian count (BitVec.ofInt (8 * count) d) := by
    rw [length, Nat.add_sub_cancel, code, List.drop_left]
  have word : (BitVec.ofInt (8 * count) d).toInt = d := by
    rw [BitVec.toInt_ofInt]
    exact Int.bmod_eq_of_le_mul_two (by omega) (by omega)
  simp only [reaches?, relative, Option.map_some, field, signedOfWord, word, Option.some.injEq]
  rw [length, ← distance, Asm.displacement]
  omega

theorem ripReaches {dst : Xmm} {target offset : Nat} (below : target < 2147483648)
    (inside : offset + ((movsdRip dst target).bytes offset).length < 2147483648) :
    (movsdRip dst target).reaches? offset = some (target : Int) := by
  have length : ((movsdRip dst target).bytes offset).length = (Encode.ripHead dst).length + 4 := by
    simp only [bytes, List.length_append, lengthLittleEndian]
  have code : (movsdRip dst target).bytes offset = Encode.ripHead dst ++ littleEndian 4 (BitVec.ofInt
      (8 * 4) (Asm.displacement offset ((Encode.ripHead dst).length + 4) target)) := rfl
  refine reachesTarget rfl code ?_ ?_ <;>
    simp only [Asm.displacement] <;> omega

end MachineInst

def InReach (near : Bool) (distance : Int) : Prop :=
  if near then -2147483648 ≤ distance ∧ distance < 2147483648 else fitsInt8 distance = true

namespace Asm
open MachineInst Encode

theorem branchReaches {a : Asm} {near : Bool} {target offset : Nat}
    (branch : a = .jump near target ∨ ∃ c, a = .jumpIf c near target)
    (reach : InReach near ((target : Int) - (offset + a.size : Nat))) :
    ∃ i, a.resolve offset = some i ∧ i.reaches? offset = some (target : Int) ∧
      (a.emission offset).bytes = i.bytes offset := by
  have byte (distance : Int) : [BitVec.ofInt 8 distance] =
      littleEndian 1 (BitVec.ofInt (8 * 1) distance) := by
    simp [littleEndian]
  have word (codes : List Nat) (distance : Int) :
      opcode codes ++ littleEndian 4 (BitVec.ofInt 32 distance) =
      opcode codes ++ littleEndian 4 (BitVec.ofInt (8 * 4) distance) := rfl
  have length (codes : List Nat) : (opcode codes).length = codes.length := List.length_map ..
  cases near with
  | false =>
    simp only [InReach, fitsInt8, Bool.false_eq_true, if_false, Bool.and_eq_true, decide_eq_true_eq]
      at reach
    rcases branch with rfl | ⟨c, rfl⟩
    · have size : (jump false target).size = 2 := rfl
      refine ⟨_, rfl, reachesTarget rfl (congrArg (opcode [0xEB] ++ ·) (byte _)) ?_ ?_, rfl⟩ <;>
        simp only [displacement, length, List.length_singleton] <;> omega
    · have size : (jumpIf c false target).size = 2 := rfl
      refine ⟨_, rfl, reachesTarget rfl (congrArg (opcode [0x70 + c.code] ++ ·) (byte _)) ?_ ?_, rfl⟩ <;>
        simp only [displacement, length, List.length_singleton] <;> omega
  | true =>
    simp only [InReach, if_true] at reach
    rcases branch with rfl | ⟨c, rfl⟩
    · have size : (jump true target).size = 5 := rfl
      refine ⟨_, rfl, reachesTarget rfl (word [0xE9] _) ?_ ?_, rfl⟩ <;>
        simp only [displacement, length, List.length_singleton] <;> omega
    · have size : (jumpIf c true target).size = 6 := rfl
      refine ⟨_, rfl, reachesTarget rfl (word [0x0F, 0x80 + c.code] _) ?_ ?_, rfl⟩ <;>
        simp only [displacement, length, List.length_cons, List.length_nil] <;> omega

end Asm
end X64
end SsaCodegen
