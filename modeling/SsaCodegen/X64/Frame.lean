import SsaCodegen.Failure
import SsaCodegen.X64.Recipe
import SsaCodegen.X64.Target
/-! Frame layout. Below the return address and the caller's rbp lie the callee-saved
registers in use, then the spill area with one slot of eight bytes after another; it
is padded so that the frame keeps the stack aligned. A prologue instruction opens
the entry block of a function whose frame is laid out. -/
namespace SsaCodegen.X64
namespace FrameLayout

def savedRegs (locations : List Location) : List Nat :=
  let used := locations.filterMap fun
    | .reg n => if registerFile.isCalleeSaved n then some n else none
    | _ => none
  used.eraseDups.mergeSort (· ≤ ·)

def spillAreaSize (numSaved numSlots : Nat) : Nat :=
  let bytes := slotBytes * numSlots
  if (slotBytes * numSaved + bytes) % stackAlignment = 0 then bytes else bytes + slotBytes

def frameBytes (numSaved spillArea : Nat) : Nat :=
  2 * slotBytes + slotBytes * numSaved + spillArea

theorem stackAligned (numSaved numSlots : Nat) :
    stackAlignment ∣ frameBytes numSaved (spillAreaSize numSaved numSlots) := by
  simp only [spillAreaSize]
  split <;> simp only [stackAlignment, frameBytes, slotBytes] at * <;> omega

def slotOffset (numSaved index : Nat) : Int :=
  -(BitVec.ofNat 32 (slotBytes * (numSaved + index + 1))).toInt

theorem slotOffsetEq {numSaved index : Nat} (small : slotBytes * (numSaved + index + 1) < 2147483648) :
    slotOffset numSaved index = -(slotBytes * (numSaved + index + 1) : Nat) := by
  rw [slotOffset, BitVec.toInt_ofNat', Int.bmod_eq_of_le (by omega) (by omega)]

theorem slotOffsetMod (numSaved index : Nat) : BitVec.ofInt 32 (slotOffset numSaved index) =
    BitVec.ofInt 32 (-(slotBytes * (numSaved + index + 1) : Nat)) := by
  rw [slotOffset, BitVec.ofInt_neg, BitVec.ofInt_toInt, BitVec.ofInt_neg, BitVec.ofInt_natCast]

def layOutSlots (numSaved : Nat) (slots : List StackSlot) : List StackSlot :=
  slots.mapIdx fun k s => { s with offset := slotOffset numSaved k }

def prologueInst : Inst := { op := .prologue, enc := .ofRecipe .prologue }

def dropPrologue : List Inst → List Inst
  | [] => []
  | inst :: rest => if inst.op == .prologue then rest else inst :: rest

end FrameLayout

open FrameLayout in
/-- Lays out the frame, in place of an earlier one. A frame over the limit is refused
after the earlier prologue is gone. -/
def layOutFrame (limits : Limits) (f : Func) : Func × Except Failure Unit :=
  match f.blocks with
  | [] => (f, .error .noEntryBlock)
  | entry :: rest =>
    let body := dropPrologue entry.insts
    let saved := savedRegs f.locations
    let spillArea := FrameLayout.spillAreaSize saved.length f.stackSlots.length
    let bytes := frameBytes saved.length spillArea
    if limits.frameLimit < bytes then
      ({ f with blocks := { entry with insts := body } :: rest },
        .error (.frameTooLarge bytes limits.frameLimit))
    else
      ({ f with
          blocks := { entry with insts := prologueInst :: body } :: rest
          stackSlots := layOutSlots saved.length f.stackSlots
          frame := { laidOut := true, spillAreaSize := spillArea, savedRegs := saved } },
        .ok ())

end SsaCodegen.X64
