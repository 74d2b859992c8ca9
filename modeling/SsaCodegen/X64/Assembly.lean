import SsaCodegen.X64.Encoder
/-! Assembly of one instruction's expansion. A branch names the offset of the block it
goes to; its displacement is resolved where it stands and its size does not depend
on that. Trap sites and stack maps mark the instruction that follows them. -/
namespace SsaCodegen.X64

inductive Asm where
  | inst (i : MachineInst)
  | jump (near : Bool) (target : Nat)
  | jumpIf (cond : Cond) (near : Bool) (target : Nat)
  | trapSite (code : TrapCode) (pos : SourcePos)
  | stackMap (slots : List Nat) (frameOffsets : List Int)
  deriving DecidableEq, Repr

namespace Asm

def displacement (offset size target : Nat) : Int := (target : Int) - (offset + size : Nat)

def resolve (offset : Nat) : Asm → Option MachineInst
  | inst i => some i
  | jump false target => some (.jmpShort (BitVec.ofInt 8 (displacement offset 2 target)))
  | jump true target => some (.jmpNear (BitVec.ofInt 32 (displacement offset 5 target)))
  | jumpIf c false target => some (.jccShort c (BitVec.ofInt 8 (displacement offset 2 target)))
  | jumpIf c true target => some (.jccNear c (BitVec.ofInt 32 (displacement offset 6 target)))
  | trapSite .. | stackMap .. => none

def emission (offset : Nat) (a : Asm) : Emission :=
  match a with
  | trapSite code pos => { traps := [⟨offset, pos, code⟩] }
  | stackMap slots frameOffsets => { stackMaps := [⟨offset, slots, frameOffsets⟩] }
  | _ =>
    match a.resolve offset with
    | some i => i.emission offset
    | none => {}

end Asm

def assemble (offset : Nat) : List Asm → Emission
  | [] => {}
  | a :: rest =>
    let e := a.emission offset
    e.append (assemble (offset + e.size) rest)

theorem assembleAppend (offset : Nat) (a b : List Asm) :
    assemble offset (a ++ b) = (assemble offset a).append (assemble (offset + (assemble offset a).size) b) := by
  induction a generalizing offset with
  | nil => simp [assemble, Emission.size]
  | cons x rest ih => simp [assemble, ih, Emission.appendAssoc, Nat.add_assoc]

end SsaCodegen.X64
