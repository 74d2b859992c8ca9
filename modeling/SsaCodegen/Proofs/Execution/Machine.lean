import SsaCodegen.Proofs.Layout.Relative
/-! The machine that runs emitted code: general registers, memory and flags. A run goes through
the instructions of some code in order, until a branch is taken, a trap stops it, or the code
ends. It is known of moves into registers, tests and branches, which is what decides where
control goes. -/
namespace SsaCodegen.X64

structure Flags where
  zero : Bool
  sign : Bool
  carry : Bool
  overflow : Bool
  parity : Bool
  deriving DecidableEq, Repr

namespace Flags

def evenOnes (b : Byte) : Bool := (List.range 8).countP (b.getLsbD ·) % 2 == 0

def ofLogic {w : Nat} (result : BitVec w) : Flags :=
  ⟨result == 0, result.msb, false, false, evenOnes (result.setWidth 8)⟩

end Flags

def Cond.holds (f : Flags) : Cond → Bool
  | o => f.overflow
  | no => !f.overflow
  | b => f.carry
  | ae => !f.carry
  | e => f.zero
  | ne => !f.zero
  | be => f.carry || f.zero
  | a => !(f.carry || f.zero)
  | s => f.sign
  | ns => !f.sign
  | p => f.parity
  | np => !f.parity
  | l => f.sign != f.overflow
  | ge => f.sign == f.overflow
  | le => f.zero || f.sign != f.overflow
  | g => !(f.zero || f.sign != f.overflow)

structure Machine where
  regs : Gpr → BitVec 64
  memory : BitVec 64 → Byte
  flags : Flags

namespace Machine

def set (m : Machine) (r : Gpr) (word : BitVec 64) : Machine :=
  { m with regs := fun s => if s = r then word else m.regs s }

def word (m : Machine) (address : BitVec 64) : BitVec 64 :=
  BitVec.ofNat 64 (fromLittleEndian ((List.range 8).map fun k => m.memory (address + BitVec.ofNat 64 k)))

def address (m : Machine) (base : Gpr) (disp : BitVec 32) : BitVec 64 :=
  m.regs base + disp.signExtend 64

end Machine

inductive Control where
  | trap
  | branch (taken : Flags → Bool)

namespace MachineInst

def control? : MachineInst → Option Control
  | ud2 => some .trap
  | jmpShort _ | jmpNear _ => some (.branch fun _ => true)
  | jccShort c _ | jccNear c _ => some (.branch (c.holds ·))
  | _ => none

def step? (m : Machine) : MachineInst → Option Machine
  | movRR dst src true => some (m.set dst (m.regs src))
  | movRR dst src false => some (m.set dst (((m.regs src).setWidth 32).setWidth 64))
  | movImm32 dst imm => some (m.set dst (imm.setWidth 64))
  | movSignedImm32 dst imm => some (m.set dst (imm.signExtend 64))
  | movImm64 dst imm => some (m.set dst imm)
  | load dst base disp .qword => some (m.set dst (m.word (m.address base disp)))
  | test a b true => some { m with flags := .ofLogic (m.regs a &&& m.regs b) }
  | test a b false => some { m with flags := .ofLogic ((m.regs a &&& m.regs b).setWidth 32) }
  | _ => none

end MachineInst

inductive Stop where
  | reached (offset : Int)
  | trapped
  deriving DecidableEq, Repr

def run (start : Nat) : List Asm → Machine → Option (Machine × Stop)
  | [], m => some (m, .reached start)
  | a :: rest, m =>
    match a.resolve start with
    | none => run start rest m
    | some i =>
      let next := start + (i.bytes start).length
      match i.control? with
      | some .trap => some (m, .trapped)
      | some (.branch taken) =>
        if taken m.flags then (i.reaches? start).map fun target => (m, .reached target)
        else run next rest m
      | none => (i.step? m).bind (run next rest)

namespace run
variable {start : Nat} {m : Machine} (rest : List Asm)

theorem inst {i : MachineInst} {n : Machine} (plain : i.control? = none) (steps : i.step? m = some n) :
    run start (.inst i :: rest) m = run (start + (Asm.inst i).size) rest n := by
  have size : (i.bytes start).length = (Asm.inst i).size := lengthBytes start 0 i
  simp only [run, Asm.resolve, plain, steps, Option.bind_some, size]

theorem branch {i : MachineInst} {taken : Flags → Bool} (control : i.control? = some (.branch taken)) :
    run start (.inst i :: rest) m =
      if taken m.flags then (i.reaches? start).map fun target => (m, .reached target)
      else run (start + (i.bytes start).length) rest m := by
  simp only [run, Asm.resolve, control]

theorem jump {near : Bool} {target : Nat}
    (reach : InReach near ((target : Int) - (start + (Asm.jump near target).size : Nat))) :
    run start (.jump near target :: rest) m = some (m, .reached target) := by
  obtain ⟨i, resolved, reaches, -⟩ := Asm.branchReaches (.inl rfl) reach
  have control : i.control? = some (.branch fun _ => true) := by
    cases near <;> cases resolved <;> rfl
  simp only [run, resolved, control, reaches, if_true, Option.map_some]

theorem jumpIf {cond : Cond} {near : Bool} {target : Nat}
    (reach : InReach near ((target : Int) - (start + (Asm.jumpIf cond near target).size : Nat))) :
    run start (.jumpIf cond near target :: rest) m =
      if cond.holds m.flags then some (m, .reached target)
      else run (start + (Asm.jumpIf cond near target).size) rest m := by
  obtain ⟨i, resolved, reaches, bytes⟩ := Asm.branchReaches (.inr ⟨cond, rfl⟩) reach
  have control : i.control? = some (.branch (cond.holds ·)) := by
    cases near <;> cases resolved <;> rfl
  have size : (i.bytes start).length = (Asm.jumpIf cond near target).size :=
    bytes ▸ Asm.sizeEmission start _
  simp only [run, resolved, control, reaches, Option.map_some, size]

end run
end SsaCodegen.X64
