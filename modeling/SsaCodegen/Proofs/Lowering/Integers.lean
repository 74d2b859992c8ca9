import Mathlib.Algebra.Group.Int.Defs
import SsaCodegen.Proofs.Execution.Machine
/-! The integer instructions of the machine, on 32 or 64 bits. A result of 32 bits clears the upper
half of its register, shifts take their count modulo the width, and a division takes its dividend from
rdx and rax and faults where the quotient has no place. Flags that an instruction leaves undefined may
be anything. -/
namespace SsaCodegen.X64

def widthOf (wide : Bool) : Nat := if wide then 64 else 32

namespace Flags
variable {w : Nat}

def ofAdd (a b : BitVec w) : Flags :=
  ⟨a + b == 0, (a + b).msb, BitVec.uaddOverflow a b, BitVec.saddOverflow a b,
    evenOnes ((a + b).setWidth 8)⟩

def ofSub (a b : BitVec w) : Flags :=
  ⟨a - b == 0, (a - b).msb, BitVec.usubOverflow a b, BitVec.ssubOverflow a b,
    evenOnes ((a - b).setWidth 8)⟩

end Flags

namespace AluOp
variable {w : Nat}

def apply (op : AluOp) (a b : BitVec w) : BitVec w :=
  match op with
  | add => a + b
  | or => a ||| b
  | and => a &&& b
  | sub | cmp => a - b
  | xor => a ^^^ b

def flags (op : AluOp) (a b : BitVec w) : Flags :=
  match op with
  | add => .ofAdd a b
  | sub | cmp => .ofSub a b
  | _ => .ofLogic (op.apply a b)

end AluOp

def ShiftOp.apply {w : Nat} (op : ShiftOp) (a : BitVec w) (count : Nat) : BitVec w :=
  match op with
  | shl => a <<< count
  | shr => a >>> count
  | sar => a.sshiftRight count

def divideUnsigned {w : Nat} (high low divisor : BitVec w) : Option (BitVec w × BitVec w) :=
  let dividend := high.toNat * 2 ^ w + low.toNat
  if divisor = 0 ∨ 2 ^ w ≤ dividend / divisor.toNat then none
  else some (BitVec.ofNat w (dividend / divisor.toNat), BitVec.ofNat w (dividend % divisor.toNat))

def divideSigned {w : Nat} (high low divisor : BitVec w) : Option (BitVec w × BitVec w) :=
  let dividend := high.toInt * 2 ^ w + low.toNat
  let quotient := dividend.tdiv divisor.toInt
  if divisor = 0 ∨ quotient < -2 ^ (w - 1) ∨ 2 ^ (w - 1) ≤ quotient then none
  else some (BitVec.ofInt w quotient, BitVec.ofInt w (dividend.tmod divisor.toInt))

def divide {w : Nat} (signed : Bool) (high low divisor : BitVec w) : Option (BitVec w × BitVec w) :=
  if signed then divideSigned high low divisor else divideUnsigned high low divisor

namespace Machine

def low (m : Machine) (w : Nat) (r : Gpr) : BitVec w := (m.regs r).setWidth w

def setLow {w : Nat} (m : Machine) (r : Gpr) (x : BitVec w) : Machine := m.set r (x.setWidth 64)

def withFlags (m : Machine) (flags : Flags) : Machine := { m with flags := flags }

def operate {w : Nat} (m : Machine) (op : AluOp) (dst : Gpr) (y : BitVec w) : Machine :=
  let n := m.withFlags (op.flags (m.low w dst) y)
  if op = .cmp then n else n.setLow dst (op.apply (m.low w dst) y)

def setByte (m : Machine) (r : Gpr) (flag : Bool) : Machine :=
  m.set r (m.regs r >>> 8 <<< 8 ||| BitVec.ofNat 64 flag.toNat)

def setWord (m : Machine) (address word : BitVec 64) : Machine :=
  { m with memory := fun a =>
      if (a - address).toNat < 8 then word.extractLsb' (8 * (a - address).toNat) 8 else m.memory a }

end Machine

def extendedImm (imm : BitVec 32) (short : Bool) : BitVec 64 :=
  if short then (imm.setWidth 8).signExtend 64 else imm.signExtend 64

inductive Outcome where
  | goes (m : Machine)
  | faults

abbrev Undefined : Type := MachineInst → Machine → Flags

namespace MachineInst

def execute? (u : Undefined) (m : Machine) (i : MachineInst) : Option Outcome :=
  match i with
  | alu op dst src wide => some (.goes (m.operate op dst (m.low (widthOf wide) src)))
  | aluImm op dst imm wide short =>
    some (.goes (m.operate op dst ((extendedImm imm short).setWidth (widthOf wide))))
  | imul dst src wide =>
    let w := widthOf wide
    some (.goes ((m.setLow dst (m.low w dst * m.low w src)).withFlags (u i m)))
  | imulImm dst src imm wide short =>
    let w := widthOf wide
    some (.goes ((m.setLow dst (m.low w src * (extendedImm imm short).setWidth w)).withFlags (u i m)))
  | shiftCl op dst wide =>
    let w := widthOf wide
    let count := (m.low 8 (gprOf rcx)).toNat % w
    some (.goes ((m.setLow dst (op.apply (m.low w dst) count)).withFlags (u i m)))
  | shiftImm op dst amount wide =>
    let w := widthOf wide
    some (.goes ((m.setLow dst (op.apply (m.low w dst) (amount.toNat % w))).withFlags (u i m)))
  | signExtendAccumulator wide =>
    let w := widthOf wide
    let sign : BitVec w := if (m.low w (gprOf rax)).msb then BitVec.allOnes w else 0
    some (.goes (m.setLow (gprOf rdx) sign))
  | div signed divisor wide =>
    let w := widthOf wide
    match divide signed (m.low w (gprOf rdx)) (m.low w (gprOf rax)) (m.low w divisor) with
    | none => some .faults
    | some (quotient, remainder) =>
      some (.goes (((m.setLow (gprOf rax) quotient).setLow (gprOf rdx) remainder).withFlags (u i m)))
  | setcc cond dst => some (.goes (m.setByte dst.code (cond.holds m.flags)))
  | movzxByte dst src => some (.goes (m.setLow dst (m.low 8 src.code)))
  | cmov cond dst src wide =>
    let chosen := if cond.holds m.flags then src else dst
    some (.goes (m.setLow dst (m.low (widthOf wide) chosen)))
  | movsxd dst src => some (.goes (m.set dst ((m.low 32 src).signExtend 64)))
  | store base disp src .qword => some (.goes (m.setWord (m.address base disp) (m.regs src.code)))
  | storeImm32 base disp imm => some (.goes (m.setWord (m.address base disp) (imm.signExtend 64)))
  | _ => (i.step? m).map .goes

end MachineInst

def perform (u : Undefined) : List Asm → Machine → Option Outcome
  | [], m => some (.goes m)
  | .inst i :: rest, m =>
    match i.execute? u m with
    | some (.goes n) => perform u rest n
    | stopped => stopped
  | .trapSite .. :: rest, m | .stackMap .. :: rest, m => perform u rest m
  | .jump .. :: _, _ | .jumpIf .. :: _, _ => none

section Sequences
variable {u : Undefined} {m n : Machine}

theorem performInst {i : MachineInst} (executes : i.execute? u m = some (.goes n)) (rest : List Asm) :
    perform u (.inst i :: rest) m = perform u rest n := by
  simp only [perform, executes]

theorem performOne {i : MachineInst} (executes : i.execute? u m = some (.goes n)) :
    perform u [.inst i] m = some (.goes n) := performInst executes []

theorem performSequence (a b : List Asm) (m : Machine) : perform u (a ++ b) m =
    match perform u a m with
    | some (.goes n) => perform u b n
    | stopped => stopped := by
  induction a generalizing m with
  | nil => rfl
  | cons item rest ih =>
    cases item with
    | inst i =>
      simp only [List.cons_append, perform]
      split
      · exact ih _
      · rename_i stopped
        split
        · rename_i n goes
          exact absurd goes (stopped n)
        · rfl
    | trapSite code pos => exact ih m
    | stackMap slots offsets => exact ih m
    | jump near target => rfl
    | jumpIf cond near target => rfl

theorem performAppend {a : List Asm} (first : perform u a m = some (.goes n)) (b : List Asm) :
    perform u (a ++ b) m = perform u b n := by
  rw [performSequence, first]

theorem performFaults {a : List Asm} (first : perform u a m = some .faults) (b : List Asm) :
    perform u (a ++ b) m = some .faults := by
  rw [performSequence, first]

end Sequences

namespace Machine
variable (m : Machine) (r s : Gpr) (word : BitVec 64)

theorem getSame : (m.set r word).regs r = word := if_pos rfl

theorem getOther (other : s ≠ r) : (m.set r word).regs s = m.regs s := if_neg other

theorem setSame : m.set r (m.regs r) = m := by
  have same : (fun s => if s = r then m.regs r else m.regs s) = m.regs := by
    funext s
    by_cases here : s = r
    · rw [if_pos here, here]
    · exact if_neg here
  show { m with regs := _ } = m
  rw [same]

end Machine
end SsaCodegen.X64
