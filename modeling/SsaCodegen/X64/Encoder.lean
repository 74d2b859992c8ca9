import SsaCodegen.Emit.Emission
import SsaCodegen.X64.MachineInst
/-! The bytes of a machine instruction: legacy byte, REX, opcode, ModRM, SIB,
displacement, immediate. Only a load relative to the next instruction depends on
where it stands. A REX byte is left out when it would say nothing, but kept where
the low byte of rsp, rbp, rsi or rdi is meant. -/
namespace SsaCodegen.X64

def fitsInt8 (n : Int) : Bool := -128 ≤ n && n ≤ 127

def fitsInt32 (n : Int) : Bool := -2147483648 ≤ n && n ≤ 2147483647

def low (r : Fin 16) : Nat := r.val % 8

def isExtended (r : Fin 16) : Bool := 8 ≤ r.val

def needsByteRex (r : Reg) : Bool := 4 ≤ r.val && r.val < 8

namespace Encode

def bit (b : Bool) (value : Nat) : Nat := if b then value else 0

def rexByte (wide reg rm : Bool) : Nat := 64 + bit wide 8 + bit reg 4 + bit rm 1

def rex (wide : Bool) (reg rm : Fin 16) : List Byte :=
  let b := rexByte wide (isExtended reg) (isExtended rm)
  if b = 64 then [] else [byteOf b]

theorem lengthRex (wide : Bool) (reg rm : Fin 16) : (rex wide reg rm).length ≤ 1 := by
  simp only [rex]
  split <;> simp

def noReg : Fin 16 := ⟨0, by decide⟩

def rexRm (wide : Bool) (rm : Fin 16) : List Byte := rex wide noReg rm

def rexLowByte (wanted : Bool) (reg rm : Fin 16) : List Byte :=
  if wanted then [byteOf 64] else rex false reg rm

def modrm (mode reg rm : Nat) : Byte := byteOf (64 * mode + 8 * reg + rm)

def modrmReg (reg rm : Fin 16) : List Byte := [modrm 3 (low reg) (low rm)]

def modrmExt (ext : Nat) (rm : Fin 16) : List Byte := [modrm 3 ext (low rm)]

def dispMode (base : Gpr) (disp : BitVec 32) : Nat :=
  if disp = 0 && low base != 5 then 0 else if fitsInt8 disp.toInt then 1 else 2

def modrmMem (regField : Nat) (base : Gpr) (disp : BitVec 32) : List Byte :=
  let mode := dispMode base disp
  modrm mode regField (low base) :: (if low base = 4 then [byteOf 0x24] else []) ++
    (if mode = 1 then littleEndian 1 disp else if mode = 2 then littleEndian 4 disp else [])

def aluOpcode : AluOp → Nat
  | .add => 0x01
  | .or => 0x09
  | .and => 0x21
  | .sub => 0x29
  | .xor => 0x31
  | .cmp => 0x39

def aluExt : AluOp → Nat
  | .add => 0
  | .or => 1
  | .and => 4
  | .sub => 5
  | .xor => 6
  | .cmp => 7

def shiftExt : ShiftOp → Nat
  | .shl => 4
  | .shr => 5
  | .sar => 7

def sseOpcode : SseOp → Nat
  | .add => 0x58
  | .mul => 0x59
  | .sub => 0x5C
  | .div => 0x5E

def immediate (short : Bool) (imm : BitVec 32) : List Byte :=
  littleEndian (if short then 1 else 4) imm

def opcode (bytes : List Nat) : List Byte := bytes.map byteOf

def ripHead (dst : Xmm) : List Byte :=
  opcode [0xF2] ++ rex false dst noReg ++ opcode [0x0F, 0x10] ++ [modrm 0 (low dst) 5]

end Encode

namespace MachineInst
open Encode

def bytes (offset : Nat) : MachineInst → List Byte
  | movRR dst src wide => rex wide src dst ++ opcode [0x89] ++ modrmReg src dst
  | movImm32 dst imm =>
    rexRm false dst ++ opcode [0xB8 + low dst] ++ littleEndian 4 imm
  | movSignedImm32 dst imm =>
    rexRm true dst ++ opcode [0xC7] ++ modrmExt 0 dst ++ littleEndian 4 imm
  | movImm64 dst imm => rexRm true dst ++ opcode [0xB8 + low dst] ++ littleEndian 8 imm
  | movSymbol dst _ =>
    rexRm true dst ++ opcode [0xB8 + low dst] ++ littleEndian 8 (0 : BitVec 64)
  | load dst base disp .byte =>
    rex false dst base ++ opcode [0x0F, 0xB6] ++ modrmMem (low dst) base disp
  | load dst base disp width =>
    rex (width == .qword) dst base ++ opcode [0x8B] ++ modrmMem (low dst) base disp
  | store base disp src .byte =>
    rexLowByte (needsByteRex src && !isExtended base) src.code base ++ opcode [0x88] ++
      modrmMem (low src.code) base disp
  | store base disp src width =>
    rex (width == .qword) src.code base ++ opcode [0x89] ++ modrmMem (low src.code) base disp
  | storeImm32 base disp imm =>
    rexRm true base ++ opcode [0xC7] ++ modrmMem 0 base disp ++ littleEndian 4 imm
  | lea dst base disp => rex true dst base ++ opcode [0x8D] ++ modrmMem (low dst) base disp
  | push reg => rexRm false reg ++ opcode [0x50 + low reg]
  | pop reg => rexRm false reg ++ opcode [0x58 + low reg]
  | alu op dst src wide => rex wide src dst ++ opcode [aluOpcode op] ++ modrmReg src dst
  | aluImm op dst imm wide short =>
    rexRm wide dst ++ opcode [if short then 0x83 else 0x81] ++ modrmExt (aluExt op) dst ++
      immediate short imm
  | alu8 op dst src => opcode [aluOpcode op - 1] ++ modrmReg src dst
  | imul dst src wide => rex wide dst src ++ opcode [0x0F, 0xAF] ++ modrmReg dst src
  | imulImm dst src imm wide short =>
    rex wide dst src ++ opcode [if short then 0x6B else 0x69] ++ modrmReg dst src ++
      immediate short imm
  | shiftCl op dst wide => rexRm wide dst ++ opcode [0xD3] ++ modrmExt (shiftExt op) dst
  | shiftImm op dst amount wide =>
    rexRm wide dst ++ opcode [0xC1] ++ modrmExt (shiftExt op) dst ++ [amount]
  | signExtendAccumulator wide => opcode (if wide then [0x48, 0x99] else [0x99])
  | div signed divisor wide =>
    rexRm wide divisor ++ opcode [0xF7] ++ modrmExt (if signed then 7 else 6) divisor
  | test a b wide => rex wide b a ++ opcode [0x85] ++ modrmReg b a
  | setcc cond dst =>
    rexLowByte (needsByteRex dst) noReg dst.code ++ opcode [0x0F, 0x90 + cond.code] ++
      modrmExt 0 dst.code
  | movzxByte dst src =>
    rexLowByte (needsByteRex src && !isExtended dst) dst src.code ++ opcode [0x0F, 0xB6] ++
      modrmReg dst src.code
  | cmov cond dst src wide =>
    rex wide dst src ++ opcode [0x0F, 0x40 + cond.code] ++ modrmReg dst src
  | movsxd dst src => rex true dst src ++ opcode [0x63] ++ modrmReg dst src
  | jccShort cond disp => opcode [0x70 + cond.code] ++ [disp]
  | jccNear cond disp => opcode [0x0F, 0x80 + cond.code] ++ littleEndian 4 disp
  | jmpShort disp => opcode [0xEB] ++ [disp]
  | jmpNear disp => opcode [0xE9] ++ littleEndian 4 disp
  | call _ => opcode [0xE8] ++ littleEndian 4 (0 : BitVec 32)
  | ud2 => opcode [0x0F, 0x0B]
  | ret => opcode [0xC3]
  | movsdRR dst src => opcode [0xF2] ++ rex false dst src ++ opcode [0x0F, 0x10] ++ modrmReg dst src
  | movsdLoad dst base disp =>
    opcode [0xF2] ++ rex false dst base ++ opcode [0x0F, 0x10] ++ modrmMem (low dst) base disp
  | movsdStore base disp src =>
    opcode [0xF2] ++ rex false src base ++ opcode [0x0F, 0x11] ++ modrmMem (low src) base disp
  | movsdRip dst target =>
    let head := ripHead dst
    head ++ littleEndian 4 (BitVec.ofInt 32 ((target : Int) - (offset + head.length + 4 : Nat)))
  | sse op dst src =>
    opcode [0xF2] ++ rex false dst src ++ opcode [0x0F, sseOpcode op] ++ modrmReg dst src
  | ucomisd a b => opcode [0x66] ++ rex false a b ++ opcode [0x0F, 0x2E] ++ modrmReg a b
  | cvtsi2sd dst src wide =>
    opcode [0xF2] ++ rex wide dst src ++ opcode [0x0F, 0x2A] ++ modrmReg dst src
  | cvttsd2si dst src wide =>
    opcode [0xF2] ++ rex wide dst src ++ opcode [0x0F, 0x2C] ++ modrmReg dst src

def relocs (offset : Nat) : MachineInst → List RelocSite
  | movSymbol _ symbol => [⟨offset + 2, .abs8, symbol, 0⟩]
  | call symbol => [⟨offset + 1, .callPcRel4, symbol, -4⟩]
  | _ => []

def emission (offset : Nat) (i : MachineInst) : Emission :=
  { bytes := i.bytes offset, relocs := i.relocs offset }

end MachineInst
end SsaCodegen.X64
