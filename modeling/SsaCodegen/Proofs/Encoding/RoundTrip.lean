import SsaCodegen.Proofs.Encoding.Parts
import SsaCodegen.Proofs.Layout.Sizes
/-! What is encoded is what is read back: for every instruction and every register, displacement and
immediate it may have, and for code as a sequence of instructions. -/
namespace SsaCodegen.X64
open Decode Encode

namespace MachineInst

def meaning : MachineInst → Insn
  | movRR dst src wide => ⟨.mov, [.gpr (.ofWide wide) dst, .gpr (.ofWide wide) src]⟩
  | movImm32 dst imm => ⟨.mov, [.gpr .dword dst, .imm imm.toNat]⟩
  | movSignedImm32 dst imm => ⟨.mov, [.gpr .qword dst, .imm imm.toInt]⟩
  | movImm64 dst imm => ⟨.mov, [.gpr .qword dst, .imm imm.toNat]⟩
  | movSymbol dst _ => ⟨.mov, [.gpr .qword dst, .imm 0]⟩
  | load dst base disp .byte => ⟨.movzx, [.gpr .dword dst, .mem .byte base disp.toInt]⟩
  | load dst base disp width => ⟨.mov, [.gpr width dst, .mem width base disp.toInt]⟩
  | store base disp src width => ⟨.mov, [.mem width base disp.toInt, .gpr width src.code]⟩
  | storeImm32 base disp imm => ⟨.mov, [.mem .qword base disp.toInt, .imm imm.toInt]⟩
  | lea dst base disp => ⟨.lea, [.gpr .qword dst, .mem .qword base disp.toInt]⟩
  | push reg => ⟨.push, [.gpr .qword reg]⟩
  | pop reg => ⟨.pop, [.gpr .qword reg]⟩
  | alu op dst src wide => ⟨.alu op, [.gpr (.ofWide wide) dst, .gpr (.ofWide wide) src]⟩
  | aluImm op dst imm wide _ => ⟨.alu op, [.gpr (.ofWide wide) dst, .imm imm.toInt]⟩
  | alu8 op dst src => ⟨.alu op, [.gpr .byte dst, .gpr .byte src]⟩
  | imul dst src wide => ⟨.imul, [.gpr (.ofWide wide) dst, .gpr (.ofWide wide) src]⟩
  | imulImm dst src imm wide _ =>
    ⟨.imul, [.gpr (.ofWide wide) dst, .gpr (.ofWide wide) src, .imm imm.toInt]⟩
  | shiftCl op dst wide => ⟨.shift op, [.gpr (.ofWide wide) dst, .gpr .byte (gprOf rcx)]⟩
  | shiftImm op dst amount wide => ⟨.shift op, [.gpr (.ofWide wide) dst, .imm amount.toNat]⟩
  | signExtendAccumulator wide => ⟨.convert, [.gpr (.ofWide wide) (gprOf rax)]⟩
  | div signed divisor wide => ⟨.div signed, [.gpr (.ofWide wide) divisor]⟩
  | test a b wide => ⟨.test, [.gpr (.ofWide wide) a, .gpr (.ofWide wide) b]⟩
  | setcc cond dst => ⟨.set cond, [.gpr .byte dst.code]⟩
  | movzxByte dst src => ⟨.movzx, [.gpr .dword dst, .gpr .byte src.code]⟩
  | cmov cond dst src wide => ⟨.cmov cond, [.gpr (.ofWide wide) dst, .gpr (.ofWide wide) src]⟩
  | movsxd dst src => ⟨.movsxd, [.gpr .qword dst, .gpr .dword src]⟩
  | jccShort cond disp => ⟨.jumpIf cond, [.rel disp.toInt]⟩
  | jccNear cond disp => ⟨.jumpIf cond, [.rel disp.toInt]⟩
  | jmpShort disp => ⟨.jump, [.rel disp.toInt]⟩
  | jmpNear disp => ⟨.jump, [.rel disp.toInt]⟩
  | call _ => ⟨.call, [.rel 0]⟩
  | ud2 => ⟨.ud2, []⟩
  | ret => ⟨.ret, []⟩
  | movsdRR dst src => ⟨.movsd, [.xmm dst, .xmm src]⟩
  | movsdLoad dst base disp => ⟨.movsd, [.xmm dst, .mem .qword base disp.toInt]⟩
  | movsdStore base disp src => ⟨.movsd, [.mem .qword base disp.toInt, .xmm src]⟩
  | movsdRip dst target => ⟨.movsd, [.xmm dst, .code .qword target]⟩
  | sse op dst src => ⟨.sse op, [.xmm dst, .xmm src]⟩
  | ucomisd a b => ⟨.ucomisd, [.xmm a, .xmm b]⟩
  | cvtsi2sd dst src wide => ⟨.cvtsi2sd, [.xmm dst, .gpr (.ofWide wide) src]⟩
  | cvttsd2si dst src wide => ⟨.cvttsd2si, [.gpr (.ofWide wide) dst, .xmm src]⟩

/-- What callers keep to: what is stored is a general register, a short immediate fits a byte, the byte
operators have the first four registers, and a constant lies within reach. -/
def Allowed (start : Nat) : MachineInst → Prop
  | store _ _ src _ | setcc _ src | movzxByte _ src => src.val < 16
  | aluImm _ _ imm _ short | imulImm _ _ imm _ short => short = true → fitsInt8 imm.toInt = true
  | alu8 _ dst src => dst.val < 4 ∧ src.val < 4
  | movsdRip dst target =>
    fitsInt32 ((target : Int) - (start + ((movsdRip dst target).bytes start).length : Nat)) = true
  | _ => True

section Rows
variable (reg : Gpr) (digit : Nat)

theorem rowEntries : formOf? none false (0x50 + low reg) digit = some ⟨.push, [.low .qword]⟩ ∧
    formOf? none false (0x58 + low reg) digit = some ⟨.pop, [.low .qword]⟩ ∧
    formOf? none false (0xB8 + low reg) digit = some ⟨.mov, [.low .sized, .whole]⟩ := by
  have less := lowLess reg
  have row (k : Nat) (past : 8 ≤ k) : ¬ 8 * k + low reg < 0x40 ∧ (8 * k + low reg) / 8 = k := by omega
  refine ⟨?_, ?_, ?_⟩
  · simp [formOf?, oneByte?, row 0xA (by decide)]
  · simp [formOf?, oneByte?, row 0xB (by decide)]
  · simp [formOf?, oneByte?, row 0x17 (by decide)]

theorem rowPlain : Plain none false (0x50 + low reg) ∧ Plain none false (0x58 + low reg) ∧
    Plain none false (0xB8 + low reg) := by
  revert reg
  decide

theorem rowLow : (0x50 + low reg) % 8 = low reg ∧ (0x58 + low reg) % 8 = low reg ∧
    (0xB8 + low reg) % 8 = low reg := by
  revert reg
  decide

end Rows

section LowBytes

theorem byteNamed {forced : Bool} {reg rm r : Fin 16}
    (said : 4 ≤ r.val → r.val < 8 → forced = true ∨ isExtended reg = true ∨ isExtended rm = true) :
    Kind.register (rexOf false forced reg rm) .byte r = .gpr .byte r := by
  refine if_neg fun ⟨absent, above, below⟩ => ?_
  simp only [rexOf, Bool.or_false, Bool.or_eq_false_iff] at absent
  rcases said above below with one | one | one <;> simp [one] at absent

variable {src : Reg} (general : src.val < 16)
include general

theorem needsByteRexIff : needsByteRex src = true ↔ 4 ≤ src.code.val ∧ src.code.val < 8 := by
  revert src
  decide

theorem byteForced (other : Fin 16) (forced : (needsByteRex src && !isExtended other) = true) :
    isExtended src.code = false ∧ isExtended other = false := by
  obtain ⟨needs, plain⟩ := Bool.and_eq_true_iff.mp forced
  have below := ((needsByteRexIff general).mp needs).2
  exact ⟨decide_eq_false (by omega), by simpa using plain⟩

theorem byteSaid (other : Fin 16) (above : 4 ≤ src.code.val) (below : src.code.val < 8) :
    (needsByteRex src && !isExtended other) = true ∨ isExtended src.code = true ∨ isExtended other = true := by
  rw [(needsByteRexIff general).mpr ⟨above, below⟩]
  cases isExtended other
  · exact .inl rfl
  · exact .inr (.inr rfl)

end LowBytes

theorem ripDecodes (start : Nat) (dst : Xmm) (disp : BitVec 32) (rest : List Byte) :
    decode start (ripHead dst ++ littleEndian 4 disp ++ rest) =
      some (⟨.movsd, [.xmm dst, .code .qword ((start + (ripHead dst).length + 4 : Nat) + disp.toInt)]⟩, rest) := by
  simp only [ripHead, List.append_assoc]
  refine (decodeNext (some 0xF2) true 0x10 _ (by decide) (rexWritten false dst noReg) (lowLess dst)
    rfl rfl rfl).trans ?_
  simp only [finish, readFields, readField, Option.bind_eq_bind, Option.bind_some, Option.map_some,
    List.map_cons, List.map_nil, Front.memory?, registerScalar, Operand.addressed, rexOfReg, fullCodeLow,
    Kind.width]
  congr 6
  simp only [List.length_append, List.length_cons, List.length_nil, opcodeBytes, opcode, List.length_map,
    if_true, lengthLittleEndian, Option.toList]
  omega

def Decodes (start : Nat) (i : MachineInst) : Prop :=
  ∀ rest, decode start (i.bytes start ++ rest) = some (i.meaning, rest)

section OpcodeRegisters
variable (start : Nat)

theorem movImm32Decodes (dst : Gpr) (imm : BitVec 32) : (movImm32 dst imm).Decodes start := by
  intro rest
  simp only [bytes, List.append_assoc]
  exact (decodeBare none false (0xB8 + low dst) _ (rowPlain dst).2.2 (rexWritten false noReg dst)
    (fun digit => (rowEntries dst digit).2.2) rfl).trans
    (by simp [meaning, (rowLow dst).2.2, MemWidth.ofWide])

theorem movImm64Decodes (dst : Gpr) (imm : BitVec 64) : (movImm64 dst imm).Decodes start := by
  intro rest
  simp only [bytes, List.append_assoc]
  exact (decodeBare none false (0xB8 + low dst) _ (rowPlain dst).2.2 (rexWritten true noReg dst)
    (fun digit => (rowEntries dst digit).2.2) rfl).trans
    (by simp [meaning, (rowLow dst).2.2, MemWidth.ofWide])

theorem movSymbolDecodes (dst : Gpr) (symbol : String) : (movSymbol dst symbol).Decodes start := by
  intro rest
  simp only [bytes, List.append_assoc]
  exact (decodeBare none false (0xB8 + low dst) _ (rowPlain dst).2.2 (rexWritten true noReg dst)
    (fun digit => (rowEntries dst digit).2.2) rfl).trans
    (by simp [meaning, (rowLow dst).2.2, MemWidth.ofWide])

theorem pushDecodes (reg : Gpr) : (push reg).Decodes start := by
  intro rest
  simp only [bytes, List.append_assoc]
  exact (decodeBare none false (0x50 + low reg) _ (rowPlain reg).1 (rexWritten false noReg reg)
    (fun digit => (rowEntries reg digit).1) rfl).trans (by simp [meaning, (rowLow reg).1])

theorem popDecodes (reg : Gpr) : (pop reg).Decodes start := by
  intro rest
  simp only [bytes, List.append_assoc]
  exact (decodeBare none false (0x58 + low reg) _ (rowPlain reg).2.1 (rexWritten false noReg reg)
    (fun digit => (rowEntries reg digit).2.1) rfl).trans (by simp [meaning, (rowLow reg).2.1])

end OpcodeRegisters

section MemoryForms
variable (start : Nat)

theorem loadDecodes (dst base : Gpr) (disp : BitVec 32) (width : MemWidth) :
    (load dst base disp width).Decodes start := by
  intro rest
  cases width with
  | byte =>
    simp only [bytes, List.append_assoc]
    exact (decodeMemory none true 0xB6 _ (by decide) (rexWritten false dst base) (lowLess dst)
      rfl rfl rfl).trans (by simp [meaning, MemWidth.ofWide])
  | dword =>
    simp only [bytes, List.append_assoc]
    exact (decodeMemory none false 0x8B _ (by decide) (rexWritten false dst base) (lowLess dst)
      rfl rfl rfl).trans (by simp [meaning, MemWidth.ofWide])
  | qword =>
    simp only [bytes, List.append_assoc]
    exact (decodeMemory none false 0x8B _ (by decide) (rexWritten true dst base) (lowLess dst)
      rfl rfl rfl).trans (by simp [meaning, MemWidth.ofWide])

theorem storeDecodes (base : Gpr) (disp : BitVec 32) (src : Reg) (width : MemWidth) (general : src.val < 16) :
    (store base disp src width).Decodes start := by
  intro rest
  cases width with
  | byte =>
    have named := byteNamed (byteSaid general base)
    simp only [bytes, List.append_assoc]
    exact (decodeMemory none false 0x88 _ (by decide) (rexLowByteWritten (byteForced general base))
      (lowLess src.code) rfl rfl rfl).trans (by simp [meaning, named])
  | dword =>
    simp only [bytes, List.append_assoc]
    exact (decodeMemory none false 0x89 _ (by decide) (rexWritten false src.code base) (lowLess src.code)
      rfl rfl rfl).trans (by simp [meaning, MemWidth.ofWide])
  | qword =>
    simp only [bytes, List.append_assoc]
    exact (decodeMemory none false 0x89 _ (by decide) (rexWritten true src.code base) (lowLess src.code)
      rfl rfl rfl).trans (by simp [meaning, MemWidth.ofWide])

theorem storeImm32Decodes (base : Gpr) (disp imm : BitVec 32) : (storeImm32 base disp imm).Decodes start := by
  intro rest
  simp only [bytes, List.append_assoc]
  exact (decodeMemory none false 0xC7 _ (by decide) (rexWritten true noReg base) (by decide)
    rfl rfl rfl).trans (by simp [meaning, MemWidth.ofWide])

theorem leaDecodes (dst base : Gpr) (disp : BitVec 32) : (lea dst base disp).Decodes start := by
  intro rest
  simp only [bytes, List.append_assoc]
  exact (decodeMemory none false 0x8D _ (by decide) (rexWritten true dst base) (lowLess dst)
    rfl rfl rfl).trans (by simp [meaning, MemWidth.ofWide])

theorem movsdLoadDecodes (dst : Xmm) (base : Gpr) (disp : BitVec 32) : (movsdLoad dst base disp).Decodes start := by
  intro rest
  simp only [bytes, List.append_assoc]
  exact (decodeMemory (some 0xF2) true 0x10 _ (by decide) (rexWritten false dst base) (lowLess dst)
    rfl rfl rfl).trans (by simp [meaning])

theorem movsdStoreDecodes (base : Gpr) (disp : BitVec 32) (src : Xmm) : (movsdStore base disp src).Decodes start := by
  intro rest
  simp only [bytes, List.append_assoc]
  exact (decodeMemory (some 0xF2) true 0x11 _ (by decide) (rexWritten false src base) (lowLess src)
    rfl rfl rfl).trans (by simp [meaning])

theorem movsdRipDecodes (dst : Xmm) (target : Nat) (reach : (movsdRip dst target).Allowed start) :
    (movsdRip dst target).Decodes start := by
  intro rest
  simp only [Allowed, fitsInt32, bytes, List.length_append, lengthLittleEndian, Bool.and_eq_true,
    decide_eq_true_eq] at reach
  have near : (BitVec.ofInt 32 ((target : Int) - (start + (ripHead dst).length + 4 : Nat))).toInt =
      (target : Int) - (start + (ripHead dst).length + 4 : Nat) := by
    rw [BitVec.toInt_ofInt]
    exact Int.bmod_eq_of_le_mul_two (by omega) (by omega)
  refine (ripDecodes start dst _ rest).trans ?_
  rw [near, meaning]
  congr 6
  omega

end MemoryForms

section ByteForms
variable (start : Nat)

theorem alu8Decodes (op : AluOp) (dst src : Gpr) (first : dst.val < 4) (second : src.val < 4) :
    (alu8 op dst src).Decodes start := by
  intro rest
  have plain (r : Gpr) (few : r.val < 4) : isExtended r = false := decide_eq_false (by omega)
  have written : RexBytes (rex false src dst) (rexOf false false src dst) := rexWritten false src dst
  rw [show rex false src dst = [] by rw [rex, plain dst first, plain src second]; rfl] at written
  have named (r : Gpr) (few : r.val < 4) : Kind.register (rexOf false false src dst) .byte r = .gpr .byte r :=
    byteNamed fun above _ => absurd above (by omega)
  simp only [bytes, List.append_assoc]
  exact (decodeRegister none false (aluOpcode op - 1) ⟨.alu op, [.rm .byte, .reg .byte]⟩
    (by cases op <;> decide) written (lowLess src) (by cases op <;> rfl) rfl).trans
    (by simp [meaning, named dst first, named src second])

theorem setccDecodes (cond : Cond) (dst : Reg) (general : dst.val < 16) : (setcc cond dst).Decodes start := by
  intro rest
  have named := byteNamed fun above below => (byteSaid general noReg above below).imp_right Or.symm
  have written := rexLowByteWritten fun forced => (byteForced general noReg forced).symm
  have plain : (needsByteRex dst && !isExtended noReg) = needsByteRex dst := Bool.and_true _
  rw [plain] at named written
  simp only [bytes, List.append_assoc]
  exact (decodeRegister none true (0x90 + cond.code) ⟨.set cond, [.rm .byte]⟩ (by cases cond <;> decide)
    written (by decide) (by cases cond <;> rfl) rfl).trans (by simp [meaning, named])

theorem movzxByteDecodes (dst : Gpr) (src : Reg) (general : src.val < 16) : (movzxByte dst src).Decodes start := by
  intro rest
  have named := byteNamed fun above below => (byteSaid general dst above below).imp_right Or.symm
  have written := rexLowByteWritten fun forced => (byteForced general dst forced).symm
  simp only [bytes, List.append_assoc]
  exact (decodeRegister none true 0xB6 _ (by decide) written (lowLess dst) rfl rfl).trans
    (by simp [meaning, named, MemWidth.ofWide])

end ByteForms

section ImmediateForms
variable (start : Nat)

theorem movSignedImm32Decodes (dst : Gpr) (imm : BitVec 32) : (movSignedImm32 dst imm).Decodes start := by
  intro rest
  simp only [bytes, List.append_assoc]
  exact (decodeRegister none false 0xC7 _ (by decide) (rexWritten true noReg dst) (by decide) rfl rfl).trans
    (by simp [meaning, MemWidth.ofWide])

theorem aluImmDecodes (op : AluOp) (dst : Gpr) (imm : BitVec 32) (wide short : Bool)
    (fits : short = true → fitsInt8 imm.toInt = true) :
    (aluImm op dst imm wide short).Decodes start := by
  intro rest
  have digit : aluExt op < 8 := by cases op <;> decide
  simp only [bytes, List.append_assoc]
  cases short with
  | false =>
    exact (decodeRegister none false 0x81 ⟨.alu op, [.rm .sized, .signed 4]⟩ (by decide)
      (rexWritten wide noReg dst) digit (by cases op <;> rfl) rfl).trans (by simp [meaning, immediate])
  | true =>
    exact (decodeRegister none false 0x83 ⟨.alu op, [.rm .sized, .signed 1]⟩ (by decide)
      (rexWritten wide noReg dst) digit (by cases op <;> rfl) rfl).trans
      (by simp [meaning, immediate, byteRead _ _ (fits rfl)])

theorem imulImmDecodes (dst src : Gpr) (imm : BitVec 32) (wide short : Bool)
    (fits : short = true → fitsInt8 imm.toInt = true) :
    (imulImm dst src imm wide short).Decodes start := by
  intro rest
  simp only [bytes, List.append_assoc]
  cases short with
  | false =>
    exact (decodeRegister none false 0x69 _ (by decide) (rexWritten wide dst src) (lowLess dst)
      rfl rfl).trans (by simp [meaning, immediate])
  | true =>
    exact (decodeRegister none false 0x6B _ (by decide) (rexWritten wide dst src) (lowLess dst)
      rfl rfl).trans (by simp [meaning, immediate, byteRead _ _ (fits rfl)])

theorem shiftImmDecodes (op : ShiftOp) (dst : Gpr) (amount : BitVec 8) (wide : Bool) :
    (shiftImm op dst amount wide).Decodes start := by
  intro rest
  have digit : shiftExt op < 8 := by cases op <;> decide
  simp only [bytes, List.append_assoc]
  exact (decodeRegister none false 0xC1 ⟨.shift op, [.rm .sized, .count]⟩ (by decide)
    (rexWritten wide noReg dst) digit (by cases op <;> rfl) rfl).trans (by simp [meaning])

end ImmediateForms

section RegisterForms
variable (start : Nat)

theorem movRRDecodes (dst src : Gpr) (wide : Bool) : (movRR dst src wide).Decodes start := by
  intro rest
  simp only [bytes, List.append_assoc]
  exact (decodeRegister none false 0x89 _ (by decide) (rexWritten wide src dst) (lowLess src) rfl rfl).trans
    (by simp [meaning])

theorem aluDecodes (op : AluOp) (dst src : Gpr) (wide : Bool) : (alu op dst src wide).Decodes start := by
  intro rest
  simp only [bytes, List.append_assoc]
  exact (decodeRegister none false (aluOpcode op) ⟨.alu op, [.rm .sized, .reg .sized]⟩
    (by cases op <;> decide) (rexWritten wide src dst) (lowLess src) (by cases op <;> rfl) rfl).trans
    (by simp [meaning])

theorem imulDecodes (dst src : Gpr) (wide : Bool) : (imul dst src wide).Decodes start := by
  intro rest
  simp only [bytes, List.append_assoc]
  exact (decodeRegister none true 0xAF _ (by decide) (rexWritten wide dst src) (lowLess dst) rfl rfl).trans
    (by simp [meaning])

theorem shiftClDecodes (op : ShiftOp) (dst : Gpr) (wide : Bool) : (shiftCl op dst wide).Decodes start := by
  intro rest
  have digit : shiftExt op < 8 := by cases op <;> decide
  simp only [bytes, List.append_assoc]
  exact (decodeRegister none false 0xD3 ⟨.shift op, [.rm .sized, .cl]⟩ (by decide)
    (rexWritten wide noReg dst) digit (by cases op <;> rfl) rfl).trans (by simp [meaning])

theorem divDecodes (signed : Bool) (divisor : Gpr) (wide : Bool) : (div signed divisor wide).Decodes start := by
  intro rest
  simp only [bytes, List.append_assoc]
  exact (decodeRegister none false 0xF7 ⟨.div signed, [.rm .sized]⟩ (by decide)
    (rexWritten wide noReg divisor) (by cases signed <;> decide) (by cases signed <;> rfl) rfl).trans
    (by simp [meaning])

theorem testDecodes (a b : Gpr) (wide : Bool) : (test a b wide).Decodes start := by
  intro rest
  simp only [bytes, List.append_assoc]
  exact (decodeRegister none false 0x85 _ (by decide) (rexWritten wide b a) (lowLess b) rfl rfl).trans
    (by simp [meaning])

theorem cmovDecodes (cond : Cond) (dst src : Gpr) (wide : Bool) : (cmov cond dst src wide).Decodes start := by
  intro rest
  simp only [bytes, List.append_assoc]
  exact (decodeRegister none true (0x40 + cond.code) ⟨.cmov cond, [.reg .sized, .rm .sized]⟩
    (by cases cond <;> decide) (rexWritten wide dst src) (lowLess dst) (by cases cond <;> rfl) rfl).trans
    (by simp [meaning])

theorem movsxdDecodes (dst src : Gpr) : (movsxd dst src).Decodes start := by
  intro rest
  simp only [bytes, List.append_assoc]
  exact (decodeRegister none false 0x63 _ (by decide) (rexWritten true dst src) (lowLess dst) rfl rfl).trans
    (by simp [meaning, MemWidth.ofWide])

end RegisterForms

section ScalarForms
variable (start : Nat)

theorem movsdRRDecodes (dst src : Xmm) : (movsdRR dst src).Decodes start := by
  intro rest
  simp only [bytes, List.append_assoc]
  exact (decodeRegister (some 0xF2) true 0x10 _ (by decide) (rexWritten false dst src) (lowLess dst)
    rfl rfl).trans (by simp [meaning])

theorem sseDecodes (op : SseOp) (dst src : Xmm) : (sse op dst src).Decodes start := by
  intro rest
  simp only [bytes, List.append_assoc]
  exact (decodeRegister (some 0xF2) true (sseOpcode op) ⟨.sse op, [.reg .scalar, .rm .scalar]⟩
    (by cases op <;> decide) (rexWritten false dst src) (lowLess dst) (by cases op <;> rfl) rfl).trans
    (by simp [meaning])

theorem ucomisdDecodes (a b : Xmm) : (ucomisd a b).Decodes start := by
  intro rest
  simp only [bytes, List.append_assoc]
  exact (decodeRegister (some 0x66) true 0x2E _ (by decide) (rexWritten false a b) (lowLess a)
    rfl rfl).trans (by simp [meaning])

theorem cvtsi2sdDecodes (dst : Xmm) (src : Gpr) (wide : Bool) : (cvtsi2sd dst src wide).Decodes start := by
  intro rest
  simp only [bytes, List.append_assoc]
  exact (decodeRegister (some 0xF2) true 0x2A _ (by decide) (rexWritten wide dst src) (lowLess dst)
    rfl rfl).trans (by simp [meaning])

theorem cvttsd2siDecodes (dst : Gpr) (src : Xmm) (wide : Bool) : (cvttsd2si dst src wide).Decodes start := by
  intro rest
  simp only [bytes, List.append_assoc]
  exact (decodeRegister (some 0xF2) true 0x2C _ (by decide) (rexWritten wide dst src) (lowLess dst)
    rfl rfl).trans (by simp [meaning])

end ScalarForms

section BareForms
variable (start : Nat)

theorem signExtendAccumulatorDecodes (wide : Bool) : (signExtendAccumulator wide).Decodes start := by
  intro rest
  cases wide with
  | false =>
    exact (decodeBare none false 0x99 _ (by decide) .absent (fun _ => rfl) rfl).trans
      (by simp [meaning])
  | true =>
    exact (decodeBare none false 0x99 _ (by decide) (.present true false false) (fun _ => rfl) rfl).trans
      (by simp [meaning])

theorem jccShortDecodes (cond : Cond) (disp : BitVec 8) : (jccShort cond disp).Decodes start := by
  intro rest
  simp only [bytes, List.append_assoc]
  exact (decodeBare none false (0x70 + cond.code) ⟨.jumpIf cond, [.distance 1]⟩ (by cases cond <;> decide)
    .absent (fun _ => by cases cond <;> rfl) rfl).trans (by simp [meaning])

theorem jccNearDecodes (cond : Cond) (disp : BitVec 32) : (jccNear cond disp).Decodes start := by
  intro rest
  simp only [bytes, List.append_assoc]
  exact (decodeBare none true (0x80 + cond.code) ⟨.jumpIf cond, [.distance 4]⟩ (by cases cond <;> decide)
    .absent (fun _ => by cases cond <;> rfl) rfl).trans (by simp [meaning])

theorem jmpShortDecodes (disp : BitVec 8) : (jmpShort disp).Decodes start := by
  intro rest
  exact (decodeBare none false 0xEB _ (by decide) .absent (fun _ => rfl) rfl).trans (by simp [meaning])

theorem jmpNearDecodes (disp : BitVec 32) : (jmpNear disp).Decodes start := by
  intro rest
  simp only [bytes, List.append_assoc]
  exact (decodeBare none false 0xE9 _ (by decide) .absent (fun _ => rfl) rfl).trans (by simp [meaning])

theorem callDecodes (symbol : String) : (call symbol).Decodes start := by
  intro rest
  simp only [bytes, List.append_assoc]
  exact (decodeBare none false 0xE8 _ (by decide) .absent (fun _ => rfl) rfl).trans (by simp [meaning])

theorem ud2Decodes : ud2.Decodes start := by
  intro rest
  exact (decodeBare none true 0x0B _ (by decide) .absent (fun _ => rfl) rfl).trans (by simp [meaning])

theorem retDecodes : ret.Decodes start := by
  intro rest
  exact (decodeBare none false 0xC3 _ (by decide) .absent (fun _ => rfl) rfl).trans (by simp [meaning])

end BareForms

theorem decodes (start : Nat) (i : MachineInst) (allowed : i.Allowed start) : i.Decodes start := by
  cases i with
  | movRR dst src wide => exact movRRDecodes start dst src wide
  | movImm32 dst imm => exact movImm32Decodes start dst imm
  | movSignedImm32 dst imm => exact movSignedImm32Decodes start dst imm
  | movImm64 dst imm => exact movImm64Decodes start dst imm
  | movSymbol dst symbol => exact movSymbolDecodes start dst symbol
  | load dst base disp width => exact loadDecodes start dst base disp width
  | store base disp src width => exact storeDecodes start base disp src width allowed
  | storeImm32 base disp imm => exact storeImm32Decodes start base disp imm
  | lea dst base disp => exact leaDecodes start dst base disp
  | push reg => exact pushDecodes start reg
  | pop reg => exact popDecodes start reg
  | alu op dst src wide => exact aluDecodes start op dst src wide
  | aluImm op dst imm wide short => exact aluImmDecodes start op dst imm wide short allowed
  | alu8 op dst src => exact alu8Decodes start op dst src allowed.1 allowed.2
  | imul dst src wide => exact imulDecodes start dst src wide
  | imulImm dst src imm wide short => exact imulImmDecodes start dst src imm wide short allowed
  | shiftCl op dst wide => exact shiftClDecodes start op dst wide
  | shiftImm op dst amount wide => exact shiftImmDecodes start op dst amount wide
  | signExtendAccumulator wide => exact signExtendAccumulatorDecodes start wide
  | div signed divisor wide => exact divDecodes start signed divisor wide
  | test a b wide => exact testDecodes start a b wide
  | setcc cond dst => exact setccDecodes start cond dst allowed
  | movzxByte dst src => exact movzxByteDecodes start dst src allowed
  | cmov cond dst src wide => exact cmovDecodes start cond dst src wide
  | movsxd dst src => exact movsxdDecodes start dst src
  | jccShort cond disp => exact jccShortDecodes start cond disp
  | jccNear cond disp => exact jccNearDecodes start cond disp
  | jmpShort disp => exact jmpShortDecodes start disp
  | jmpNear disp => exact jmpNearDecodes start disp
  | call symbol => exact callDecodes start symbol
  | ud2 => exact ud2Decodes start
  | ret => exact retDecodes start
  | movsdRR dst src => exact movsdRRDecodes start dst src
  | movsdLoad dst base disp => exact movsdLoadDecodes start dst base disp
  | movsdStore base disp src => exact movsdStoreDecodes start base disp src
  | movsdRip dst target => exact movsdRipDecodes start dst target allowed
  | sse op dst src => exact sseDecodes start op dst src
  | ucomisd a b => exact ucomisdDecodes start a b
  | cvtsi2sd dst src wide => exact cvtsi2sdDecodes start dst src wide
  | cvttsd2si dst src wide => exact cvttsd2siDecodes start dst src wide

def AllowedFrom (start : Nat) : List MachineInst → Prop
  | [] => True
  | i :: rest => i.Allowed start ∧ AllowedFrom (start + (i.bytes start).length) rest

end MachineInst

theorem decodeFirst {start limit : Nat} {code rest : List Byte} {insn : Insn} (nonempty : code ≠ [])
    (read : decode start code = some (insn, rest)) : decodeAll.go (limit + 1) start code =
      (decodeAll.go limit (start + (code.length - rest.length)) rest).map (insn :: ·) := by
  cases code with
  | nil => exact absurd rfl nonempty
  | cons b more =>
    simp only [decodeAll.go, read, Option.bind_eq_bind, Option.bind_some]
    exact (Option.map_eq_bind ..).symm

open MachineInst

theorem codeDecodes {start limit : Nat} {insts : List MachineInst} (allowed : AllowedFrom start insts)
    (enough : (assemble start (insts.map .inst)).bytes.length ≤ limit) :
    decodeAll.go limit start (assemble start (insts.map .inst)).bytes = some (insts.map meaning) := by
  induction insts generalizing start limit with
  | nil => cases limit <;> rfl
  | cons i insts ih =>
    obtain ⟨first, later⟩ := allowed
    have code : (assemble start ((i :: insts).map .inst)).bytes =
        i.bytes start ++ (assemble (start + (i.bytes start).length) (insts.map .inst)).bytes := rfl
    have present := List.length_pos_iff.mpr (bytesSome start i)
    rw [code, List.length_append] at enough
    match limit with
    | 0 => omega
    | limit + 1 =>
      rw [code, decodeFirst (List.append_ne_nil_of_left_ne_nil (bytesSome start i) _)
        (decodes start i first _), List.length_append, Nat.add_sub_cancel, ih later (by omega)]
      rfl

/-- The bytes of an instruction are read as that instruction and no further, and code is read as the
instructions it was made of. -/
theorem encodingReadBack :
    (∀ (start : Nat) (i : MachineInst), i.Allowed start →
      ∀ rest, decode start (i.bytes start ++ rest) = some (i.meaning, rest)) ∧
    ∀ (start : Nat) (insts : List MachineInst), AllowedFrom start insts →
      decodeAll start (assemble start (insts.map .inst)).bytes = some (insts.map meaning) :=
  ⟨decodes, fun _ _ allowed => codeDecodes allowed (Nat.le_refl _)⟩

theorem mixedReadBack :
    let insts : List MachineInst := [.store (gprOf rsp) 8 (regOf rsi) .byte,
      .load (gprOf r12) (gprOf r13) (-4) .dword, .movsdRip 9 64]
    AllowedFrom 16 insts ∧ decodeAll 16 (assemble 16 (insts.map .inst)).bytes =
      some [⟨.mov, [.mem .byte (gprOf rsp) 8, .gpr .byte (gprOf rsi)]⟩,
        ⟨.mov, [.gpr .dword (gprOf r12), .mem .dword (gprOf r13) (-4)]⟩,
        ⟨.movsd, [.xmm 9, .code .qword 64]⟩] := by
  intro insts
  have allowed : AllowedFrom 16 insts :=
    ⟨show (6 : Nat) < 16 by decide, trivial, show fitsInt32 _ = true by decide, trivial⟩
  exact ⟨allowed, encodingReadBack.2 16 insts allowed⟩

end SsaCodegen.X64
