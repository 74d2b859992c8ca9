import SsaCodegen.Proofs.Encoding.Decoder
/-! Each part of an encoding is read back: the number in a displacement or an immediate, the registers
in ModRM and REX, the base in SIB. From these an instruction is read by the shape of its encoding. -/
namespace SsaCodegen.X64.Decode
open Encode

section Numbers
variable {w : Nat} (word : BitVec w) (rest : List Byte)

theorem takeLittleEndian (count : Nat) :
    (littleEndian count word ++ rest).take count = littleEndian count word :=
  List.take_left' (lengthLittleEndian count word)

theorem dropLittleEndian (count : Nat) : (littleEndian count word ++ rest).drop count = rest :=
  List.drop_left' (lengthLittleEndian count word)

theorem inLittleEndian (count : Nat) : count ≤ (littleEndian count word ++ rest).length := by
  rw [List.length_append, lengthLittleEndian]
  exact Nat.le_add_right count _

theorem signedRead (count : Nat) : readSigned count (littleEndian count word ++ rest) =
    some (signedOf (littleEndian count word), rest) := by
  rw [readSigned, if_pos (inLittleEndian ..), takeLittleEndian, dropLittleEndian]

theorem unsignedRead (count : Nat) : readUnsigned count (littleEndian count word ++ rest) =
    some (((word.toNat % 256 ^ count : Nat) : Int), rest) := by
  rw [readUnsigned, if_pos (inLittleEndian ..), takeLittleEndian, dropLittleEndian, fromLittleEndianOf]

end Numbers

section
variable (rest : List Byte)

@[simp] theorem wordRead (word : BitVec 32) :
    readSigned 4 (littleEndian 4 word ++ rest) = some (word.toInt, rest) :=
  (signedRead word rest 4).trans (by rw [signedOfWord 4 word])

theorem byteRead (word : BitVec 32) (fits : fitsInt8 word.toInt = true) :
    readSigned 1 (littleEndian 1 word ++ rest) = some (word.toInt, rest) := by
  have bounds : -128 ≤ word.toInt ∧ word.toInt ≤ 127 := by simpa [fitsInt8] using fits
  have value : signedOf (littleEndian 1 word) = word.toInt := by
    rw [signedOf, fromLittleEndianOf, lengthLittleEndian]
    have wrapped := BitVec.toInt_eq_toNat_bmod word
    simp only [Int.bmod] at wrapped ⊢
    omega
  rw [signedRead, value]

@[simp] theorem shortRead (byte : BitVec 8) :
    readSigned 1 (byte :: rest) = some (byte.toInt, rest) := by
  have alone : [byte] = littleEndian 1 byte := by simp [littleEndian]
  have read := signedRead byte rest 1
  rwa [signedOfWord 1 byte, ← alone] at read

theorem wholeRead (count : Nat) (word : BitVec (8 * count)) :
    readUnsigned count (littleEndian count word ++ rest) = some ((word.toNat : Int), rest) := by
  have power : 256 ^ count = 2 ^ (8 * count) := by rw [Nat.pow_mul]
  rw [unsignedRead, power, Nat.mod_eq_of_lt word.isLt]

@[simp] theorem wholeWordRead (word : BitVec 32) :
    readUnsigned 4 (littleEndian 4 word ++ rest) = some ((word.toNat : Int), rest) := wholeRead rest 4 word

@[simp] theorem wholeQuadRead (word : BitVec 64) :
    readUnsigned 8 (littleEndian 8 word ++ rest) = some ((word.toNat : Int), rest) := wholeRead rest 8 word

@[simp] theorem countRead (byte : BitVec 8) :
    readUnsigned 1 (byte :: rest) = some ((byte.toNat : Int), rest) := by
  have alone : [byte] = littleEndian 1 byte := by simp [littleEndian]
  have read := wholeRead rest 1 byte
  rwa [← alone] at read

end

section Registers

@[simp] theorem fullCodeLow (r : Fin 16) : fullCode (isExtended r) (low r) = r := by
  revert r
  decide

theorem lowLess (r : Fin 16) : low r < 8 := Nat.mod_lt _ (by decide)

theorem modrmToNat {mode reg rm : Nat} (m : mode < 4) (r : reg < 8) (b : rm < 8) :
    (modrm mode reg rm).toNat = 64 * mode + 8 * reg + rm := by
  simp only [modrm, byteOf, BitVec.toNat_ofNat]
  omega

theorem dispModes (base : Gpr) (disp : BitVec 32) :
    dispMode base disp = 0 ∧ disp = 0 ∧ low base ≠ 5 ∨
    dispMode base disp = 1 ∧ fitsInt8 disp.toInt = true ∨ dispMode base disp = 2 := by
  simp only [dispMode]
  split
  · next absent => exact .inl ⟨rfl, by simpa using absent⟩
  · split
    · next fits => exact .inr (.inl ⟨rfl, fits⟩)
    · exact .inr (.inr rfl)

theorem dispRead (base : Gpr) (disp : BitVec 32) (rest : List Byte) :
    readDisp (dispMode base disp) ((if dispMode base disp = 1 then littleEndian 1 disp
      else if dispMode base disp = 2 then littleEndian 4 disp else []) ++ rest) =
      some (disp.toInt, rest) := by
  rcases dispModes base disp with ⟨mode, rfl, -⟩ | ⟨mode, fits⟩ | mode
  · rw [mode]
    rfl
  · rw [mode]
    exact byteRead rest disp fits
  · rw [mode]
    exact wordRead rest disp

theorem baseRead (base : Gpr) (disp : BitVec 32) (rest : List Byte) :
    readBase false (dispMode base disp) (low base) ((if low base = 4 then [byteOf 0x24] else []) ++ rest) =
      some (low base, rest) := by
  by_cases stack : low base = 4
  · rw [readBase, if_pos stack, if_pos stack, stack]
    exact if_pos (by simp [byteOf])
  · rw [readBase, if_neg stack, if_neg stack]
    rfl

variable {ext : Nat} (small : ext < 8) (rest : List Byte)
include small

theorem modRmRegister (index : Bool) (rm : Fin 16) :
    readModRm index (modrmExt ext rm ++ rest) = some (ext, .register (low rm), rest) := by
  have less := lowLess rm
  simp only [modrmExt, List.cons_append, List.nil_append, readModRm, modrmToNat (by decide : 3 < 4) small less]
  rw [if_pos (by omega)]
  congr 2
  · omega
  · congr 2
    omega

theorem modRmMemory (base : Gpr) (disp : BitVec 32) :
    readModRm false (modrmMem ext base disp ++ rest) = some (ext, .memory (low base) disp.toInt, rest) := by
  have less := lowLess base
  have modes := dispModes base disp
  have first := modrmToNat (by omega : dispMode base disp < 4) small less
  have mode : (64 * dispMode base disp + 8 * ext + low base) / 64 = dispMode base disp := by omega
  have reg : (64 * dispMode base disp + 8 * ext + low base) / 8 % 8 = ext := by omega
  have rm : (64 * dispMode base disp + 8 * ext + low base) % 8 = low base := by omega
  simp only [modrmMem, List.cons_append, List.append_assoc, readModRm, first, mode, reg, rm]
  rw [if_neg (by omega), if_neg (by omega), baseRead]
  simp only [Option.bind_eq_bind, Option.bind_some, dispRead]

theorem modRmNext {w : BitVec 32} :
    readModRm false (modrm 0 ext 5 :: (littleEndian 4 w ++ rest)) = some (ext, .next w.toInt, rest) := by
  simp only [readModRm, modrmToNat (by decide : 0 < 4) small (by decide : 5 < 8), wordRead]
  rw [if_neg (by omega), if_pos (by omega)]
  simp only [Option.map_some]
  congr 2
  omega

end Registers

section Heads

inductive RexBytes : List Byte → Rex → Prop where
  | absent : RexBytes [] {}
  | present (wide reg rm : Bool) : RexBytes [byteOf (rexByte wide reg rm)] ⟨true, wide, reg, false, rm⟩

def rexOf (wide forced : Bool) (reg rm : Fin 16) : Rex :=
  ⟨forced || wide || isExtended reg || isExtended rm, wide, isExtended reg, false, isExtended rm⟩

section Bits
variable (wide forced : Bool) (reg rm : Fin 16)

@[simp] theorem rexOfWide : (rexOf wide forced reg rm).wide = wide := rfl

@[simp] theorem rexOfReg : (rexOf wide forced reg rm).reg = isExtended reg := rfl

@[simp] theorem rexOfRm : (rexOf wide forced reg rm).rm = isExtended rm := rfl

end Bits

theorem rexWritten (wide : Bool) (reg rm : Fin 16) : RexBytes (rex wide reg rm) (rexOf wide false reg rm) := by
  rw [rex, rexOf]
  cases wide <;> cases isExtended reg <;> cases isExtended rm
  · exact .absent
  all_goals exact .present ..

theorem rexLowByteWritten {forced : Bool} {reg rm : Fin 16}
    (plain : forced = true → isExtended reg = false ∧ isExtended rm = false) :
    RexBytes (rexLowByte forced reg rm) (rexOf false forced reg rm) := by
  cases forced with
  | false => exact rexWritten false reg rm
  | true =>
    obtain ⟨first, second⟩ := plain rfl
    simp only [rexLowByte, rexOf, first, second]
    exact .present false false false

def opcodeBytes (escaped : Bool) (op : Nat) : List Byte := opcode (if escaped then [0x0F, op] else [op])

def Plain (legacy : Option Nat) (escaped : Bool) (op : Nat) : Prop :=
  (legacy = none ∨ legacy = some 0xF2 ∨ legacy = some 0x66) ∧ op < 256 ∧
    (escaped = true ∨ op ≠ 0x0F ∧ op ≠ 0xF2 ∧ op ≠ 0x66 ∧ op / 16 ≠ 4)

instance (legacy : Option Nat) (escaped : Bool) (op : Nat) : Decidable (Plain legacy escaped op) :=
  inferInstanceAs (Decidable (_ ∧ _))

theorem byteToNat {n : Nat} (small : n < 256) : (byteOf n).toNat = n := by
  simpa [byteOf] using small

variable {legacy : Option Nat} {escaped : Bool} {op : Nat} (plain : Plain legacy escaped op) {tail : List Byte}
include plain

theorem opcodeFirst : ∃ b more, opcodeBytes escaped op = b :: more ∧
    b.toNat ≠ 0xF2 ∧ b.toNat ≠ 0x66 ∧ b.toNat / 16 ≠ 4 := by
  obtain ⟨-, small, rfl | ⟨-, repne, size, rex⟩⟩ := plain
  · exact ⟨byteOf 0x0F, [byteOf op], rfl, by decide, by decide, by decide⟩
  · cases escaped with
    | true => exact ⟨byteOf 0x0F, [byteOf op], rfl, by decide, by decide, by decide⟩
    | false =>
      refine ⟨byteOf op, [], rfl, ?_⟩
      rw [byteToNat small]
      exact ⟨repne, size, rex⟩

theorem opcodeRead : readOpcode (opcodeBytes escaped op ++ tail) = some (escaped, op, tail) := by
  obtain ⟨-, small, one⟩ := plain
  cases escaped with
  | true => simp [opcodeBytes, opcode, readOpcode, byteToNat small, byteToNat (by decide : 0x0F < 256)]
  | false =>
    have other : op ≠ 0x0F := (one.resolve_left (by decide)).1
    simp [opcodeBytes, opcode, readOpcode, byteToNat small, other]

variable {rexes : List Byte} {bits : Rex} (written : RexBytes rexes bits)
include written

theorem rexRead : readRex (rexes ++ (opcodeBytes escaped op ++ tail)) = (bits, opcodeBytes escaped op ++ tail) := by
  cases written with
  | absent =>
    obtain ⟨b, more, first, -, -, other⟩ := opcodeFirst plain
    rw [first, List.nil_append, List.cons_append]
    exact if_neg other
  | present wide reg rm =>
    cases wide <;> cases reg <;> cases rm <;> rfl

theorem legacyRead :
    readLegacy (opcode legacy.toList ++ (rexes ++ (opcodeBytes escaped op ++ tail))) =
      (legacy, rexes ++ (opcodeBytes escaped op ++ tail)) := by
  obtain ⟨rfl | rfl | rfl, -⟩ := id plain
  · cases written with
    | absent =>
      obtain ⟨b, more, first, repne, size, -⟩ := opcodeFirst plain
      rw [first]
      exact if_neg (by simp [repne, size])
    | present wide reg rm =>
      cases wide <;> cases reg <;> cases rm <;> rfl
  · rfl
  · rfl

end Heads

section Shapes

@[simp] def finish (offset size : Nat) (entry : Entry) (read : Option (List Operand × List Byte)) :
    Option (Insn × List Byte) :=
  read.map fun (operands, rest) =>
    (⟨entry.op, operands.map (Operand.addressed (offset + (size - rest.length)))⟩, rest)

variable {offset : Nat} (legacy : Option Nat) (escaped : Bool) (op : Nat) (entry : Entry) {bits : Rex}
  {rexes rest : List Byte} (plain : Plain legacy escaped op) (written : RexBytes rexes bits)
include plain written

theorem decodeHead {tail after : List Byte} {front : Front}
    (found : formOf? legacy escaped op ((tail.headD 0).toNat / 8 % 8) = some entry)
    (shaped : readFront bits op entry tail = some (front, after)) :
    let code := opcode legacy.toList ++ (rexes ++ (opcodeBytes escaped op ++ tail))
    decode offset code = finish offset code.length entry (readFields front entry.fields after) := by
  intro code
  simp only [decode, code, legacyRead plain written, rexRead plain written, opcodeRead plain,
    Option.bind_eq_bind, Option.bind_some, found, shaped, finish]
  exact (Option.map_eq_bind ..).symm

theorem decodeBare (found : ∀ digit, formOf? legacy escaped op digit = some entry)
    (bare : entry.hasModRm = false) :
    let code := opcode legacy.toList ++ (rexes ++ (opcodeBytes escaped op ++ rest))
    decode offset code =
      finish offset code.length entry (readFields ⟨bits, op, 0, .register 0⟩ entry.fields rest) :=
  decodeHead legacy escaped op entry plain written (found _) (by rw [readFront, bare]; rfl)

variable {ext : Nat} (small : ext < 8) (found : formOf? legacy escaped op ext = some entry)
  (has : entry.hasModRm = true)
include small found has

theorem decodeRegister {rm : Fin 16} :
    let code := opcode legacy.toList ++ (rexes ++ (opcodeBytes escaped op ++ (modrmExt ext rm ++ rest)))
    decode offset code =
      finish offset code.length entry (readFields ⟨bits, op, ext, .register (low rm)⟩ entry.fields rest) := by
  have less := lowLess rm
  have digit : ((modrmExt ext rm ++ rest).headD 0).toNat / 8 % 8 = ext := by
    show (modrm 3 ext (low rm)).toNat / 8 % 8 = ext
    rw [modrmToNat (by decide) small less]
    omega
  refine decodeHead legacy escaped op entry plain written (by rw [digit]; exact found) ?_
  rw [readFront, if_pos has, modRmRegister small]
  rfl

theorem decodeMemory (noIndex : bits.index = false) {base : Gpr} {disp : BitVec 32} :
    let code := opcode legacy.toList ++ (rexes ++ (opcodeBytes escaped op ++ (modrmMem ext base disp ++ rest)))
    decode offset code = finish offset code.length entry
      (readFields ⟨bits, op, ext, .memory (low base) disp.toInt⟩ entry.fields rest) := by
  have less := lowLess base
  have modes := dispModes base disp
  have digit : ((modrmMem ext base disp ++ rest).headD 0).toNat / 8 % 8 = ext := by
    show (modrm (dispMode base disp) ext (low base)).toNat / 8 % 8 = ext
    rw [modrmToNat (by omega) small less]
    omega
  refine decodeHead legacy escaped op entry plain written (by rw [digit]; exact found) ?_
  rw [readFront, if_pos has, noIndex, modRmMemory small]
  rfl

theorem decodeNext (noIndex : bits.index = false) {disp : BitVec 32} :
    let code := opcode legacy.toList ++
      (rexes ++ (opcodeBytes escaped op ++ (modrm 0 ext 5 :: (littleEndian 4 disp ++ rest))))
    decode offset code = finish offset code.length entry
      (readFields ⟨bits, op, ext, .next disp.toInt⟩ entry.fields rest) := by
  have digit : ((modrm 0 ext 5 :: (littleEndian 4 disp ++ rest)).headD 0).toNat / 8 % 8 = ext := by
    show (modrm 0 ext 5).toNat / 8 % 8 = ext
    rw [modrmToNat (by decide) small (by decide)]
    omega
  refine decodeHead legacy escaped op entry plain written (by rw [digit]; exact found) ?_
  rw [readFront, if_pos has, noIndex, modRmNext small]
  rfl

end Shapes

end SsaCodegen.X64.Decode
