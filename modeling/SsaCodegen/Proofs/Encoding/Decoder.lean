import SsaCodegen.Proofs.Layout.Relative
/-! Reading machine code by the rules of the hardware, for the instructions in use: a legacy byte, a
REX byte, one or two opcode bytes, ModRM, SIB, displacement and immediate. What an operand is does not
depend on how the bytes were chosen; a byte that the subset does not have is no instruction. -/
namespace SsaCodegen.X64

def MemWidth.ofWide (wide : Bool) : MemWidth := if wide then .qword else .dword

inductive Operand where
  | gpr (width : MemWidth) (reg : Gpr)
  | high (reg : Gpr)
  | xmm (reg : Xmm)
  | mem (width : MemWidth) (base : Gpr) (disp : Int)
  | code (width : MemWidth) (offset : Int)
  | imm (value : Int)
  | rel (distance : Int)
  deriving DecidableEq, Repr

inductive Mnemonic where
  | mov | movzx | movsxd | lea | push | pop
  | alu (op : AluOp)
  | imul
  | shift (op : ShiftOp)
  | convert
  | div (signed : Bool)
  | test
  | set (cond : Cond)
  | cmov (cond : Cond)
  | jumpIf (cond : Cond)
  | jump | call | ret | ud2
  | movsd
  | sse (op : SseOp)
  | ucomisd | cvtsi2sd | cvttsd2si
  deriving DecidableEq, Repr

structure Insn where
  op : Mnemonic
  operands : List Operand
  deriving DecidableEq, Repr

namespace Decode

structure Rex where
  present : Bool := false
  wide : Bool := false
  reg : Bool := false
  index : Bool := false
  rm : Bool := false
  deriving DecidableEq, Repr

inductive Kind where
  | byte | dword | qword
  | sized
  | scalar
  deriving DecidableEq, Repr

inductive Field where
  | reg (kind : Kind)
  | rm (kind : Kind)
  | address
  | low (kind : Kind)
  | accumulator
  | cl
  | signed (bytes : Nat)
  | count
  | whole
  | distance (bytes : Nat)
  deriving DecidableEq, Repr

structure Entry where
  op : Mnemonic
  fields : List Field
  deriving DecidableEq, Repr

def Field.inModRm : Field → Bool
  | .reg _ | .rm _ | .address => true
  | _ => false

def Entry.hasModRm (e : Entry) : Bool := e.fields.any Field.inModRm

section Tables

def cond? : Nat → Option Cond
  | 0 => some .o
  | 1 => some .no
  | 2 => some .b
  | 3 => some .ae
  | 4 => some .e
  | 5 => some .ne
  | 6 => some .be
  | 7 => some .a
  | 8 => some .s
  | 9 => some .ns
  | 10 => some .p
  | 11 => some .np
  | 12 => some .l
  | 13 => some .ge
  | 14 => some .le
  | 15 => some .g
  | _ => none

def alu? : Nat → Option AluOp
  | 0 => some .add
  | 1 => some .or
  | 4 => some .and
  | 5 => some .sub
  | 6 => some .xor
  | 7 => some .cmp
  | _ => none

def shift? : Nat → Option ShiftOp
  | 4 => some .shl
  | 5 => some .shr
  | 7 => some .sar
  | _ => none

def oneByte? (opcode digit : Nat) : Option Entry :=
  if opcode < 0x40 then
    match opcode % 8 with
    | 0 => (alu? (opcode / 8)).map fun op => ⟨.alu op, [.rm .byte, .reg .byte]⟩
    | 1 => (alu? (opcode / 8)).map fun op => ⟨.alu op, [.rm .sized, .reg .sized]⟩
    | _ => none
  else match opcode / 8 with
    | 0xA => some ⟨.push, [.low .qword]⟩
    | 0xB => some ⟨.pop, [.low .qword]⟩
    | 0xE | 0xF => (cond? (opcode - 0x70)).map fun c => ⟨.jumpIf c, [.distance 1]⟩
    | 0x17 => some ⟨.mov, [.low .sized, .whole]⟩
    | _ => match opcode with
      | 0x63 => some ⟨.movsxd, [.reg .sized, .rm .dword]⟩
      | 0x69 => some ⟨.imul, [.reg .sized, .rm .sized, .signed 4]⟩
      | 0x6B => some ⟨.imul, [.reg .sized, .rm .sized, .signed 1]⟩
      | 0x81 => (alu? digit).map fun op => ⟨.alu op, [.rm .sized, .signed 4]⟩
      | 0x83 => (alu? digit).map fun op => ⟨.alu op, [.rm .sized, .signed 1]⟩
      | 0x85 => some ⟨.test, [.rm .sized, .reg .sized]⟩
      | 0x88 => some ⟨.mov, [.rm .byte, .reg .byte]⟩
      | 0x89 => some ⟨.mov, [.rm .sized, .reg .sized]⟩
      | 0x8B => some ⟨.mov, [.reg .sized, .rm .sized]⟩
      | 0x8D => some ⟨.lea, [.reg .sized, .address]⟩
      | 0x99 => some ⟨.convert, [.accumulator]⟩
      | 0xC1 => (shift? digit).map fun op => ⟨.shift op, [.rm .sized, .count]⟩
      | 0xC3 => some ⟨.ret, []⟩
      | 0xC7 => if digit = 0 then some ⟨.mov, [.rm .sized, .signed 4]⟩ else none
      | 0xD3 => (shift? digit).map fun op => ⟨.shift op, [.rm .sized, .cl]⟩
      | 0xE8 => some ⟨.call, [.distance 4]⟩
      | 0xE9 => some ⟨.jump, [.distance 4]⟩
      | 0xEB => some ⟨.jump, [.distance 1]⟩
      | 0xF7 => match digit with
        | 6 => some ⟨.div false, [.rm .sized]⟩
        | 7 => some ⟨.div true, [.rm .sized]⟩
        | _ => none
      | _ => none

def twoByte? (opcode : Nat) : Option Entry :=
  match opcode / 16 with
  | 4 => (cond? (opcode % 16)).map fun c => ⟨.cmov c, [.reg .sized, .rm .sized]⟩
  | 8 => (cond? (opcode % 16)).map fun c => ⟨.jumpIf c, [.distance 4]⟩
  | 9 => (cond? (opcode % 16)).map fun c => ⟨.set c, [.rm .byte]⟩
  | _ => match opcode with
    | 0x0B => some ⟨.ud2, []⟩
    | 0xAF => some ⟨.imul, [.reg .sized, .rm .sized]⟩
    | 0xB6 => some ⟨.movzx, [.reg .sized, .rm .byte]⟩
    | _ => none

def scalar? : Nat → Option Entry
  | 0x10 => some ⟨.movsd, [.reg .scalar, .rm .scalar]⟩
  | 0x11 => some ⟨.movsd, [.rm .scalar, .reg .scalar]⟩
  | 0x2A => some ⟨.cvtsi2sd, [.reg .scalar, .rm .sized]⟩
  | 0x2C => some ⟨.cvttsd2si, [.reg .sized, .rm .scalar]⟩
  | 0x58 => some ⟨.sse .add, [.reg .scalar, .rm .scalar]⟩
  | 0x59 => some ⟨.sse .mul, [.reg .scalar, .rm .scalar]⟩
  | 0x5C => some ⟨.sse .sub, [.reg .scalar, .rm .scalar]⟩
  | 0x5E => some ⟨.sse .div, [.reg .scalar, .rm .scalar]⟩
  | _ => none

def formOf? (legacy : Option Nat) (escaped : Bool) (opcode digit : Nat) : Option Entry :=
  match legacy, escaped with
  | none, false => oneByte? opcode digit
  | none, true => twoByte? opcode
  | some 0xF2, true => scalar? opcode
  | some 0x66, true => if opcode = 0x2E then some ⟨.ucomisd, [.reg .scalar, .rm .scalar]⟩ else none
  | _, _ => none

end Tables

section Reading

def readLegacy (code : List Byte) : Option Nat × List Byte :=
  match code with
  | b :: rest => if b.toNat = 0xF2 ∨ b.toNat = 0x66 then (some b.toNat, rest) else (none, code)
  | [] => (none, [])

def readRex (code : List Byte) : Rex × List Byte :=
  match code with
  | b :: rest =>
    if b.toNat / 16 = 4 then
      (⟨true, b.getLsbD 3, b.getLsbD 2, b.getLsbD 1, b.getLsbD 0⟩, rest)
    else ({}, code)
  | [] => ({}, [])

def readOpcode : List Byte → Option (Bool × Nat × List Byte)
  | b :: rest =>
    if b.toNat = 0x0F then rest.head?.map fun c => (true, c.toNat, rest.tail)
    else some (false, b.toNat, rest)
  | [] => none

def readSigned (count : Nat) (code : List Byte) : Option (Int × List Byte) :=
  if count ≤ code.length then some (signedOf (code.take count), code.drop count) else none

def readUnsigned (count : Nat) (code : List Byte) : Option (Int × List Byte) :=
  if count ≤ code.length then some (fromLittleEndian (code.take count), code.drop count) else none

inductive Rm where
  | register (low : Nat)
  | memory (base : Nat) (disp : Int)
  | next (disp : Int)
  deriving DecidableEq, Repr

def readSib (index : Bool) (mode : Nat) : List Byte → Option (Nat × List Byte)
  | b :: rest =>
    if b.toNat / 8 % 8 = 4 ∧ index = false ∧ ¬ (mode = 0 ∧ b.toNat % 8 = 5) then some (b.toNat % 8, rest)
    else none
  | [] => none

def readBase (index : Bool) (mode rm : Nat) (rest : List Byte) : Option (Nat × List Byte) :=
  if rm = 4 then readSib index mode rest else some (rm, rest)

def readDisp (mode : Nat) (rest : List Byte) : Option (Int × List Byte) :=
  if mode = 0 then some (0, rest) else readSigned (if mode = 1 then 1 else 4) rest

def readModRm (index : Bool) : List Byte → Option (Nat × Rm × List Byte)
  | b :: rest =>
    let mode := b.toNat / 64
    let reg := b.toNat / 8 % 8
    let rm := b.toNat % 8
    if mode = 3 then some (reg, .register rm, rest)
    else if mode = 0 ∧ rm = 5 then (readSigned 4 rest).map fun (disp, rest) => (reg, .next disp, rest)
    else do
      let (base, rest) ← readBase index mode rm rest
      let (disp, rest) ← readDisp mode rest
      some (reg, .memory base disp, rest)
  | [] => none

def fullCode (upper : Bool) (low : Nat) : Fin 16 := gprOf ((if upper then 8 else 0) + low)

@[simp] def Kind.width (wide : Bool) : Kind → MemWidth
  | .byte => .byte
  | .dword => .dword
  | .qword | .scalar => .qword
  | .sized => .ofWide wide

def Kind.register (rex : Rex) (kind : Kind) (reg : Fin 16) : Operand :=
  match kind with
  | .scalar => .xmm reg
  | .byte =>
    if rex.present = false ∧ 4 ≤ reg.val ∧ reg.val < 8 then .high (gprOf (reg.val - 4)) else .gpr .byte reg
  | _ => .gpr (kind.width rex.wide) reg

section Kinds
variable (rex : Rex) (reg : Fin 16)

@[simp] theorem registerScalar : Kind.register rex .scalar reg = .xmm reg := rfl

@[simp] theorem registerQword : Kind.register rex .qword reg = .gpr .qword reg := rfl

@[simp] theorem registerDword : Kind.register rex .dword reg = .gpr .dword reg := rfl

@[simp] theorem registerSized : Kind.register rex .sized reg = .gpr (.ofWide rex.wide) reg := rfl

end Kinds

structure Front where
  rex : Rex
  opcode : Nat
  reg : Nat
  rm : Rm

@[simp] def Front.memory? (front : Front) (width : MemWidth) : Option Operand :=
  match front.rm with
  | .register _ => none
  | .memory base disp => some (.mem width (fullCode front.rex.rm base) disp)
  | .next disp => some (.code width disp)

@[simp] def readField (front : Front) (f : Field) (rest : List Byte) : Option (Operand × List Byte) :=
  match f with
  | .reg kind => some (kind.register front.rex (fullCode front.rex.reg front.reg), rest)
  | .rm kind =>
    match front.rm with
    | .register low => some (kind.register front.rex (fullCode front.rex.rm low), rest)
    | _ => (front.memory? (kind.width front.rex.wide)).map fun operand => (operand, rest)
  | .address => (front.memory? .qword).map fun operand => (operand, rest)
  | .low kind => some (kind.register front.rex (fullCode front.rex.rm (front.opcode % 8)), rest)
  | .accumulator => some (.gpr (Kind.sized.width front.rex.wide) (gprOf rax), rest)
  | .cl => some (.gpr .byte (gprOf rcx), rest)
  | .signed count => (readSigned count rest).map fun (value, rest) => (.imm value, rest)
  | .count => (readUnsigned 1 rest).map fun (value, rest) => (.imm value, rest)
  | .whole =>
    (readUnsigned (if front.rex.wide then 8 else 4) rest).map fun (value, rest) => (.imm value, rest)
  | .distance count => (readSigned count rest).map fun (value, rest) => (.rel value, rest)

@[simp] def readFields (front : Front) : List Field → List Byte → Option (List Operand × List Byte)
  | [], rest => some ([], rest)
  | f :: more, rest => do
    let (operand, rest) ← readField front f rest
    let (operands, rest) ← readFields front more rest
    some (operand :: operands, rest)

def readFront (rex : Rex) (opcode : Nat) (entry : Entry) (rest : List Byte) :
    Option (Front × List Byte) :=
  if entry.hasModRm then
    (readModRm rex.index rest).map fun (reg, rm, rest) => (⟨rex, opcode, reg, rm⟩, rest)
  else some (⟨rex, opcode, 0, .register 0⟩, rest)

end Reading
end Decode

@[simp] def Operand.addressed (next : Nat) : Operand → Operand
  | .code width disp => .code width (next + disp)
  | operand => operand

open Decode in
def decode (offset : Nat) (code : List Byte) : Option (Insn × List Byte) := do
  let (legacy, rest) := readLegacy code
  let (rex, rest) := readRex rest
  let (escaped, opcode, rest) ← readOpcode rest
  let entry ← formOf? legacy escaped opcode ((rest.headD 0).toNat / 8 % 8)
  let (front, rest) ← readFront rex opcode entry rest
  let (operands, rest) ← readFields front entry.fields rest
  some (⟨entry.op, operands.map (Operand.addressed (offset + (code.length - rest.length)))⟩, rest)

def decodeAll (offset : Nat) (code : List Byte) : Option (List Insn) :=
  go code.length offset code
where
  go : Nat → Nat → List Byte → Option (List Insn)
    | _, _, [] => some []
    | 0, _, _ => none
    | limit + 1, offset, code => do
      let (insn, rest) ← decode offset code
      let insns ← go limit (offset + (code.length - rest.length)) rest
      some (insn :: insns)

end SsaCodegen.X64
