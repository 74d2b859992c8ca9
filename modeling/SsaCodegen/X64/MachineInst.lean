import SsaCodegen.X64.Registers
/-! The machine instructions in use. Widths, conditions and operators are those of the
hardware; `wide` chooses 64 over 32 bits. Displacements and immediates are words, so
every value of this type has an encoding. Where a low byte is meant the register is
given by number, since that of an xmm register is encoded by its code alone. -/
namespace SsaCodegen.X64

inductive Cond where
  | o | no | b | ae | e | ne | be | a | s | ns | p | np | l | ge | le | g
  deriving DecidableEq, Repr, Inhabited

def Cond.all : List Cond :=
  [.o, .no, .b, .ae, .e, .ne, .be, .a, .s, .ns, .p, .np, .l, .ge, .le, .g]

def Cond.code (c : Cond) : Nat := Cond.all.idxOf c

inductive AluOp where
  | add | or | and | sub | xor | cmp
  deriving DecidableEq, Repr, Inhabited

def AluOp.all : List AluOp := [.add, .or, .and, .sub, .xor, .cmp]

def AluOp.mnemonic : AluOp → String
  | .add => "add"
  | .or => "or"
  | .and => "and"
  | .sub => "sub"
  | .xor => "xor"
  | .cmp => "cmp"

inductive ShiftOp where
  | shl | shr | sar
  deriving DecidableEq, Repr, Inhabited

def ShiftOp.all : List ShiftOp := [.shl, .shr, .sar]

def ShiftOp.mnemonic : ShiftOp → String
  | .shl => "shl"
  | .shr => "shr"
  | .sar => "sar"

inductive SseOp where
  | add | mul | sub | div
  deriving DecidableEq, Repr, Inhabited

def SseOp.all : List SseOp := [.add, .mul, .sub, .div]

def SseOp.mnemonic : SseOp → String
  | .add => "add"
  | .mul => "mul"
  | .sub => "sub"
  | .div => "div"

inductive MemWidth where
  | byte | dword | qword
  deriving DecidableEq, Repr, Inhabited

inductive MachineInst where
  | movRR (dst src : Gpr) (wide : Bool)
  | movImm32 (dst : Gpr) (imm : BitVec 32)
  | movSignedImm32 (dst : Gpr) (imm : BitVec 32)
  | movImm64 (dst : Gpr) (imm : BitVec 64)
  | movSymbol (dst : Gpr) (symbol : String)
  | load (dst base : Gpr) (disp : BitVec 32) (width : MemWidth)
  | store (base : Gpr) (disp : BitVec 32) (src : Reg) (width : MemWidth)
  | storeImm32 (base : Gpr) (disp imm : BitVec 32)
  | lea (dst base : Gpr) (disp : BitVec 32)
  | push (reg : Gpr)
  | pop (reg : Gpr)
  | alu (op : AluOp) (dst src : Gpr) (wide : Bool)
  /-- With `short` the low byte of the immediate is encoded and sign-extended. -/
  | aluImm (op : AluOp) (dst : Gpr) (imm : BitVec 32) (wide short : Bool)
  | alu8 (op : AluOp) (dst src : Gpr)
  | imul (dst src : Gpr) (wide : Bool)
  | imulImm (dst src : Gpr) (imm : BitVec 32) (wide short : Bool)
  | shiftCl (op : ShiftOp) (dst : Gpr) (wide : Bool)
  | shiftImm (op : ShiftOp) (dst : Gpr) (amount : BitVec 8) (wide : Bool)
  | signExtendAccumulator (wide : Bool)
  | div (signed : Bool) (divisor : Gpr) (wide : Bool)
  | test (a b : Gpr) (wide : Bool)
  | setcc (cond : Cond) (dst : Reg)
  | movzxByte (dst : Gpr) (src : Reg)
  | cmov (cond : Cond) (dst src : Gpr) (wide : Bool)
  | movsxd (dst src : Gpr)
  | jccShort (cond : Cond) (disp : BitVec 8)
  | jccNear (cond : Cond) (disp : BitVec 32)
  | jmpShort (disp : BitVec 8)
  | jmpNear (disp : BitVec 32)
  | call (symbol : String)
  | ud2
  | ret
  | movsdRR (dst src : Xmm)
  | movsdLoad (dst : Xmm) (base : Gpr) (disp : BitVec 32)
  | movsdStore (base : Gpr) (disp : BitVec 32) (src : Xmm)
  | movsdRip (dst : Xmm) (target : Nat)
  | sse (op : SseOp) (dst src : Xmm)
  | ucomisd (a b : Xmm)
  | cvtsi2sd (dst : Xmm) (src : Gpr) (wide : Bool)
  | cvttsd2si (dst : Gpr) (src : Xmm) (wide : Bool)
  deriving DecidableEq, Repr

end SsaCodegen.X64
