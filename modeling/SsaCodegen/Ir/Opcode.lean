/-! The instruction set of the IR and, per opcode, what it demands of an
instruction: result, operand count, successors, and how it acts on the world.
An opcode is pure when it does none of that acting. -/
namespace SsaCodegen

inductive Opcode where
  | iconst | bconst | fconst | copy
  | iadd | isub | imul | sdiv | udiv | srem | urem
  | band | bor | bxor | ishl | ushr | sshr
  | icmp | fadd | fsub | fmul | fdiv | fcmp | select
  | sextend | uextend | ireduce | fcvtFromSint | fcvtToSint
  | load | store | call | funcAddr | trapnz | prologue
  | trap | jump | brif | brIcmp | ret
  deriving DecidableEq, Repr, Inhabited

inductive ResultArity where
  | none | one | optional
  deriving DecidableEq, Repr

structure OpcodeInfo where
  name : String
  result : ResultArity := .one
  minOperands : Nat
  maxOperands : Nat
  successors : Nat := 0
  isTerminator : Bool := false
  hasSideEffects : Bool := false
  mayTrap : Bool := false
  isCall : Bool := false
  deriving DecidableEq, Repr

def variadicOperandCount : Nat := 255

namespace Opcode

def all : List Opcode :=
  [.iconst, .bconst, .fconst, .copy, .iadd, .isub, .imul, .sdiv, .udiv, .srem, .urem,
   .band, .bor, .bxor, .ishl, .ushr, .sshr, .icmp, .fadd, .fsub, .fmul, .fdiv, .fcmp,
   .select, .sextend, .uextend, .ireduce, .fcvtFromSint, .fcvtToSint, .load, .store,
   .call, .funcAddr, .trapnz, .prologue, .trap, .jump, .brif, .brIcmp, .ret]

def unary (name : String) : OpcodeInfo :=
  { name := name, minOperands := 1, maxOperands := 1 }

def binary (name : String) : OpcodeInfo :=
  { name := name, minOperands := 2, maxOperands := 2 }

def info : Opcode → OpcodeInfo
  | .iconst => unary "iconst"
  | .bconst => unary "bconst"
  | .fconst => unary "fconst"
  | .copy => unary "copy"
  | .iadd => binary "iadd"
  | .isub => binary "isub"
  | .imul => binary "imul"
  | .sdiv => { binary "sdiv" with mayTrap := true }
  | .udiv => { binary "udiv" with mayTrap := true }
  | .srem => { binary "srem" with mayTrap := true }
  | .urem => { binary "urem" with mayTrap := true }
  | .band => binary "band"
  | .bor => binary "bor"
  | .bxor => binary "bxor"
  | .ishl => binary "ishl"
  | .ushr => binary "ushr"
  | .sshr => binary "sshr"
  | .icmp => binary "icmp"
  | .fadd => binary "fadd"
  | .fsub => binary "fsub"
  | .fmul => binary "fmul"
  | .fdiv => binary "fdiv"
  | .fcmp => binary "fcmp"
  | .select => { name := "select", minOperands := 3, maxOperands := 3 }
  | .sextend => unary "sextend"
  | .uextend => unary "uextend"
  | .ireduce => unary "ireduce"
  | .fcvtFromSint => unary "fcvt_from_sint"
  | .fcvtToSint => unary "fcvt_to_sint"
  | .load => { unary "load" with mayTrap := true }
  | .store => { binary "store" with result := .none, hasSideEffects := true, mayTrap := true }
  | .call =>
      { name := "call", result := .optional, minOperands := 0,
        maxOperands := variadicOperandCount, hasSideEffects := true, isCall := true }
  | .funcAddr => { name := "func_addr", minOperands := 0, maxOperands := 0 }
  | .trapnz => { unary "trapnz" with result := .none, hasSideEffects := true, mayTrap := true }
  | .prologue =>
      { name := "prologue", result := .none, minOperands := 0, maxOperands := 0,
        hasSideEffects := true }
  | .trap =>
      { name := "trap", result := .none, minOperands := 0, maxOperands := 0,
        isTerminator := true, hasSideEffects := true, mayTrap := true }
  | .jump =>
      { name := "jump", result := .none, minOperands := 0, maxOperands := 0,
        successors := 1, isTerminator := true }
  | .brif => { unary "brif" with result := .none, successors := 2, isTerminator := true }
  | .brIcmp => { binary "br_icmp" with result := .none, successors := 2, isTerminator := true }
  | .ret =>
      { name := "return", result := .none, minOperands := 0,
        maxOperands := variadicOperandCount, isTerminator := true }

def name (op : Opcode) : String := op.info.name

def isTerminator (op : Opcode) : Bool := op.info.isTerminator

def isPure (op : Opcode) : Bool :=
  !op.info.hasSideEffects && !op.info.mayTrap && !op.info.isTerminator && !op.info.isCall

def index (op : Opcode) : Nat := all.idxOf op

def isBranch (op : Opcode) : Bool := op == .jump || op == .brif || op == .brIcmp

end Opcode
end SsaCodegen
