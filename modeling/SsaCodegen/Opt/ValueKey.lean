import SsaCodegen.Ir.Inst
/-! Keys of value numbering: pure instructions with equal keys compute equal values.
The operands of a commutative operation are put into one order, references first. -/
namespace SsaCodegen

structure ValueKey where
  op : Opcode
  ty : Ty
  cond : Nat := 0
  imm : Int := 0
  callee : String := ""
  operands : List Value := []
  deriving DecidableEq, Repr, Inhabited

namespace Value

def rank : Value → Nat × Nat
  | .temp id => (3, id)
  | .int word => (2, word.toNat)
  | .bool flag => (2, flag.toNat)
  | .float bits => (1, bits.toNat)

def ranksBelow (a b : Value) : Bool :=
  a.rank.1 < b.rank.1 || (a.rank.1 == b.rank.1 && a.rank.2 < b.rank.2)

def kindIndex : Value → Nat
  | .temp _ => 0
  | .int _ => 1
  | .float _ => 2
  | .bool _ => 3

def hashStep : BitVec 64 := 0x9e3779b97f4a7c15#64

def payloadHash : Value → BitVec 64
  | .temp id => BitVec.ofNat 64 id + hashStep
  | .int word => word
  | .bool flag => BitVec.ofNat 64 flag.toNat
  | .float bits => bits

def hashWord (v : Value) : BitVec 64 :=
  BitVec.ofNat 64 (v.kindIndex * 1469598103934665603) ^^^ v.payloadHash

end Value

namespace Inst

def isCommutative (i : Inst) : Bool :=
  match i.op with
  | .iadd | .imul | .band | .bor | .bxor | .fadd | .fmul => true
  | .icmp => i.intCond == .eq || i.intCond == .ne
  | .fcmp =>
    i.floatCond == .eq || i.floatCond == .ne || i.floatCond == .uno || i.floatCond == .ord
  | _ => false

def orderedOperands (i : Inst) : List Value :=
  match i.operands with
  | [a, b] => if i.isCommutative && a.ranksBelow b then [b, a] else [a, b]
  | operands => operands

def condIndex (i : Inst) : Nat :=
  match i.op with
  | .icmp => i.intCond.index
  | .fcmp => i.floatCond.index
  | _ => 0

def valueKey? (i : Inst) : Option ValueKey :=
  if i.result.isSome && i.op.isPure then
    some ⟨i.op, i.ty, i.condIndex, i.imm, i.callee, i.orderedOperands⟩
  else none

end Inst

namespace ValueKey

def headHash (k : ValueKey) : BitVec 64 :=
  (BitVec.ofNat 64 (k.op.index * 1099511628211) ^^^ BitVec.ofNat 64 k.ty.index) ^^^
    ((BitVec.ofNat 64 k.cond <<< 8) ^^^ BitVec.ofInt 64 k.imm)

def mixHash (h : BitVec 64) (v : Value) : BitVec 64 :=
  h ^^^ (v.hashWord + Value.hashStep + (h <<< 6) + (h >>> 2))

def hashWord (k : ValueKey) : BitVec 64 := k.operands.foldl mixHash k.headHash

end ValueKey
end SsaCodegen
