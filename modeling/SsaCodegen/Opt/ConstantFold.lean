import SsaCodegen.Ir.Func
/-! Constant folding. Values defined by a constant instruction are remembered in layout
order, and an operation on known values becomes a constant itself, unless it would trap.
A multiplication or unsigned division by a power of two becomes a shift or a mask, and a
branch on a known condition becomes a jump. Folded `i32` constants are sign extended. -/
namespace SsaCodegen
namespace ConstantFold

abbrev Known : Type := List (Option (BitVec 64))

def Known.value? (known : Known) : Value → Option (BitVec 64)
  | .temp id => known.getD id none
  | v => v.intConst?

def Known.record (known : Known) (inst : Inst) : Known :=
  match inst.op, inst.result, inst.operands with
  | .iconst, some id, v :: _ | .bconst, some id, v :: _ => known.set id (some v.intPayload)
  | _, _, _ => known

def evalBinary {w : Nat} (op : Opcode) (a b : BitVec w) : Option (BitVec w) :=
  let amount := b.toNat % w
  match op with
  | .iadd => some (a + b)
  | .isub => some (a - b)
  | .imul => some (a * b)
  | .band => some (a &&& b)
  | .bor => some (a ||| b)
  | .bxor => some (a ^^^ b)
  | .ishl => some (a <<< amount)
  | .ushr => some (a >>> amount)
  | .sshr => some (a.sshiftRight amount)
  | .udiv => if b = 0 then none else some (a / b)
  | .urem => if b = 0 then none else some (a % b)
  | .sdiv => if b = 0 || (a == BitVec.intMin w && b == -1) then none else some (a.sdiv b)
  | .srem => if b = 0 || (a == BitVec.intMin w && b == -1) then none else some (a.srem b)
  | _ => none

def isFoldable : Opcode → Bool
  | .iadd | .isub | .imul | .band | .bor | .bxor | .ishl | .ushr | .sshr
  | .sdiv | .udiv | .srem | .urem => true
  | _ => false

def foldBinary (op : Opcode) (a b : BitVec 64) (ty : Ty) : Option (BitVec 64) :=
  if ty = .i32 then
    (evalBinary op (a.setWidth 32) (b.setWidth 32)).map (·.signExtend 64)
  else evalBinary op a b

def exponent? (b : BitVec 64) (ty : Ty) : Option Nat :=
  let n := if ty = .i32 then (b.setWidth 32).toNat else b.toNat
  if n = 1 <<< n.log2 then some n.log2 else none

def asConstant (inst : Inst) (op : Opcode) (v : Value) : Inst :=
  { inst with op := op, operands := [v], imm := 0 }

def reduceStrength (inst : Inst) (a : Value) (k : Nat) : Option Inst :=
  let lag (op : Opcode) (n : Nat) : Option Inst :=
    some { inst with op := op, operands := [a, .int (BitVec.ofNat 64 n)] }
  match inst.op with
  | .imul => lag .ishl k
  | .udiv => lag .ushr k
  | .urem => lag .band ((1 <<< k) - 1)
  | _ => none

def foldOperation (known : Known) (inst : Inst) : Option Inst :=
  match inst.operands with
  | [a, b] =>
    match known.value? a, known.value? b with
    | some x, some y =>
      (foldBinary inst.op x y inst.ty).map fun z => asConstant inst .iconst (.int z)
    | none, some y => (exponent? y inst.ty).bind (reduceStrength inst a)
    | _, none => none
  | _ => none

def compareBits (f : Func) : Value → Nat
  | .temp id => (f.valueType id).bits
  | _ => 64

def foldCompare (f : Func) (known : Known) (inst : Inst) : Option Inst :=
  match inst.operands with
  | [a, b] =>
    match known.value? a, known.value? b with
    | some x, some y =>
      some (asConstant inst .bconst (.bool (inst.intCond.evaluate x y (compareBits f a))))
    | _, _ => none
  | _ => none

def foldBranch (known : Known) (inst : Inst) : Option Inst :=
  match inst.operands, inst.targets with
  | cond :: _, [_, _] =>
    (known.value? cond).map fun c =>
      let edge := if c = 0 then 1 else 0
      { inst with
        op := .jump
        operands := []
        targets := [inst.target edge]
        targetArgs := [inst.argsOf edge]
        enc := {} }
  | _, _ => none

def fold? (f : Func) (known : Known) (inst : Inst) : Option Inst :=
  if isFoldable inst.op then
    if inst.ty.isInt then foldOperation known inst else none
  else
    match inst.op with
    | .icmp => foldCompare f known inst
    | .brif => foldBranch known inst
    | _ => none

def foldInsts (f : Func) : Known → List Inst → List Inst × Known
  | known, [] => ([], known)
  | known, inst :: rest =>
    let inst := (fold? f known inst).getD inst
    let (rest, known) := foldInsts f (known.record inst) rest
    (inst :: rest, known)

def foldBlocks (f : Func) : Known → List Block → List Block
  | _, [] => []
  | known, bb :: rest =>
    let (insts, known) := foldInsts f known bb.insts
    { bb with insts := insts } :: foldBlocks f known rest

def countBranches (f : Func) : Nat := f.insts.countP (·.op == .brif)

end ConstantFold

open ConstantFold in
def foldConstants (f : Func) : Func × Bool :=
  let g := { f with blocks := foldBlocks f (List.replicate f.numValues none) f.blocks }
  let h := if countBranches g < countBranches f then g.noteLayoutChange else g
  (h, g.blocks != f.blocks)

end SsaCodegen
