import SsaCodegen.Ir.Func
/-! Canonical NaNs. Float arithmetic writes a fresh value; a select on it being NaN then
defines the result as the canonical NaN or as that value, so its users are untouched. -/
namespace SsaCodegen
namespace NanGuard

def canonicalNan : Value := .float 0x7ff8000000000000#64

def isFloatArithmetic (op : Opcode) : Bool :=
  op == .fadd || op == .fsub || op == .fmul || op == .fdiv

def guarded (raw result : Nat) (inst : Inst) : List Inst :=
  [{ inst with result := some raw },
   { result := some (raw + 1), op := .fcmp, ty := .b1, floatCond := .uno,
     operands := [.temp raw, .temp raw], pos := inst.pos },
   { result := some result, op := .select, ty := .f64,
     operands := [.temp (raw + 1), canonicalNan, .temp raw], pos := inst.pos }]

def guardInsts : Nat → List Inst → List Inst × Nat
  | next, [] => ([], next)
  | next, inst :: rest =>
    match isFloatArithmetic inst.op, inst.result with
    | true, some result =>
      let (rest, last) := guardInsts (next + 2) rest
      (guarded next result inst ++ rest, last)
    | _, _ =>
      let (rest, last) := guardInsts next rest
      (inst :: rest, last)

def guardBlocks : Nat → List Block → List Block × Nat
  | next, [] => ([], next)
  | next, bb :: rest =>
    let (insts, next) := guardInsts next bb.insts
    let (rest, last) := guardBlocks next rest
    ({ bb with insts := insts } :: rest, last)

end NanGuard

open NanGuard in
def canonicalizeNans (f : Func) : Func × Bool :=
  let (blocks, last) := guardBlocks f.numValues f.blocks
  let pairs := (last - f.numValues) / 2
  ({ f with
    blocks := blocks
    valueTypes := f.valueTypes ++ (List.replicate pairs [Ty.f64, Ty.b1]).flatten },
   pairs != 0)

end SsaCodegen
