import SsaCodegen.X64.Recipe
/-! Shrinking: encodings take their compact form where one exists. Constants have one
always, operations with an immediate when it fits a byte. -/
namespace SsaCodegen.X64
namespace Shrink

def immediateTy? (f : Func) (inst : Inst) : Option Ty :=
  match inst.enc.recipe? with
  | some .alu | some .imul => some inst.ty
  | some .icmp | some .brIcmp => some (compareTy f inst)
  | _ => none

def hasCompactForm (f : Func) (inst : Inst) : Bool :=
  match inst.enc.recipe? with
  | some .iconst | some .bconst => true
  | _ =>
    match (immediateTy? f inst).bind fun ty => immOperand? inst 1 ty.isWide with
    | some imm => fitsInt8 imm.toInt
    | none => false

def shrinks (f : Func) (inst : Inst) : Bool := hasCompactForm f inst && !inst.enc.isCompact

def shrinkInst (f : Func) (inst : Inst) : Inst :=
  if shrinks f inst then { inst with enc := inst.enc.makeCompact } else inst

end Shrink

def shrinkInstructions (f : Func) : Func × Nat :=
  (f.mapInsts (Shrink.shrinkInst f), f.insts.countP (Shrink.shrinks f))

end SsaCodegen.X64
