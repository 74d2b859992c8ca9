import SsaCodegen.Ir.Func
import SsaCodegen.X64.Encoder
/-! Recipes: how the code of an instruction is built. An encoding holds the recipe and,
in its bits, whether a compact form was chosen (bit 0) and the forms of a branch's
two edges (bits 1 to 2 and 3 to 4). -/
namespace SsaCodegen.X64

inductive Recipe where
  | iconst | bconst | fconst | copy | alu | shift | imul | div | icmp
  | fpuArith | fcmp | select | extend | cvtFromSint | cvtToSint
  | load | store | call | funcAddr | trapnz | prologue | trap
  | jump | brif | brIcmp | ret
  deriving DecidableEq, Repr, Inhabited

def Recipe.all : List Recipe :=
  [.iconst, .bconst, .fconst, .copy, .alu, .shift, .imul, .div, .icmp, .fpuArith, .fcmp,
   .select, .extend, .cvtFromSint, .cvtToSint, .load, .store, .call, .funcAddr, .trapnz,
   .prologue, .trap, .jump, .brif, .brIcmp, .ret]

def Recipe.number (r : Recipe) : Nat := Recipe.all.idxOf r + 1

def Recipe.ofNumber? : Nat → Option Recipe
  | 0 => none
  | n + 1 => Recipe.all[n]?

theorem Recipe.numberRead (r : Recipe) : Recipe.ofNumber? r.number = some r := by
  cases r <;> decide

def Recipe.ofOpcode : Opcode → Recipe
  | .iconst => .iconst
  | .bconst => .bconst
  | .fconst => .fconst
  | .copy => .copy
  | .iadd | .isub | .band | .bor | .bxor => .alu
  | .ishl | .ushr | .sshr => .shift
  | .imul => .imul
  | .sdiv | .udiv | .srem | .urem => .div
  | .icmp => .icmp
  | .fadd | .fsub | .fmul | .fdiv => .fpuArith
  | .fcmp => .fcmp
  | .select => .select
  | .sextend | .uextend | .ireduce => .extend
  | .fcvtFromSint => .cvtFromSint
  | .fcvtToSint => .cvtToSint
  | .load => .load
  | .store => .store
  | .call => .call
  | .funcAddr => .funcAddr
  | .trapnz => .trapnz
  | .prologue => .prologue
  | .trap => .trap
  | .jump => .jump
  | .brif => .brif
  | .brIcmp => .brIcmp
  | .ret => .ret

inductive BranchForm where
  | fallthrough | short | near
  deriving DecidableEq, Repr, Inhabited

namespace BranchForm

def number : BranchForm → Nat
  | .fallthrough => 0
  | .short => 1
  | .near => 2

def ofNumber : Nat → BranchForm
  | 1 => .short
  | 2 => .near
  | _ => .fallthrough

theorem numberBack (f : BranchForm) : ofNumber f.number = f := by cases f <;> rfl

end BranchForm

inductive Edge where
  | taken | other
  deriving DecidableEq, Repr, Inhabited

def Edge.weight : Edge → Nat
  | .taken => 2
  | .other => 8

end X64

namespace Encoding
open X64

def recipe? (e : Encoding) : Option Recipe := Recipe.ofNumber? e.recipe

def ofRecipe (r : Recipe) : Encoding := ⟨r.number, 0⟩

def isCompact (e : Encoding) : Bool := e.bits % 2 == 1

def makeCompact (e : Encoding) : Encoding :=
  if e.isCompact then e else { e with bits := e.bits + 1 }

def form (e : Encoding) (edge : Edge) : BranchForm :=
  BranchForm.ofNumber (e.bits / edge.weight % 4)

def withForm (e : Encoding) (edge : Edge) (form : BranchForm) : Encoding :=
  { e with
    bits := e.bits - e.bits / edge.weight % 4 * edge.weight + form.number * edge.weight }

theorem compactMakeCompact (e : Encoding) : e.makeCompact.isCompact = true := by
  by_cases h : e.isCompact = true
  · simp [makeCompact, h]
  · simp only [makeCompact, h]
    simp [isCompact] at h ⊢
    omega

theorem formWithForm (e : Encoding) (edge : Edge) (form : BranchForm) :
    (e.withForm edge form).form edge = form := by
  have stored : (e.withForm edge form).bits / edge.weight % 4 = form.number := by
    cases edge <;> cases form <;> simp only [withForm, Edge.weight, BranchForm.number] <;> omega
  rw [Encoding.form, stored, BranchForm.numberBack]

theorem formWithOther {a b : Edge} (e : Encoding) (form : BranchForm) (h : b ≠ a) :
    (e.withForm a form).form b = e.form b := by
  have kept : (e.withForm a form).bits / b.weight % 4 = e.bits / b.weight % 4 := by
    cases a <;> cases b
    · exact absurd rfl h
    · cases form <;> simp only [withForm, Edge.weight, BranchForm.number] <;> omega
    · cases form <;> simp only [withForm, Edge.weight, BranchForm.number] <;> omega
    · exact absurd rfl h
  rw [Encoding.form, kept, Encoding.form]

end Encoding

namespace X64

def operandTy (f : Func) : Value → Ty
  | .temp id => f.valueType id
  | .float _ => .f64
  | .bool _ => .b1
  | .int _ => .i64

def compareTy (f : Func) (inst : Inst) : Ty :=
  match inst.operands.filterMap Value.temp? with
  | id :: _ => f.valueType id
  | [] => .i64

/-- A literal operand as an immediate: its low half in a narrow operation, and in a
wide one only if sign extension gives it back. -/
def immOperand? (inst : Inst) (index : Nat) (wide : Bool) : Option (BitVec 32) :=
  match (inst.operands[index]?).bind Value.intConst? with
  | some word =>
    if wide && !fitsInt32 word.toInt then none else some (word.setWidth 32)
  | none => none

def hasFloatConst (inst : Inst) : Bool := inst.uses.any Value.isFloatConst

def pooledConstant (f : Func) (inst : Inst) : Bool :=
  match inst.operands with
  | [v] => 0 ≤ inst.imm && f.constants[inst.imm.toNat]? == some v.floatBits
  | _ => false

def encodable (f : Func) (inst : Inst) : Recipe → Bool
  | .fconst => pooledConstant f inst
  | .select => !inst.ty.isFloat
  | .load | .store => fitsInt32 inst.imm
  | .call => fitsArgRegs (inst.operands.map (operandTy f))
  | .ret => fitsReturnRegs (inst.operands.map (operandTy f))
  | .brif | .brIcmp => inst.targetArgs.all List.isEmpty
  | _ => true

def encode? (f : Func) (inst : Inst) : Option Encoding :=
  let recipe := Recipe.ofOpcode inst.op
  if inst.op != .fconst && hasFloatConst inst then none
  else if encodable f inst recipe then some (.ofRecipe recipe)
  else none

end X64
end SsaCodegen
