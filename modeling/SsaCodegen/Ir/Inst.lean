import SsaCodegen.Ir.Condition
import SsaCodegen.Ir.Opcode
import SsaCodegen.Ir.Ty
import SsaCodegen.Ir.Value
/-! Instructions. Every instruction has all fields; those that its opcode does not
use stay at their defaults. Targets and branch arguments are parallel lists in a
well-formed branch, but nothing here forces that. -/
namespace SsaCodegen

structure SourcePos where
  line : Nat := 0
  column : Nat := 0
  deriving DecidableEq, Repr, Inhabited

namespace SourcePos

def isKnown (p : SourcePos) : Bool := p.line != 0

def text (p : SourcePos) : String :=
  if p.line = 0 then "?"
  else if p.column = 0 then toString p.line
  else toString p.line ++ ":" ++ toString p.column

end SourcePos

inductive TrapCode where
  | user | integerDivisionByZero | heapOutOfBounds | unreachableCode
  deriving DecidableEq, Repr, Inhabited

namespace TrapCode

def all : List TrapCode := [.user, .integerDivisionByZero, .heapOutOfBounds, .unreachableCode]

def name : TrapCode → String
  | .user => "user"
  | .integerDivisionByZero => "int_divz"
  | .heapOutOfBounds => "heap_oob"
  | .unreachableCode => "unreachable"

end TrapCode

/-- How an instruction is encoded: the number of a recipe, 0 for none yet, and
flag bits whose meaning belongs to the recipe. -/
structure Encoding where
  recipe : Nat := 0
  bits : Nat := 0
  deriving DecidableEq, Repr, Inhabited

def Encoding.isLegal (e : Encoding) : Bool := e.recipe != 0

structure Inst where
  result : Option Nat := none
  op : Opcode := .copy
  ty : Ty := .void
  operands : List Value := []
  targets : List String := []
  targetArgs : List (List Value) := []
  intCond : IntCond := .eq
  floatCond : FloatCond := .eq
  imm : Int := 0
  callee : String := ""
  trapCode : TrapCode := .user
  pos : SourcePos := {}
  enc : Encoding := {}
  safepointSlots : List Nat := []
  deriving DecidableEq, Repr, Inhabited

namespace Inst

def operand (i : Inst) (k : Nat) : Value := i.operands.getD k (.int 0)

def target (i : Inst) (edge : Nat) : String := i.targets.getD edge ""

def argsOf (i : Inst) (edge : Nat) : List Value := i.targetArgs.getD edge []

def uses (i : Inst) : List Value := i.operands ++ i.targetArgs.flatten

def usedTemps (i : Inst) : List Nat := i.uses.filterMap Value.temp?

def usesTemp (i : Inst) (id : Nat) : Bool := i.usedTemps.contains id

def mapUses (f : Value → Value) (i : Inst) : Inst :=
  { i with operands := i.operands.map f, targetArgs := i.targetArgs.map (·.map f) }

def defines (i : Inst) (id : Nat) : Bool := i.result == some id

def isTerminator (i : Inst) : Bool := i.op.isTerminator

theorem usesMapUses (f : Value → Value) (i : Inst) : (i.mapUses f).uses = i.uses.map f := by
  simp [uses, mapUses, List.map_flatten]

end Inst

def jumpTo (label : String) (args : List Value) (pos : SourcePos) : Inst :=
  { op := .jump, targets := [label], targetArgs := [args], pos := pos }

end SsaCodegen
