import SsaCodegen.Ir.Func
/-! The text of instructions and functions. A function is its head line, per block
a label line and four-space indented instructions, and a closing brace. -/
namespace SsaCodegen

def commaValues (values : List Value) : String := ", ".intercalate (values.map Value.text)

def offsetText (n : Int) : String :=
  if n = 0 then "" else if 0 < n then "+" ++ toString n else toString n

namespace Inst

def targetText (i : Inst) (edge : Nat) (label : String) : String :=
  let args := i.argsOf edge
  if args.isEmpty then label else label ++ "(" ++ commaValues args ++ ")"

def headText (i : Inst) : String :=
  (match i.result with
    | some id => valueName id ++ " = "
    | none => "") ++
  i.op.name ++
  (if i.result.isSome && !i.ty.isVoid && i.op != .call then "." ++ i.ty.name else "")

def condText (i : Inst) : String :=
  match i.op with
  | .icmp | .brIcmp => " " ++ i.intCond.name
  | .fcmp => " " ++ i.floatCond.name
  | _ => ""

def listText (i : Inst) : String :=
  let targets := i.targets.mapIdx fun edge label => i.targetText edge label
  let items := i.operands.map Value.text ++ targets
  if items.isEmpty then "" else " " ++ ", ".intercalate items

def bodyText (i : Inst) : String :=
  match i.op with
  | .load => " " ++ (i.operand 0).text ++ offsetText i.imm
  | .store => " " ++ (i.operand 0).text ++ ", " ++ (i.operand 1).text ++ offsetText i.imm
  | .call => " %" ++ i.callee ++ "(" ++ commaValues i.operands ++ ")"
  | .funcAddr => " %" ++ i.callee
  | .trap => " " ++ i.trapCode.name
  | .trapnz => " " ++ (i.operand 0).text ++ ", " ++ i.trapCode.name
  | _ => i.listText

def text (i : Inst) : String := i.headText ++ i.condText ++ i.bodyText

end Inst

def Param.text (p : Param) : String := valueName p.id ++ ": " ++ p.ty.name

def Block.text (b : Block) : String :=
  b.label ++
  (if b.params.isEmpty then "" else "(" ++ ", ".intercalate (b.params.map Param.text) ++ ")") ++
  ":\n" ++ String.join (b.insts.map fun i => "    " ++ i.text ++ "\n")

def Func.text (f : Func) : String :=
  "function %" ++ f.name ++ f.signature.text ++ " \x7b\n" ++
  String.join (f.blocks.map Block.text) ++ "\x7d\n"

end SsaCodegen
