import SsaCodegen.Flow.Dominators
import SsaCodegen.Ir.Printer
import SsaCodegen.Verify.Violation
/-! The structural verifier. It checks the entry block against the signature, labels,
that every value is defined once and at its declared type, and per instruction its
place, shape, types, branch targets and that each use is dominated by the
definition. Nothing reported means that all of this holds. -/
namespace SsaCodegen

structure Definition where
  value : Nat
  ty : Ty
  block : Nat
  index : Option Nat
  place : String
  deriving DecidableEq, Repr, Inhabited

def instPlace (label : String) (index : Nat) : String :=
  label ++ "[" ++ toString index ++ "]"

def functionPlace (f : Func) : String := "function %" ++ f.name

namespace Structure

def definitions (f : Func) : List Definition :=
  f.blocks.zipIdx.flatMap fun (bb, b) =>
    bb.params.map (fun p => ⟨p.id, p.ty, b, none, bb.label⟩) ++
    bb.insts.zipIdx.flatMap fun (inst, i) =>
      match inst.result with
      | some id => [⟨id, inst.ty, b, some i, instPlace bb.label i⟩]
      | none => []

def entryViolations (f : Func) (entry : Block) : List Violation :=
  let params := f.signature.params
  if entry.params.length ≠ params.length then
    [⟨entry.label, "", "entry block has " ++ toString entry.params.length ++
      " parameters but the signature has " ++ toString params.length⟩]
  else
    (entry.params.zip params).zipIdx.flatMap fun ((p, ty), i) =>
      complainUnless (p.ty == ty)
        ⟨entry.label, "", "entry parameter " ++ toString i ++ " has type " ++ p.ty.name ++
          ", signature expects " ++ ty.name⟩

def labelViolations (seen : List String) : List Block → List Violation
  | [] => []
  | bb :: rest =>
    complainUnless (!seen.contains bb.label) ⟨bb.label, "", "duplicate block label"⟩ ++
      labelViolations (bb.label :: seen) rest

def definitionViolations (f : Func) (seen : List Nat) : List Definition → List Violation
  | [] => []
  | d :: rest =>
    let name := valueName d.value
    if f.numValues ≤ d.value then
      ⟨d.place, "", "value " ++ name ++ " is not allocated"⟩ ::
        definitionViolations f seen rest
    else if seen.contains d.value then
      ⟨d.place, "", "value " ++ name ++ " is defined more than once"⟩ ::
        definitionViolations f seen rest
    else
      complainUnless (f.valueType d.value == d.ty)
        ⟨d.place, "", name ++ " is declared " ++ (f.valueType d.value).name ++
          " but defined as " ++ d.ty.name⟩ ++
        definitionViolations f (d.value :: seen) rest

def typeOf (f : Func) (v : Value) (hint : Ty) : Ty :=
  match v with
  | .temp id => f.valueType id
  | .int _ => if hint.isInt || hint.isRef then hint else .i64
  | .bool _ => .b1
  | .float _ => .f64

def expectTy (f : Func) (v : Value) (expected : Ty) (what : String) : List String :=
  let actual := typeOf f v expected
  complainUnless (actual == expected)
    (what ++ " has type " ++ actual.name ++ ", expected " ++ expected.name)

def expectInt (f : Func) (v : Value) (what : String) : List String :=
  let actual := typeOf f v .i64
  complainUnless actual.isInt (what ++ " must be an integer, got " ++ actual.name)

def expectAddress (f : Func) (v : Value) : List String :=
  let actual := typeOf f v .i64
  complainUnless (actual == .i64 || actual.isRef)
    ("address must be i64 or r64, got " ++ actual.name)

def shapeMessages (inst : Inst) : List String :=
  let info := inst.op.info
  let n := inst.operands.length
  complainUnless
    (info.minOperands ≤ n &&
      (info.maxOperands == variadicOperandCount || n ≤ info.maxOperands))
    "wrong number of operands" ++
  (match info.result, inst.result with
    | .one, none => ["missing result"]
    | .none, some _ => ["instruction must not produce a result"]
    | .one, some _ | .optional, some _ =>
      complainUnless (!inst.ty.isVoid) "result must not be void"
    | _, none => []) ++
  complainUnless (inst.targets.length == info.successors) "wrong number of branch targets"

def firstOperand (inst : Inst) (check : Value → List String) : List String :=
  match inst.operands with
  | v :: _ => check v
  | [] => []

def twoOperands (inst : Inst) (check : Value → Value → List String) : List String :=
  match inst.operands with
  | [a, b] => check a b
  | _ => []

def isIntConst : Value → Bool
  | .int _ => true
  | _ => false

def isBoolConst : Value → Bool
  | .bool _ => true
  | _ => false

def compareMessages (f : Func) (inst : Inst) : List String :=
  twoOperands inst fun a b =>
    let lhs := typeOf f a (typeOf f b .i64)
    if lhs.isInt || lhs.isRef then expectTy f b lhs "rhs"
    else ["comparison operands must be integers or references"]

def returnMessages (f : Func) (inst : Inst) : List String :=
  let rets := f.signature.returns
  if inst.operands.length ≠ rets.length then
    ["return has " ++ toString inst.operands.length ++ " values but the signature has " ++
      toString rets.length]
  else (inst.operands.zip rets).flatMap fun (v, ty) => expectTy f v ty "return value"

def typeMessages (f : Func) (inst : Inst) : List String :=
  match inst.op with
  | .iconst =>
    firstOperand inst (fun v =>
      complainUnless (isIntConst v) "iconst operand must be an integer literal") ++
    complainUnless (inst.ty.isInt || inst.ty.isRef)
      "iconst must produce an integer or reference"
  | .bconst =>
    firstOperand inst (fun v =>
      complainUnless (isBoolConst v) "bconst operand must be a boolean literal") ++
    complainUnless (inst.ty == .b1) "bconst must produce b1"
  | .fconst =>
    firstOperand inst (fun v =>
      complainUnless v.isFloatConst "fconst operand must be a float literal") ++
    complainUnless (inst.ty == .f64) "fconst must produce f64"
  | .copy => firstOperand inst fun v => expectTy f v inst.ty "copy operand"
  | .iadd | .isub | .imul | .sdiv | .udiv | .srem | .urem | .band | .bor | .bxor =>
    if inst.ty.isInt then
      twoOperands inst fun a b => expectTy f a inst.ty "lhs" ++ expectTy f b inst.ty "rhs"
    else ["integer arithmetic must produce an integer"]
  | .ishl | .ushr | .sshr =>
    if inst.ty.isInt then
      twoOperands inst fun a b =>
        expectTy f a inst.ty "shifted value" ++ expectInt f b "shift amount"
    else ["shift must produce an integer"]
  | .icmp => complainUnless (inst.ty == .b1) "icmp must produce b1" ++ compareMessages f inst
  | .brIcmp => compareMessages f inst
  | .fadd | .fsub | .fmul | .fdiv =>
    complainUnless (inst.ty == .f64) "float arithmetic must produce f64" ++
    inst.operands.flatMap fun v => expectTy f v .f64 "operand"
  | .fcmp =>
    complainUnless (inst.ty == .b1) "fcmp must produce b1" ++
    inst.operands.flatMap fun v => expectTy f v .f64 "operand"
  | .select =>
    match inst.operands with
    | [c, a, b] =>
      expectTy f c .b1 "condition" ++ expectTy f a inst.ty "true value" ++
        expectTy f b inst.ty "false value"
    | _ => []
  | .sextend | .uextend =>
    complainUnless (inst.ty == .i64) "extension must produce i64" ++
    firstOperand inst fun v => expectTy f v .i32 "operand"
  | .ireduce =>
    complainUnless (inst.ty == .i32) "ireduce must produce i32" ++
    firstOperand inst fun v => expectTy f v .i64 "operand"
  | .fcvtFromSint =>
    complainUnless (inst.ty == .f64) "fcvt_from_sint must produce f64" ++
    firstOperand inst fun v => expectInt f v "operand"
  | .fcvtToSint =>
    complainUnless inst.ty.isInt "fcvt_to_sint must produce an integer" ++
    firstOperand inst fun v => expectTy f v .f64 "operand"
  | .load => firstOperand inst (expectAddress f)
  | .store =>
    twoOperands inst fun v addr => expectTy f v inst.ty "stored value" ++ expectAddress f addr
  | .call => complainUnless (!inst.callee.isEmpty) "missing callee symbol"
  | .funcAddr =>
    complainUnless (!inst.callee.isEmpty) "missing callee symbol" ++
    complainUnless (inst.ty == .i64) "func_addr must produce i64"
  | .trapnz | .brif =>
    firstOperand inst fun v =>
      let ty := typeOf f v .i64
      complainUnless (ty.isBool || ty.isInt) "condition must be b1 or an integer"
  | .ret => returnMessages f inst
  | .jump | .trap | .prologue => []

def edgeMessages (f : Func) (label : String) (args : List Value) : List String :=
  match f.findBlock? label with
  | none => ["branch to unknown block " ++ label]
  | some t =>
    let params := (f.block t).params
    complainUnless (t != 0) "branch to the entry block" ++
    (if args.length ≠ params.length then
      ["passes " ++ toString args.length ++ " arguments to " ++ label ++ " which takes " ++
        toString params.length]
    else (args.zip params).flatMap fun (v, p) => expectTy f v p.ty "branch argument")

def branchMessages (f : Func) (inst : Inst) : List String :=
  if inst.op.info.successors = 0 && inst.targets.isEmpty then []
  else if inst.targetArgs.length ≠ inst.targets.length then
    ["branch argument lists do not match targets"]
  else (inst.targets.zip inst.targetArgs).flatMap fun (label, args) => edgeMessages f label args

def reachesUse (t : DomTree) (d : Definition) (b i : Nat) : Bool :=
  if d.block == b then
    match d.index with
    | none => true
    | some k => k < i
  else t.dominates d.block b

def useMessages (f : Func) (t : DomTree) (defs : List Definition) (b i : Nat) (v : Value) :
    List String :=
  match v with
  | .temp id =>
    match if id < f.numValues then defs.find? (·.value == id) else none with
    | none => ["use of undefined value " ++ valueName id]
    | some d =>
      complainUnless (!t.isReachable b || reachesUse t d b i)
        ("use of " ++ valueName id ++ " is not dominated by its definition")
  | _ => []

def placeMessages (b i : Nat) (last : Bool) (inst : Inst) : List String :=
  complainUnless (!inst.isTerminator || last) "terminator before the end of the block" ++
  complainUnless (!last || inst.isTerminator) "block does not end with a terminator" ++
  complainUnless (inst.op != .prologue || (b == 0 && i == 0))
    "prologue must be the first instruction of the entry block"

def instMessages (f : Func) (t : DomTree) (defs : List Definition) (b i : Nat) (last : Bool)
    (inst : Inst) : List String :=
  placeMessages b i last inst ++ shapeMessages inst ++ typeMessages f inst ++
    branchMessages f inst ++ inst.uses.flatMap (useMessages f t defs b i)

def blockViolations (f : Func) (t : DomTree) (defs : List Definition) (b : Nat) (bb : Block) :
    List Violation :=
  if bb.insts.isEmpty then [⟨bb.label, "", "block is empty"⟩]
  else
    bb.insts.zipIdx.flatMap fun (inst, i) =>
      (instMessages f t defs b i (i + 1 == bb.insts.length) inst).map
        fun message => ⟨instPlace bb.label i, inst.text, message⟩

end Structure

open Structure in
def verifyFunction (f : Func) : List Violation :=
  match f.blocks with
  | [] => [⟨functionPlace f, "", "function has no blocks"⟩]
  | entry :: _ =>
    let tree := DomTree.ofFunc f (FlowGraph.ofFunc f)
    let defs := definitions f
    entryViolations f entry ++ labelViolations [] f.blocks ++ definitionViolations f [] defs ++
      f.blocks.zipIdx.flatMap fun (bb, b) => blockViolations f tree defs b bb

end SsaCodegen
