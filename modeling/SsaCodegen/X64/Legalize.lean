import SsaCodegen.Failure
import SsaCodegen.Ir.Printer
import SsaCodegen.X64.Recipe
/-! Legalization: a function is transformed until every instruction has an encoding.
Float literals move into fconst instructions and the constant pool, a float select
becomes a branch to two blocks that jump to a join block, and a conditional edge
with arguments goes through a block of its own. -/
namespace SsaCodegen.X64
namespace Legalize

def checkSignature (s : Signature) : Except Failure Unit :=
  if !fitsArgRegs s.params then .error (.stackArguments s)
  else if !fitsReturnRegs s.returns then .error (.tooManyReturns s)
  else .ok ()

def liftFloats (pos : SourcePos) : Nat → List Value → List Inst × List Value × Nat
  | next, [] => ([], [], next)
  | next, v :: rest =>
    if v.isFloatConst then
      let (consts, rest, after) := liftFloats pos (next + 1) rest
      ({ op := .fconst, ty := .f64, operands := [v], pos := pos, result := some next } :: consts,
        .temp next :: rest, after)
    else
      let (consts, rest, after) := liftFloats pos next rest
      (consts, v :: rest, after)

def liftFloatLists (pos : SourcePos) :
    Nat → List (List Value) → List Inst × List (List Value) × Nat
  | next, [] => ([], [], next)
  | next, args :: rest =>
    let (consts, args, next) := liftFloats pos next args
    let (more, rest, next) := liftFloatLists pos next rest
    (consts ++ more, args :: rest, next)

def liftInst (next : Nat) (inst : Inst) : List Inst × Nat :=
  if inst.op == .fconst then ([inst], next)
  else
    let (consts, operands, next) := liftFloats inst.pos next inst.operands
    let (more, targetArgs, next) := liftFloatLists inst.pos next inst.targetArgs
    (consts ++ more ++ [{ inst with operands := operands, targetArgs := targetArgs }], next)

def liftInsts : Nat → List Inst → List Inst × Nat
  | next, [] => ([], next)
  | next, inst :: rest =>
    let (now, next) := liftInst next inst
    let (later, next) := liftInsts next rest
    (now ++ later, next)

def liftBlocks : Nat → List Block → List Block × Nat
  | next, [] => ([], next)
  | next, bb :: rest =>
    let (insts, next) := liftInsts next bb.insts
    let (later, next) := liftBlocks next rest
    ({ bb with insts := insts } :: later, next)

def materializeFloats (f : Func) : Func :=
  let (blocks, next) := liftBlocks f.numValues f.blocks
  { f with
    blocks := blocks
    valueTypes := f.valueTypes ++ List.replicate (next - f.numValues) .f64 }

def isFloatSelect (inst : Inst) : Bool := inst.op == .select && inst.ty.isFloat

def splitAtSelects (used : List String) (current : Block) :
    List Inst → List Block × List String
  | [] => ([current], used)
  | inst :: rest =>
    if isFloatSelect inst then
      let stem := current.label
      let join := freshLabel used (stem ++ ".join")
      let used := used ++ [join]
      let onFalse := freshLabel used (stem ++ ".else")
      let used := used ++ [onFalse]
      let onTrue := freshLabel used (stem ++ ".then")
      let used := used ++ [onTrue]
      let branch : Inst :=
        { op := .brif, operands := [inst.operand 0], targets := [onTrue, onFalse],
          targetArgs := [[], []], pos := inst.pos }
      let params := inst.result.toList.map fun id => ⟨id, inst.ty⟩
      let (after, used) := splitAtSelects used ⟨join, params, []⟩ rest
      ({ current with insts := current.insts ++ [branch] } ::
        ⟨onTrue, [], [jumpTo join [inst.operand 1] inst.pos]⟩ ::
        ⟨onFalse, [], [jumpTo join [inst.operand 2] inst.pos]⟩ :: after, used)
    else splitAtSelects used { current with insts := current.insts ++ [inst] } rest

def expandSelectsFrom (used : List String) : List Block → List Block
  | [] => []
  | bb :: rest =>
    let (now, used) := splitAtSelects used { bb with insts := [] } bb.insts
    now ++ expandSelectsFrom used rest

def expandFloatSelects (f : Func) : Func :=
  { f with blocks := expandSelectsFrom f.labels f.blocks }

structure SplitEdges where
  targets : List String
  targetArgs : List (List Value)
  blocks : List Block
  used : List String

def splitEdges (used : List String) (stem : String) (pos : SourcePos) :
    List String → List (List Value) → SplitEdges
  | [], args => ⟨[], args, [], used⟩
  | targets, [] => ⟨targets, [], [], used⟩
  | target :: targets, args :: rest =>
    let later := splitEdges used stem pos targets rest
    if args.isEmpty then
      { later with targets := target :: later.targets, targetArgs := args :: later.targetArgs }
    else
      let label := freshLabel later.used (stem ++ ".edge")
      ⟨label :: later.targets, [] :: later.targetArgs,
        ⟨label, [], [jumpTo target args pos]⟩ :: later.blocks, later.used ++ [label]⟩

def isConditional (op : Opcode) : Bool := op == .brif || op == .brIcmp

def splitBlockEdges (used : List String) (bb : Block) : List Block × List String :=
  match bb.insts.getLast? with
  | some branch =>
    if isConditional branch.op then
      let split := splitEdges used bb.label branch.pos branch.targets branch.targetArgs
      let branch := { branch with targets := split.targets, targetArgs := split.targetArgs }
      ({ bb with insts := bb.insts.dropLast ++ [branch] } :: split.blocks, split.used)
    else ([bb], used)
  | none => ([bb], used)

def splitEdgesFrom (used : List String) : List Block → List Block
  | [] => []
  | bb :: rest =>
    let (now, used) := splitBlockEdges used bb
    now ++ splitEdgesFrom used rest

def splitArgumentEdges (f : Func) : Func :=
  { f with blocks := splitEdgesFrom f.labels f.blocks }

def internInst (pool : List (BitVec 64)) (inst : Inst) : Inst × List (BitVec 64) :=
  match inst.op, inst.operands with
  | .fconst, v :: _ =>
    let (index, pool) := internConstant pool v.floatBits
    ({ inst with imm := index }, pool)
  | _, _ => (inst, pool)

def internInsts (pool : List (BitVec 64)) : List Inst → List Inst × List (BitVec 64)
  | [] => ([], pool)
  | inst :: rest =>
    let (inst, pool) := internInst pool inst
    let (rest, pool) := internInsts pool rest
    (inst :: rest, pool)

def internBlocks (pool : List (BitVec 64)) : List Block → List Block × List (BitVec 64)
  | [] => ([], pool)
  | bb :: rest =>
    let (insts, pool) := internInsts pool bb.insts
    let (rest, pool) := internBlocks pool rest
    ({ bb with insts := insts } :: rest, pool)

def internConstants (f : Func) : Func :=
  let (blocks, pool) := internBlocks f.constants f.blocks
  { f with blocks := blocks, constants := pool }

def encodeInsts (f : Func) : List Inst → List Inst × Option Inst
  | [] => ([], none)
  | inst :: rest =>
    match encode? f inst with
    | none => (inst :: rest, some inst)
    | some enc =>
      let (rest, failed) := encodeInsts f rest
      ({ inst with enc := enc } :: rest, failed)

def encodeBlocks (f : Func) : List Block → List Block × Except Failure Unit
  | [] => ([], .ok ())
  | bb :: rest =>
    let (insts, failed) := encodeInsts f bb.insts
    let bb := { bb with insts := insts }
    match failed with
    | some inst => (bb :: rest, .error (.unencodable inst.text bb.label))
    | none =>
      let (rest, result) := encodeBlocks f rest
      (bb :: rest, result)

end Legalize

open Legalize in
/-- Legalizes a function. A failure leaves what was done until then; only a
success marks the layout as changed, if blocks were added. -/
def legalize (f : Func) : Func × Except Failure Unit :=
  match checkSignature f.signature with
  | .error e => (f, .error e)
  | .ok () =>
    let g := internConstants (splitArgumentEdges (expandFloatSelects (materializeFloats f)))
    let (blocks, result) := encodeBlocks g g.blocks
    let h := { g with blocks := blocks }
    match result with
    | .error e => (h, .error e)
    | .ok () =>
      (if h.blocks.length = f.blocks.length then h else h.noteLayoutChange, .ok ())

end SsaCodegen.X64
