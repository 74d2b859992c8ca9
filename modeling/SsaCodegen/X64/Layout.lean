import SsaCodegen.Failure
import SsaCodegen.X64.Lower
import SsaCodegen.X64.Target
/-! Code layout. Branches start in their short form, and an edge to the next block
falls through. Blocks are placed one after another, branches whose displacement does
not fit a byte are widened, and this repeats until none is. The constant pool follows
the code, aligned to eight bytes. -/
namespace SsaCodegen.X64
namespace Layout

def poolAlignment : Nat := 8

def initialForm (next : Option String) (label : String) : BranchForm :=
  if next == some label then .fallthrough else .short

def initBranch (next : Option String) (inst : Inst) : Inst :=
  if !inst.op.isBranch then inst
  else
    match inst.enc.recipe? with
    | some .jump =>
      { inst with enc := inst.enc.withForm .taken (initialForm next (inst.target 0)) }
    | some .brif | some .brIcmp =>
      { inst with
        enc := (inst.enc.withForm .taken .short).withForm .other
          (initialForm next (inst.target 1)) }
    | _ => inst

def initBlocks : List Block → List Block
  | [] => []
  | bb :: rest =>
    bb.mapInsts (initBranch (rest.head?.map Block.label)) :: initBlocks rest

def blockSize (f : Func) (bb : Block) : Nat :=
  bb.insts.foldr (fun inst size => instructionSize f inst + size) 0

/-- Offsets of blocks of given sizes from `offset` on, and where they end. A block that
would start beyond the limit stops the placement; it and those after it keep their
old offsets. -/
def placeBlocks (limit : Nat) : Nat → List Nat → List Nat → List Nat × Option Nat
  | offset, [], _ => ([], some offset)
  | offset, size :: sizes, old =>
    if limit < offset then (old, none)
    else
      let (rest, codeEnd) := placeBlocks limit (offset + size) sizes old.tail
      (offset :: rest, codeEnd)

def tooFar (f : Func) (inst : Inst) (edge : Edge) (label : String) (branchEnd : Int) : Bool :=
  inst.enc.form edge == .short &&
    match (f.findBlock? label).bind (f.blockOffsets[·]?) with
    | some target => !fitsInt8 ((target : Int) - branchEnd)
    | none => false

def widenEdge (f : Func) (edge : Edge) (label : String) (branchEnd : Int) (inst : Inst) :
    Inst :=
  if tooFar f inst edge label branchEnd then
    { inst with enc := inst.enc.withForm edge .near }
  else inst

def edgeSize : BranchForm → Nat
  | .fallthrough => 0
  | .short => 2
  | .near => 5

def widenBranch (f : Func) (instEnd : Nat) (inst : Inst) : Inst :=
  if !inst.op.isBranch then inst
  else
    match inst.enc.recipe? with
    | some .jump => widenEdge f .taken (inst.target 0) instEnd inst
    | some .brif | some .brIcmp =>
      let condEnd := (instEnd : Int) - edgeSize (inst.enc.form .other)
      widenEdge f .other (inst.target 1) instEnd
        (widenEdge f .taken (inst.target 0) condEnd inst)
    | _ => inst

def lastOffset : Nat := 4294967295

def widenInsts (f : Func) : Nat → List Inst → List Inst
  | _, [] => []
  | offset, inst :: rest =>
    let instEnd := offset + instructionSize f inst
    (if instEnd ≤ lastOffset then widenBranch f instEnd inst else inst) :: widenInsts f instEnd rest

def widenBlocks (f : Func) : Nat → List Block → List Block
  | _, [] => []
  | offset, bb :: rest =>
    { bb with insts := widenInsts f offset bb.insts } ::
      widenBlocks f (offset + blockSize f bb) rest

/-- Places and widens until nothing is widened. Each round but the last widens an edge,
so as many rounds as there are edges, and one, are enough. -/
def relax (limit : Nat) : Nat → Func → Func × Except Failure Nat
  | 0, f => (f, .error (.codeExceeds f.name limit))
  | rounds + 1, f =>
    let (offsets, codeEnd) := placeBlocks limit 0 (f.blocks.map (blockSize f)) f.blockOffsets
    let f := { f with blockOffsets := offsets }
    match codeEnd with
    | none => (f, .error (.codeExceeds f.name limit))
    | some codeEnd =>
      let blocks := widenBlocks f 0 f.blocks
      if blocks == f.blocks then (f, .ok codeEnd)
      else relax limit rounds { f with blocks := blocks }

def roundsFor (f : Func) : Nat := 2 * f.insts.length + 1

def poolOffset (constants : List (BitVec 64)) (codeEnd : Nat) : Nat :=
  if constants.isEmpty then codeEnd
  else (codeEnd + poolAlignment - 1) / poolAlignment * poolAlignment

theorem poolOffsetBehind (constants : List (BitVec 64)) (codeEnd : Nat) :
    codeEnd ≤ poolOffset constants codeEnd := by
  unfold poolOffset poolAlignment
  split <;> omega

end Layout

open Layout in
def relaxBranches (limits : Limits) (f : Func) : Func × Except Failure CodeInfo :=
  let limit := limits.functionLimit
  let start := { f with
    blocks := initBlocks f.blocks
    blockOffsets := List.replicate f.blocks.length 0 }
  let (g, result) := relax limit (roundsFor f) start
  match result with
  | .error e => (g, .error e)
  | .ok codeEnd =>
    let pool := poolOffset g.constants codeEnd
    let rodata := 8 * g.constants.length
    if limit < pool + rodata then (g, .error (.codeTooLarge g.name (pool + rodata) limit))
    else
      ({ g with constantPoolOffset := pool },
        .ok ⟨pool, 0, rodata, pool + rodata⟩)

def emitFunction (f : Func) : CodeSink :=
  let code := assemble 0 (f.insts.flatMap (lowerInst f))
  let padding :=
    if f.constants.isEmpty then []
    else List.replicate (f.constantPoolOffset - code.size) (byteOf 0xCC)
  let pool := f.constants.flatMap (littleEndian 8)
  ((((({} : CodeSink).write code).write (.ofBytes padding)).beginJumptables.beginRodata).write
    (.ofBytes pool)).finish

end SsaCodegen.X64
