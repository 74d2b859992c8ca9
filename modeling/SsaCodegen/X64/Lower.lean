import SsaCodegen.X64.Assembly
import SsaCodegen.X64.ParallelCopy
import SsaCodegen.X64.Recipe
/-! The code of an instruction whose operands have locations. Operands are brought
into scratch registers, the operation is done there, and the result is stored where
it lives: rax, rcx and rdx, and xmm0 and xmm1, belong to no value. Stack slots are
addressed from rbp. -/
namespace SsaCodegen.X64

def condOf : IntCond → Cond
  | .eq => .e
  | .ne => .ne
  | .slt => .l
  | .sle => .le
  | .sgt => .g
  | .sge => .ge
  | .ult => .b
  | .ule => .be
  | .ugt => .a
  | .uge => .ae

def aluOpOf : Opcode → AluOp
  | .isub => .sub
  | .band => .and
  | .bor => .or
  | .bxor => .xor
  | _ => .add

def shiftOpOf : Opcode → ShiftOp
  | .ushr => .shr
  | .sshr => .sar
  | _ => .shl

def sseOpOf : Opcode → SseOp
  | .fsub => .sub
  | .fmul => .mul
  | .fdiv => .div
  | _ => .add

def memWidthOf : Ty → MemWidth
  | .b1 => .byte
  | .i32 => .dword
  | _ => .qword

def slotKeyBase : Nat := 64

def locationKey : Location → Nat
  | .reg n => n
  | .slot s => slotKeyBase + s
  | .unassigned => slotKeyBase

namespace Lower

def slotOffset (f : Func) (slot : Nat) : Int := (f.stackSlots[slot]?.map StackSlot.offset).getD 0

def slotDisp (f : Func) (slot : Nat) : BitVec 32 := BitVec.ofInt 32 (slotOffset f slot)

def moveGpr (dst src : Nat) : List Asm :=
  if src = dst then [] else [.inst (.movRR (gprOf dst) (gprOf src) true)]

def moveXmm (dst src : Nat) : List Asm :=
  if src = dst then [] else [.inst (.movsdRR (xmmOf dst) (xmmOf src))]

def loadSlot (f : Func) (cls : RegClass) (dst slot : Nat) : Asm :=
  match cls with
  | .gpr => .inst (.load (gprOf dst) (gprOf rbp) (slotDisp f slot) .qword)
  | .fpr => .inst (.movsdLoad (xmmOf dst) (gprOf rbp) (slotDisp f slot))

def storeSlot (f : Func) (cls : RegClass) (slot src : Nat) : Asm :=
  match cls with
  | .gpr => .inst (.store (gprOf rbp) (slotDisp f slot) (regOf src) .qword)
  | .fpr => .inst (.movsdStore (gprOf rbp) (slotDisp f slot) (xmmOf src))

def moveReg (cls : RegClass) (dst src : Nat) : List Asm :=
  match cls with
  | .gpr => moveGpr dst src
  | .fpr => moveXmm dst src

def loadLocation (f : Func) (cls : RegClass) (dst : Nat) : Location → List Asm
  | .reg n => moveReg cls dst n
  | .slot s => [loadSlot f cls dst s]
  | .unassigned => []

def storeLocation (f : Func) (cls : RegClass) (src : Nat) : Location → List Asm
  | .reg n => moveReg cls n src
  | .slot s => [storeSlot f cls s src]
  | .unassigned => []

def materialize (dst : Nat) (word : BitVec 64) (wide : Bool) : Asm :=
  if !wide || word.toNat < 0x100000000 then .inst (.movImm32 (gprOf dst) (word.setWidth 32))
  else if fitsInt32 word.toInt then .inst (.movSignedImm32 (gprOf dst) (word.setWidth 32))
  else .inst (.movImm64 (gprOf dst) word)

def loadGpr (f : Func) (dst : Nat) (v : Value) (wide : Bool) : List Asm :=
  match v with
  | .temp id => loadLocation f .gpr dst (f.location id)
  | _ => [materialize dst v.intPayload wide]

def loadXmm (f : Func) (dst : Nat) (v : Value) : List Asm :=
  loadLocation f .fpr dst (f.location v.tempId)

def resultLocation (f : Func) (inst : Inst) : Location :=
  match inst.result with
  | some id => f.location id
  | none => .unassigned

def storeGpr (f : Func) (inst : Inst) (src : Nat) : List Asm :=
  storeLocation f .gpr src (resultLocation f inst)

def storeXmm (f : Func) (inst : Inst) (src : Nat) : List Asm :=
  storeLocation f .fpr src (resultLocation f inst)

def scratchOf : RegClass → Nat
  | .gpr => rax
  | .fpr => xmm 0

def cycleTempOf : RegClass → Nat
  | .gpr => r11
  | .fpr => xmm 1

def loadKey (f : Func) (cls : RegClass) (dst key : Nat) : List Asm :=
  if slotKeyBase ≤ key then [loadSlot f cls dst (key - slotKeyBase)] else moveReg cls dst key

def storeKey (f : Func) (cls : RegClass) (key src : Nat) : List Asm :=
  if slotKeyBase ≤ key then [storeSlot f cls (key - slotKeyBase) src] else moveReg cls key src

def lowerMove (f : Func) : Move → List Asm
  | .copy cls src dst =>
    if dst < slotKeyBase then loadKey f cls dst src
    else if src < slotKeyBase then storeKey f cls dst src
    else loadKey f cls (scratchOf cls) src ++ storeKey f cls dst (scratchOf cls)
  | .toTemp cls src => loadKey f cls (cycleTempOf cls) src
  | .fromTemp cls dst => storeKey f cls dst (cycleTempOf cls)

def lowerMoves (f : Func) (copies : List Copy) : List Asm :=
  (resolveCopies copies).flatMap (lowerMove f)

def copiesInto (f : Func) (moves : List (Value × Location)) : List Copy :=
  moves.filterMap fun (v, dst) =>
    match v with
    | .temp id =>
      let src := f.location id
      if src.isAssigned then some ⟨locationKey src, locationKey dst, (f.valueType id).regClass⟩
      else none
    | _ => none

def literalInto (f : Func) (v : Value) (dst : Location) : List Asm :=
  let wide := (operandTy f v).isWide
  match dst with
  | .reg n => [materialize n v.intPayload wide]
  | .slot s => [materialize rax v.intPayload wide, storeSlot f .gpr s rax]
  | .unassigned => []

def parallelMove (f : Func) (values : List Value) (dests : List Location) : List Asm :=
  let moves := values.zip dests
  lowerMoves f (copiesInto f moves) ++
    moves.flatMap fun (v, dst) => if v.isTemp then [] else literalInto f v dst

def labelOffset (f : Func) (label : String) : Nat :=
  ((f.findBlock? label).bind (f.blockOffsets[·]?)).getD 0

def jump (f : Func) (form : BranchForm) (label : String) : List Asm :=
  match form with
  | .fallthrough => []
  | .short => [.jump false (labelOffset f label)]
  | .near => [.jump true (labelOffset f label)]

def jumpIf (f : Func) (cond : Cond) (form : BranchForm) (label : String) : List Asm :=
  [.jumpIf cond (form == .near) (labelOffset f label)]

def shortImm (inst : Inst) (imm : BitVec 32) : Bool :=
  inst.enc.isCompact && fitsInt8 imm.toInt

def withSecond (f : Func) (inst : Inst) (wide : Bool) (onImm : BitVec 32 → MachineInst)
    (onReg : MachineInst) : List Asm :=
  match immOperand? inst 1 wide with
  | some imm => [.inst (onImm imm)]
  | none => loadGpr f rcx (inst.operand 1) wide ++ [.inst onReg]

def compare (f : Func) (inst : Inst) : List Asm :=
  let wide := (compareTy f inst).isWide
  loadGpr f rax (inst.operand 0) wide ++
    withSecond f inst wide
      (fun imm => .aluImm .cmp (gprOf rax) imm wide (shortImm inst imm))
      (.alu .cmp (gprOf rax) (gprOf rcx) wide)

def epilogue (f : Func) : List Asm :=
  (if f.frame.laidOut then
    let saved := f.frame.savedRegs
    (if 0 < saved.length then
      [Asm.inst (.lea (gprOf rsp) (gprOf rbp) (BitVec.ofInt 32 (-(8 * saved.length : Nat))))]
    else if 0 < f.frame.spillAreaSize then [.inst (.movRR (gprOf rsp) (gprOf rbp) true)]
    else []) ++
    saved.reverse.map (fun r => .inst (.pop (gprOf r))) ++ [.inst (.pop (gprOf rbp))]
  else []) ++ [.inst .ret]

def intConst (f : Func) (inst : Inst) (word : BitVec 64) (wide : Bool) : List Asm :=
  match resultLocation f inst with
  | .reg n =>
    if !inst.enc.isCompact then [.inst (.movImm64 (gprOf n) word)]
    else if word = 0 then [.inst (.alu .xor (gprOf n) (gprOf n) false)]
    else [materialize n word wide]
  | .slot s =>
    if inst.enc.isCompact && (!wide || fitsInt32 word.toInt) then
      [.inst (.storeImm32 (gprOf rbp) (slotDisp f s) (word.setWidth 32))]
    else [.inst (.movImm64 (gprOf rax) word), storeSlot f .gpr s rax]
  | .unassigned => []

def poolTarget (f : Func) (inst : Inst) : Nat :=
  CodeSink.wrapSize ((f.constantPoolOffset : Int) + slotBytes * inst.imm)

def floatConst (f : Func) (inst : Inst) : List Asm :=
  match resultLocation f inst with
  | .reg n => [.inst (.movsdRip (xmmOf n) (poolTarget f inst))]
  | _ => .inst (.movsdRip (xmmOf (xmm 0)) (poolTarget f inst)) :: storeXmm f inst (xmm 0)

def copy (f : Func) (inst : Inst) : List Asm :=
  if inst.ty.isFloat then loadXmm f (xmm 0) (inst.operand 0) ++ storeXmm f inst (xmm 0)
  else loadGpr f rax (inst.operand 0) inst.ty.isWide ++ storeGpr f inst rax

def alu (f : Func) (inst : Inst) : List Asm :=
  let wide := inst.ty.isWide
  let op := aluOpOf inst.op
  loadGpr f rax (inst.operand 0) wide ++
    withSecond f inst wide
      (fun imm => .aluImm op (gprOf rax) imm wide (shortImm inst imm))
      (.alu op (gprOf rax) (gprOf rcx) wide) ++
    storeGpr f inst rax

def shift (f : Func) (inst : Inst) : List Asm :=
  let wide := inst.ty.isWide
  let op := shiftOpOf inst.op
  let amount := inst.operand 1
  loadGpr f rax (inst.operand 0) wide ++
    (if amount.isConst then
      let places := amount.intPayload.toNat % (if wide then 64 else 32)
      [.inst (.shiftImm op (gprOf rax) (byteOf places) wide)]
    else loadGpr f rcx amount true ++ [.inst (.shiftCl op (gprOf rax) wide)]) ++
    storeGpr f inst rax

def imul (f : Func) (inst : Inst) : List Asm :=
  let wide := inst.ty.isWide
  loadGpr f rax (inst.operand 0) wide ++
    withSecond f inst wide
      (fun imm => .imulImm (gprOf rax) (gprOf rax) imm wide (shortImm inst imm))
      (.imul (gprOf rax) (gprOf rcx) wide) ++
    storeGpr f inst rax

def div (f : Func) (inst : Inst) : List Asm :=
  let wide := inst.ty.isWide
  let signed := inst.op == .sdiv || inst.op == .srem
  let remainder := inst.op == .srem || inst.op == .urem
  loadGpr f rax (inst.operand 0) wide ++ loadGpr f rcx (inst.operand 1) wide ++
    [.inst (if signed then .signExtendAccumulator wide
      else .alu .xor (gprOf rdx) (gprOf rdx) false),
     .trapSite .integerDivisionByZero inst.pos,
     .inst (.div signed (gprOf rcx) wide)] ++
    storeGpr f inst (if remainder then rdx else rax)

def storeFlag (f : Func) (inst : Inst) : List Asm :=
  .inst (.movzxByte (gprOf rax) (regOf rax)) :: storeGpr f inst rax

def icmp (f : Func) (inst : Inst) : List Asm :=
  compare f inst ++ [.inst (.setcc (condOf inst.intCond) (regOf rax))] ++ storeFlag f inst

/-- Comparisons that a NaN must make false look at the parity flag, or ask for `above`
with the operands in the order in which unordered is not above. -/
def floatCompare (c : FloatCond) : List Asm :=
  let forward := Asm.inst (.ucomisd (xmmOf (xmm 0)) (xmmOf (xmm 1)))
  let swapped := Asm.inst (.ucomisd (xmmOf (xmm 1)) (xmmOf (xmm 0)))
  let flag (c : Cond) (dst : Nat) := Asm.inst (.setcc c (regOf dst))
  match c with
  | .eq => [forward, flag .e rax, flag .np rcx, .inst (.alu8 .and (gprOf rax) (gprOf rcx))]
  | .ne => [forward, flag .ne rax, flag .p rcx, .inst (.alu8 .or (gprOf rax) (gprOf rcx))]
  | .gt => [forward, flag .a rax]
  | .ge => [forward, flag .ae rax]
  | .lt => [swapped, flag .a rax]
  | .le => [swapped, flag .ae rax]
  | .uno => [forward, flag .p rax]
  | .ord => [forward, flag .np rax]

def loadFloats (f : Func) (inst : Inst) : List Asm :=
  loadXmm f (xmm 0) (inst.operand 0) ++ loadXmm f (xmm 1) (inst.operand 1)

def fcmp (f : Func) (inst : Inst) : List Asm :=
  loadFloats f inst ++ floatCompare inst.floatCond ++ storeFlag f inst

def fpuArith (f : Func) (inst : Inst) : List Asm :=
  loadFloats f inst ++
    [.inst (.sse (sseOpOf inst.op) (xmmOf (xmm 0)) (xmmOf (xmm 1)))] ++
    storeXmm f inst (xmm 0)

def select (f : Func) (inst : Inst) : List Asm :=
  let wide := inst.ty.isWide
  loadGpr f rcx (inst.operand 0) false ++ loadGpr f rax (inst.operand 1) wide ++
    loadGpr f rdx (inst.operand 2) wide ++
    [.inst (.test (gprOf rcx) (gprOf rcx) false),
     .inst (.cmov .e (gprOf rax) (gprOf rdx) true)] ++
    storeGpr f inst rax

def extend (f : Func) (inst : Inst) : List Asm :=
  (if inst.op == .sextend then
    loadGpr f rax (inst.operand 0) false ++ [.inst (.movsxd (gprOf rax) (gprOf rax))]
  else
    loadGpr f rax (inst.operand 0) true ++ [.inst (.movRR (gprOf rax) (gprOf rax) false)]) ++
    storeGpr f inst rax

def cvtFromSint (f : Func) (inst : Inst) : List Asm :=
  let wide := (operandTy f (inst.operand 0)).isWide
  loadGpr f rax (inst.operand 0) wide ++
    [.inst (.cvtsi2sd (xmmOf (xmm 0)) (gprOf rax) wide)] ++ storeXmm f inst (xmm 0)

def cvtToSint (f : Func) (inst : Inst) : List Asm :=
  loadXmm f (xmm 0) (inst.operand 0) ++
    [.inst (.cvttsd2si (gprOf rax) (xmmOf (xmm 0)) inst.ty.isWide)] ++ storeGpr f inst rax

def memDisp (inst : Inst) : BitVec 32 := BitVec.ofInt 32 inst.imm

def load (f : Func) (inst : Inst) : List Asm :=
  loadGpr f rax (inst.operand 0) true ++ [.trapSite inst.trapCode inst.pos] ++
    if inst.ty.isFloat then
      .inst (.movsdLoad (xmmOf (xmm 0)) (gprOf rax) (memDisp inst)) :: storeXmm f inst (xmm 0)
    else
      .inst (.load (gprOf rcx) (gprOf rax) (memDisp inst) (memWidthOf inst.ty)) ::
        storeGpr f inst rcx

def store (f : Func) (inst : Inst) : List Asm :=
  let value := inst.operand 0
  (if inst.ty.isFloat then loadXmm f (xmm 0) value else loadGpr f rcx value inst.ty.isWide) ++
    loadGpr f rax (inst.operand 1) true ++
    [.trapSite inst.trapCode inst.pos,
     .inst (if inst.ty.isFloat then .movsdStore (gprOf rax) (memDisp inst) (xmmOf (xmm 0))
       else .store (gprOf rax) (memDisp inst) (regOf rcx) (memWidthOf inst.ty))]

def call (f : Func) (inst : Inst) : List Asm :=
  let dests := (argRegs (inst.operands.map (operandTy f))).map Location.reg
  let slots := inst.safepointSlots
  parallelMove f inst.operands dests ++
    (if slots.isEmpty then [] else [.stackMap slots (slots.map (slotOffset f))]) ++
    [.inst (.call inst.callee)] ++
    if inst.ty.isFloat then storeXmm f inst (xmm 0) else storeGpr f inst rax

def funcAddr (f : Func) (inst : Inst) : List Asm :=
  .inst (.movSymbol (gprOf rax) inst.callee) :: storeGpr f inst rax

def testCondition (f : Func) (inst : Inst) : List Asm :=
  loadGpr f rax (inst.operand 0) false ++ [.inst (.test (gprOf rax) (gprOf rax) false)]

def trap (inst : Inst) : List Asm := [.trapSite inst.trapCode inst.pos, .inst .ud2]

def trapnz (f : Func) (inst : Inst) : List Asm :=
  testCondition f inst ++ [.inst (.jccShort .e 2)] ++ trap inst

def entryCopies (f : Func) (entry : Block) : List Copy :=
  let sources := argRegs (entry.params.map Param.ty)
  (entry.params.zip sources).filterMap fun (p, src) =>
    let dst := f.location p.id
    if dst.isAssigned then some ⟨src, locationKey dst, p.ty.regClass⟩ else none

def prologue (f : Func) : List Asm :=
  [Asm.inst (.push (gprOf rbp)), .inst (.movRR (gprOf rbp) (gprOf rsp) true)] ++
    f.frame.savedRegs.map (fun r => .inst (.push (gprOf r))) ++
    (if 0 < f.frame.spillAreaSize then
      let size := BitVec.ofNat 32 f.frame.spillAreaSize
      [.inst (.aluImm .sub (gprOf rsp) size true (fitsInt8 size.toInt))]
    else []) ++
    lowerMoves f (entryCopies f (f.block 0))

def jumpInst (f : Func) (inst : Inst) : List Asm :=
  let label := inst.target 0
  (match f.findBlock? label, inst.targetArgs with
    | some t, args :: _ => parallelMove f args ((f.block t).params.map fun p => f.location p.id)
    | _, _ => []) ++
    jump f (inst.enc.form .taken) label

def branch (f : Func) (inst : Inst) (cond : Cond) : List Asm :=
  jumpIf f cond (inst.enc.form .taken) (inst.target 0) ++
    jump f (inst.enc.form .other) (inst.target 1)

def ret (f : Func) (inst : Inst) : List Asm :=
  let regs := returnRegs (inst.operands.map (operandTy f))
  ((inst.operands.zip regs).flatMap fun (v, r) =>
    let ty := operandTy f v
    if ty.isFloat then loadXmm f r v else loadGpr f r v ty.isWide) ++ epilogue f

end Lower

open Lower in
def lowerInst (f : Func) (inst : Inst) : List Asm :=
  match inst.enc.recipe? with
  | none => []
  | some .iconst => intConst f inst (inst.operand 0).intPayload inst.ty.isWide
  | some .bconst =>
    intConst f inst (if (inst.operand 0).intPayload = 0 then 0 else 1) false
  | some .fconst => floatConst f inst
  | some .copy => Lower.copy f inst
  | some .alu => alu f inst
  | some .shift => shift f inst
  | some .imul => imul f inst
  | some .div => div f inst
  | some .icmp => icmp f inst
  | some .fpuArith => fpuArith f inst
  | some .fcmp => fcmp f inst
  | some .select => select f inst
  | some .extend => extend f inst
  | some .cvtFromSint => cvtFromSint f inst
  | some .cvtToSint => cvtToSint f inst
  | some .load => load f inst
  | some .store => store f inst
  | some .call => call f inst
  | some .funcAddr => funcAddr f inst
  | some .trapnz => trapnz f inst
  | some .prologue => prologue f
  | some .trap => trap inst
  | some .jump => jumpInst f inst
  | some .brif => testCondition f inst ++ branch f inst .ne
  | some .brIcmp => compare f inst ++ branch f inst (condOf inst.intCond)
  | some .ret => ret f inst

def instructionSize (f : Func) (inst : Inst) : Nat := (assemble 0 (lowerInst f inst)).size

end SsaCodegen.X64
