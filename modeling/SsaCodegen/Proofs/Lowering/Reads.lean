import SsaCodegen.Proofs.Lowering.Checked
/-! Lowering with every read checked. An operand or an edge that an instruction does not have leaves no code either.
What verification, encoding and allocation establish of an instruction is enough for its code, whichever recipe it
has. -/
namespace SsaCodegen.X64

namespace Checked
open Lower (materialize)

section Code
variable (f : Func) (inst : Inst)

def intConst (word : BitVec 64) (wide : Bool) : Option (List Asm) := do
  let id ← inst.result
  match ← f.locations[id]? with
  | .reg n =>
    if !inst.enc.isCompact then some [.inst (.movImm64 (gprOf n) word)]
    else if word = 0 then some [.inst (.alu .xor (gprOf n) (gprOf n) false)]
    else some [materialize n word wide]
  | .slot s =>
    if inst.enc.isCompact && (!wide || fitsInt32 word.toInt) then do
      some [.inst (.storeImm32 (gprOf rbp) (← slotDisp f s) (word.setWidth 32))]
    else do some (.inst (.movImm64 (gprOf rax) word) :: (← storeSlot f .gpr s rax))
  | .unassigned => none

def floatConst : Option (List Asm) := do
  let id ← inst.result
  match ← f.locations[id]? with
  | .reg n => some [.inst (.movsdRip (xmmOf n) (Lower.poolTarget f inst))]
  | .slot s => do some (.inst (.movsdRip (xmmOf (xmm 0)) (Lower.poolTarget f inst)) :: (← storeSlot f .fpr s (xmm 0)))
  | .unassigned => none

def copy : Option (List Asm) := do
  let v ← inst.operands[0]?
  if inst.ty.isFloat then do
    let loaded ← loadXmm f (xmm 0) v
    some (loaded ++ (← storeResult f inst .fpr (xmm 0)))
  else do
    let loaded ← loadGpr f rax v inst.ty.isWide
    some (loaded ++ (← storeResult f inst .gpr rax))

def withSecond (wide : Bool) (onImm : BitVec 32 → MachineInst) (onReg : MachineInst) : Option (List Asm) :=
  match immOperand? inst 1 wide with
  | some imm => some [.inst (onImm imm)]
  | none => do
    let loaded ← loadGpr f rcx (← inst.operands[1]?) wide
    some (loaded ++ [.inst onReg])

def onAccumulator (wide : Bool) (onImm : BitVec 32 → MachineInst) (onReg : MachineInst) : Option (List Asm) := do
  let first ← loadGpr f rax (← inst.operands[0]?) wide
  let second ← withSecond f inst wide onImm onReg
  some (first ++ second)

def compare : Option (List Asm) :=
  let wide := (compareTy f inst).isWide
  onAccumulator f inst wide (fun imm => .aluImm .cmp (gprOf rax) imm wide (Lower.shortImm inst imm))
    (.alu .cmp (gprOf rax) (gprOf rcx) wide)

def alu : Option (List Asm) := do
  let wide := inst.ty.isWide
  let op := aluOpOf inst.op
  let code ← onAccumulator f inst wide (fun imm => .aluImm op (gprOf rax) imm wide (Lower.shortImm inst imm))
    (.alu op (gprOf rax) (gprOf rcx) wide)
  some (code ++ (← storeResult f inst .gpr rax))

def imul : Option (List Asm) := do
  let wide := inst.ty.isWide
  let code ← onAccumulator f inst wide
    (fun imm => .imulImm (gprOf rax) (gprOf rax) imm wide (Lower.shortImm inst imm))
    (.imul (gprOf rax) (gprOf rcx) wide)
  some (code ++ (← storeResult f inst .gpr rax))

def shift : Option (List Asm) := do
  let wide := inst.ty.isWide
  let op := shiftOpOf inst.op
  let first ← loadGpr f rax (← inst.operands[0]?) wide
  let amount ← inst.operands[1]?
  let shifted ←
    if amount.isConst then
      some [Asm.inst (.shiftImm op (gprOf rax) (byteOf (amount.intPayload.toNat % (if wide then 64 else 32))) wide)]
    else do
      let loaded ← loadGpr f rcx amount true
      some (loaded ++ [.inst (.shiftCl op (gprOf rax) wide)])
  some (first ++ shifted ++ (← storeResult f inst .gpr rax))

def div : Option (List Asm) := do
  let wide := inst.ty.isWide
  let signed := inst.op == .sdiv || inst.op == .srem
  let remainder := inst.op == .srem || inst.op == .urem
  let first ← loadGpr f rax (← inst.operands[0]?) wide
  let second ← loadGpr f rcx (← inst.operands[1]?) wide
  let stored ← storeResult f inst .gpr (if remainder then rdx else rax)
  some (first ++ second ++
    [.inst (if signed then .signExtendAccumulator wide else .alu .xor (gprOf rdx) (gprOf rdx) false),
     .trapSite .integerDivisionByZero inst.pos,
     .inst (.div signed (gprOf rcx) wide)] ++ stored)

def storeFlag : Option (List Asm) := do
  some (.inst (.movzxByte (gprOf rax) (regOf rax)) :: (← storeResult f inst .gpr rax))

def icmp : Option (List Asm) := do
  let code ← compare f inst
  some (code ++ [.inst (.setcc (condOf inst.intCond) (regOf rax))] ++ (← storeFlag f inst))

def loadFloats : Option (List Asm) := do
  let first ← loadXmm f (xmm 0) (← inst.operands[0]?)
  let second ← loadXmm f (xmm 1) (← inst.operands[1]?)
  some (first ++ second)

def fcmp : Option (List Asm) := do
  let loaded ← loadFloats f inst
  some (loaded ++ Lower.floatCompare inst.floatCond ++ (← storeFlag f inst))

def fpuArith : Option (List Asm) := do
  let loaded ← loadFloats f inst
  some (loaded ++ [.inst (.sse (sseOpOf inst.op) (xmmOf (xmm 0)) (xmmOf (xmm 1)))] ++
    (← storeResult f inst .fpr (xmm 0)))

def select : Option (List Asm) := do
  let wide := inst.ty.isWide
  let condition ← loadGpr f rcx (← inst.operands[0]?) false
  let onTrue ← loadGpr f rax (← inst.operands[1]?) wide
  let onFalse ← loadGpr f rdx (← inst.operands[2]?) wide
  some (condition ++ onTrue ++ onFalse ++
    [.inst (.test (gprOf rcx) (gprOf rcx) false), .inst (.cmov .e (gprOf rax) (gprOf rdx) true)] ++
    (← storeResult f inst .gpr rax))

def extend : Option (List Asm) := do
  let v ← inst.operands[0]?
  let signed := inst.op == .sextend
  let loaded ← loadGpr f rax v (!signed)
  some (loaded ++ [.inst (if signed then .movsxd (gprOf rax) (gprOf rax) else .movRR (gprOf rax) (gprOf rax) false)] ++
    (← storeResult f inst .gpr rax))

def cvtFromSint : Option (List Asm) := do
  let v ← inst.operands[0]?
  let wide := (operandTy f v).isWide
  let loaded ← loadGpr f rax v wide
  some (loaded ++ [.inst (.cvtsi2sd (xmmOf (xmm 0)) (gprOf rax) wide)] ++ (← storeResult f inst .fpr (xmm 0)))

def cvtToSint : Option (List Asm) := do
  let loaded ← loadXmm f (xmm 0) (← inst.operands[0]?)
  some (loaded ++ [.inst (.cvttsd2si (gprOf rax) (xmmOf (xmm 0)) inst.ty.isWide)] ++ (← storeResult f inst .gpr rax))

def load : Option (List Asm) := do
  let address ← loadGpr f rax (← inst.operands[0]?) true
  let loaded := if inst.ty.isFloat then
      MachineInst.movsdLoad (xmmOf (xmm 0)) (gprOf rax) (Lower.memDisp inst)
    else .load (gprOf rcx) (gprOf rax) (Lower.memDisp inst) (memWidthOf inst.ty)
  let stored ← if inst.ty.isFloat then storeResult f inst .fpr (xmm 0) else storeResult f inst .gpr rcx
  some (address ++ [.trapSite inst.trapCode inst.pos] ++ .inst loaded :: stored)

def store : Option (List Asm) := do
  let value ← inst.operands[0]?
  let loaded ← if inst.ty.isFloat then loadXmm f (xmm 0) value else loadGpr f rcx value inst.ty.isWide
  let address ← loadGpr f rax (← inst.operands[1]?) true
  some (loaded ++ address ++
    [.trapSite inst.trapCode inst.pos,
     .inst (if inst.ty.isFloat then .movsdStore (gprOf rax) (Lower.memDisp inst) (xmmOf (xmm 0))
       else .store (gprOf rax) (Lower.memDisp inst) (regOf rcx) (memWidthOf inst.ty))])

def call : Option (List Asm) := do
  let regs ← argRegs (inst.operands.map (operandTy f))
  let moved ← parallelMove f inst.operands (regs.map Location.reg)
  let offsets ← each (fun slot => (slotOffset f slot).map fun offset => [offset]) inst.safepointSlots
  let stored ←
    if inst.ty.isFloat then do storeResult f inst .fpr (← systemV.floatReturns[0]?)
    else do storeResult f inst .gpr (← systemV.intReturns[0]?)
  some (moved ++ (if inst.safepointSlots.isEmpty then [] else [.stackMap inst.safepointSlots offsets]) ++
    [.inst (.call inst.callee)] ++ stored)

def funcAddr : Option (List Asm) := do
  some (.inst (.movSymbol (gprOf rax) inst.callee) :: (← storeResult f inst .gpr rax))

def testCondition : Option (List Asm) := do
  let loaded ← loadGpr f rax (← inst.operands[0]?) false
  some (loaded ++ [.inst (.test (gprOf rax) (gprOf rax) false)])

def trapnz : Option (List Asm) := do
  let tested ← testCondition f inst
  some (tested ++ [.inst (.jccShort .e 2)] ++ Lower.trap inst)

def entryCopy (arg : Param × Nat) : Option (List Copy) := do
  let dst ← keyOf (← f.locations[arg.1.id]?)
  some [⟨arg.2, dst, arg.1.ty.regClass⟩]

def prologue : Option (List Asm) := do
  let entry ← f.blocks[0]?
  let sources ← argRegs (entry.params.map Param.ty)
  let copies ← each (entryCopy f) (entry.params.zip sources)
  let moved ← lowerMoves f copies
  some ([Asm.inst (.push (gprOf rbp)), .inst (.movRR (gprOf rbp) (gprOf rsp) true)] ++
    f.frame.savedRegs.map (fun r => .inst (.push (gprOf r))) ++
    (if 0 < f.frame.spillAreaSize then
      let size := BitVec.ofNat 32 f.frame.spillAreaSize
      [.inst (.aluImm .sub (gprOf rsp) size true (fitsInt8 size.toInt))]
    else []) ++ moved)

def jumpInst : Option (List Asm) := do
  let label ← inst.targets[0]?
  let target ← f.blocks[← f.findBlock? label]?
  let args ← inst.targetArgs[0]?
  let dests ← each (fun p => f.locations[p.id]?.map fun l => [l]) target.params
  let moved ← parallelMove f args dests
  some (moved ++ Lower.jump f (inst.enc.form .taken) label)

def branch (cond : Cond) : Option (List Asm) := do
  let first ← inst.targets[0]?
  let second ← inst.targets[1]?
  some (Lower.jumpIf f cond (inst.enc.form .taken) first ++ Lower.jump f (inst.enc.form .other) second)

def returned (value : Value × Nat) : Option (List Asm) :=
  let ty := operandTy f value.1
  if ty.isFloat then loadXmm f value.2 value.1 else loadGpr f value.2 value.1 ty.isWide

def ret : Option (List Asm) := do
  let regs ← returnRegs (inst.operands.map (operandTy f))
  let loaded ← each (returned f) (inst.operands.zip regs)
  some (loaded ++ Lower.epilogue f)

end Code
end Checked

open Checked in
def lowerChecked (f : Func) (inst : Inst) : Option (List Asm) :=
  match inst.enc.recipe? with
  | none => some []
  | some .iconst => do intConst f inst (← inst.operands[0]?).intPayload inst.ty.isWide
  | some .bconst => do intConst f inst (if (← inst.operands[0]?).intPayload = 0 then 0 else 1) false
  | some .fconst => floatConst f inst
  | some .copy => Checked.copy f inst
  | some .alu => alu f inst
  | some .shift => shift f inst
  | some .imul => imul f inst
  | some .div => div f inst
  | some .icmp => icmp f inst
  | some .fpuArith => fpuArith f inst
  | some .fcmp => fcmp f inst
  | some .select => select f inst
  | some .extend => extend f inst
  | some .cvtFromSint => cvtFromSint f inst
  | some .cvtToSint => cvtToSint f inst
  | some .load => load f inst
  | some .store => store f inst
  | some .call => call f inst
  | some .funcAddr => funcAddr f inst
  | some .trapnz => trapnz f inst
  | some .prologue => prologue f
  | some .trap => some (Lower.trap inst)
  | some .jump => jumpInst f inst
  | some .brif => do
    let tested ← testCondition f inst
    some (tested ++ (← branch f inst .ne))
  | some .brIcmp => do
    let compared ← compare f inst
    some (compared ++ (← branch f inst (condOf inst.intCond)))
  | some .ret => ret f inst

namespace Checked
variable {f : Func} {i : Inst}

section Values
variable (kept : ∀ id ∈ i.usedTemps, Kept f id) (stored : ∀ id, i.result = some id → Kept f id)

theorem operandRead {k : Nat} (below : k < i.operands.length) : i.operands[k]? = some (i.operand k) := by
  rw [Inst.operand, List.getD_eq_getElem?_getD, List.getElem?_eq_getElem below]
  rfl

include kept in
theorem operandKept (k id : Nat) (temp : i.operand k = .temp id) : Kept f id := by
  refine kept id ?_
  rw [Inst.operand, List.getD_eq_getElem?_getD] at temp
  cases located : i.operands[k]? with
  | none =>
    rw [located] at temp
    cases temp
  | some v =>
    rw [located] at temp
    cases temp
    exact Inst.operandUsed (List.mem_of_getElem? located)

include kept in
theorem loadOperand (k dst : Nat) (wide : Bool) :
    loadGpr f dst (i.operand k) wide = some (Lower.loadGpr f dst (i.operand k) wide) :=
  loadGprRead (operandKept kept k) dst wide

theorem targetRead {k : Nat} (below : k < i.targets.length) : i.targets[k]? = some (i.target k) := by
  rw [Inst.target, List.getD_eq_getElem?_getD, List.getElem?_eq_getElem below]
  rfl

include kept in
theorem loadFloat {k : Nat} (float : ∃ id, i.operand k = .temp id) (dst : Nat) :
    loadXmm f dst (i.operand k) = some (Lower.loadXmm f dst (i.operand k)) := by
  obtain ⟨id, temp⟩ := float
  rw [temp]
  exact loadXmmRead (operandKept kept k id temp) dst

include stored in
theorem storeGprRead (src : Nat) : storeResult f i .gpr src = some (Lower.storeGpr f i src) :=
  storeResultRead stored .gpr src

include stored in
theorem storeXmmRead (src : Nat) : storeResult f i .fpr src = some (Lower.storeXmm f i src) :=
  storeResultRead stored .fpr src

end Values

theorem floatTemp {v : Value} (float : (operandTy f v).isFloat = true) (plain : v.isFloatConst = false) :
    ∃ id, v = .temp id := by
  cases v with
  | temp id => exact ⟨id, rfl⟩
  | float bits => cases plain
  | int word | bool flag => cases float

section Instructions
variable (kept : ∀ id ∈ i.usedTemps, Kept f id) (stored : ∀ id, i.result = some id → Kept f id)

section Result
include stored

theorem intConstRead (gives : i.result.isSome = true) (word : BitVec 64) (wide : Bool) :
    intConst f i word wide = some (Lower.intConst f i word wide) := by
  obtain ⟨id, result⟩ := Option.isSome_iff_exists.mp gives
  obtain ⟨there, k, known⟩ := stored id result
  simp only [intConst, Lower.intConst, Lower.resultLocation, result, there, Option.bind_eq_bind, Option.bind_some]
  cases home : f.location id with
  | reg n =>
    dsimp only
    split
    · rfl
    · split <;> rfl
  | slot s =>
    rw [home] at known
    simp only [slotDispRead known, storeSlotRead known, Option.bind_some]
    split <;> rfl
  | unassigned =>
    rw [home] at known
    exact known.elim

theorem floatConstRead (gives : i.result.isSome = true) : floatConst f i = some (Lower.floatConst f i) := by
  obtain ⟨id, result⟩ := Option.isSome_iff_exists.mp gives
  obtain ⟨there, k, known⟩ := stored id result
  simp only [floatConst, Lower.floatConst, Lower.storeXmm, Lower.resultLocation, result, there, Option.bind_eq_bind,
    Option.bind_some]
  cases home : f.location id with
  | reg n => rfl
  | slot s =>
    rw [home] at known
    simp only [storeSlotRead known, Option.bind_some]
    rfl
  | unassigned =>
    rw [home] at known
    exact known.elim

theorem storeFlagRead : storeFlag f i = some (Lower.storeFlag f i) := by
  simp only [storeFlag, storeGprRead stored, Option.bind_eq_bind, Option.bind_some]
  rfl

theorem funcAddrRead : funcAddr f i = some (Lower.funcAddr f i) := by
  simp only [funcAddr, storeGprRead stored, Option.bind_eq_bind, Option.bind_some]
  rfl

end Result

section One
variable (one : 1 ≤ i.operands.length)
include kept one

theorem testConditionRead : testCondition f i = some (Lower.testCondition f i) := by
  simp only [testCondition, operandRead one, loadOperand kept, Option.bind_eq_bind, Option.bind_some]
  rfl

theorem trapnzRead : trapnz f i = some (Lower.trapnz f i) := by
  simp only [trapnz, testConditionRead kept one, Option.bind_eq_bind, Option.bind_some]
  rfl

include stored

theorem copyInstRead (floats : i.ty.isFloat = true → ∃ id, i.operand 0 = .temp id) :
    Checked.copy f i = some (Lower.copy f i) := by
  unfold Checked.copy Lower.copy
  simp only [operandRead one, Option.bind_eq_bind, Option.bind_some]
  cases float : i.ty.isFloat with
  | true => simp only [loadFloat kept (floats float), storeXmmRead stored, if_true, Option.bind_some]
  | false => simp only [loadOperand kept, storeGprRead stored, Bool.false_eq_true, if_false, Option.bind_some]

theorem extendRead : extend f i = some (Lower.extend f i) := by
  unfold extend Lower.extend
  simp only [operandRead one, loadOperand kept, storeGprRead stored, Option.bind_eq_bind, Option.bind_some]
  cases i.op == .sextend <;> rfl

theorem cvtFromSintRead : cvtFromSint f i = some (Lower.cvtFromSint f i) := by
  simp only [cvtFromSint, operandRead one, loadOperand kept, storeXmmRead stored, Option.bind_eq_bind,
    Option.bind_some]
  rfl

theorem cvtToSintRead (float : ∃ id, i.operand 0 = .temp id) : cvtToSint f i = some (Lower.cvtToSint f i) := by
  simp only [cvtToSint, operandRead one, loadFloat kept float, storeGprRead stored, Option.bind_eq_bind,
    Option.bind_some]
  rfl

theorem loadRead : load f i = some (Lower.load f i) := by
  unfold load Lower.load
  simp only [operandRead one, loadOperand kept, storeGprRead stored, storeXmmRead stored, Option.bind_eq_bind,
    Option.bind_some]
  cases i.ty.isFloat <;> rfl

end One

section Two
variable (two : 2 ≤ i.operands.length)
include kept two

theorem withSecondRead (wide : Bool) (onImm : BitVec 32 → MachineInst) (onReg : MachineInst) :
    withSecond f i wide onImm onReg = some (Lower.withSecond f i wide onImm onReg) := by
  unfold withSecond Lower.withSecond
  cases immOperand? i 1 wide with
  | some imm => rfl
  | none => simp only [operandRead two, loadOperand kept, Option.bind_eq_bind, Option.bind_some]

theorem onAccumulatorRead (wide : Bool) (onImm : BitVec 32 → MachineInst) (onReg : MachineInst) :
    onAccumulator f i wide onImm onReg =
      some (Lower.loadGpr f rax (i.operand 0) wide ++ Lower.withSecond f i wide onImm onReg) := by
  simp only [onAccumulator, operandRead (Nat.lt_of_succ_lt two), loadOperand kept, withSecondRead kept two,
    Option.bind_eq_bind, Option.bind_some]

theorem compareRead : compare f i = some (Lower.compare f i) := onAccumulatorRead kept two _ _ _

theorem loadFloatsRead (floats : ∀ k < 2, ∃ id, i.operand k = .temp id) :
    loadFloats f i = some (Lower.loadFloats f i) := by
  simp only [loadFloats, operandRead (Nat.lt_of_succ_lt two), operandRead two, loadFloat kept (floats 0 (by decide)),
    loadFloat kept (floats 1 (by decide)), Option.bind_eq_bind, Option.bind_some]
  rfl

theorem storeRead (floats : i.ty.isFloat = true → ∃ id, i.operand 0 = .temp id) :
    store f i = some (Lower.store f i) := by
  unfold store Lower.store
  simp only [operandRead (Nat.lt_of_succ_lt two), operandRead two, loadOperand kept, Option.bind_eq_bind,
    Option.bind_some]
  cases float : i.ty.isFloat with
  | true => simp only [loadFloat kept (floats float), if_true, Option.bind_some]
  | false => simp only [Bool.false_eq_true, if_false]

include stored

theorem aluRead : alu f i = some (Lower.alu f i) := by
  simp only [alu, onAccumulatorRead kept two, storeGprRead stored, Option.bind_eq_bind, Option.bind_some]
  rfl

theorem imulRead : imul f i = some (Lower.imul f i) := by
  simp only [imul, onAccumulatorRead kept two, storeGprRead stored, Option.bind_eq_bind, Option.bind_some]
  rfl

theorem shiftRead : shift f i = some (Lower.shift f i) := by
  unfold shift Lower.shift
  simp only [operandRead (Nat.lt_of_succ_lt two), operandRead two, loadOperand kept, storeGprRead stored,
    Option.bind_eq_bind, Option.bind_some]
  cases (i.operand 1).isConst <;> rfl

theorem divRead : div f i = some (Lower.div f i) := by
  simp only [div, operandRead (Nat.lt_of_succ_lt two), operandRead two, loadOperand kept, storeGprRead stored,
    Option.bind_eq_bind, Option.bind_some]
  rfl

theorem icmpRead : icmp f i = some (Lower.icmp f i) := by
  simp only [icmp, compareRead kept two, storeFlagRead stored, Option.bind_eq_bind, Option.bind_some]
  rfl

theorem fcmpRead (floats : ∀ k < 2, ∃ id, i.operand k = .temp id) : fcmp f i = some (Lower.fcmp f i) := by
  simp only [fcmp, loadFloatsRead kept two floats, storeFlagRead stored, Option.bind_eq_bind, Option.bind_some]
  rfl

theorem fpuArithRead (floats : ∀ k < 2, ∃ id, i.operand k = .temp id) :
    fpuArith f i = some (Lower.fpuArith f i) := by
  simp only [fpuArith, loadFloatsRead kept two floats, storeXmmRead stored, Option.bind_eq_bind, Option.bind_some]
  rfl

end Two

include kept stored in
theorem selectRead (three : 3 ≤ i.operands.length) : select f i = some (Lower.select f i) := by
  have first := Nat.lt_of_lt_of_le (by decide : 0 < 3) three
  have second := Nat.lt_of_lt_of_le (by decide : 1 < 3) three
  simp only [select, operandRead first, operandRead second, operandRead three, loadOperand kept,
    storeGprRead stored, Option.bind_eq_bind, Option.bind_some]
  rfl

theorem branchRead (two : 2 ≤ i.targets.length) (cond : Cond) : branch f i cond = some (Lower.branch f i cond) := by
  simp only [branch, targetRead (Nat.lt_of_succ_lt two), targetRead two, Option.bind_eq_bind, Option.bind_some]
  rfl

end Instructions

section Moved
variable {types : List Ty} (kept : ∀ id ∈ i.usedTemps, Kept f id)

theorem locationsRead {params : List Param} (homes : ∀ p ∈ params, Kept f p.id) :
    each (fun p => f.locations[p.id]?.map fun l => [l]) params = some (params.map fun p => f.location p.id) := by
  rw [List.map_eq_flatMap]
  exact eachSome fun p listed => by rw [(homes p listed).1, Option.map_some]

theorem argumentKnown (fits : fitsArgRegs types = true) {n : Nat} (inside : n ∈ X64.argRegs types) :
    ∃ cls, InClass f cls (.reg n) := by
  have all : ∀ n ∈ systemV.intArgs ++ systemV.floatArgs, (registerFile.class? n).isSome = true := by decide
  exact Option.isSome_iff_exists.mp (all n (memAssigned fits inside))

include kept in
theorem callRead (stored : ∀ id, i.result = some id → Kept f id)
    (fits : fitsArgRegs (i.operands.map (operandTy f)) = true)
    (slots : ∀ slot ∈ i.safepointSlots, slot < f.stackSlots.length) : call f i = some (Lower.call f i) := by
  have moved : parallelMove f i.operands ((X64.argRegs (i.operands.map (operandTy f))).map Location.reg) =
      some (Lower.parallelMove f i.operands ((X64.argRegs (i.operands.map (operandTy f))).map Location.reg)) := by
    refine parallelMoveRead (fun v listed id temp => kept id (Inst.operandUsed (temp ▸ listed))) fun l listed => ?_
    obtain ⟨n, inside, rfl⟩ := List.mem_map.mp listed
    exact argumentKnown fits inside
  have offsets : each (fun slot => (slotOffset f slot).map fun offset => [offset]) i.safepointSlots =
      some (i.safepointSlots.map (Lower.slotOffset f)) := by
    rw [List.map_eq_flatMap]
    exact eachSome fun slot listed => by rw [slotOffsetRead (slots slot listed), Option.map_some]
  have int : systemV.intReturns[0]? = some rax := rfl
  have float : systemV.floatReturns[0]? = some (xmm 0) := rfl
  unfold call Lower.call
  simp only [argRegsRead fits, moved, offsets, int, float, storeGprRead stored, storeXmmRead stored,
    Option.bind_eq_bind, Option.bind_some]
  cases i.ty.isFloat <;> rfl

include kept in
theorem jumpInstRead {b : Nat} {bb : Block} {args : List Value} (one : 1 ≤ i.targets.length)
    (found : f.findBlock? (i.target 0) = some b) (located : f.blocks[b]? = some bb) (lists : i.targetArgs = [args])
    (homes : ∀ p ∈ bb.params, Kept f p.id) : jumpInst f i = some (Lower.jumpInst f i) := by
  have moved : parallelMove f args (bb.params.map fun p => f.location p.id) =
      some (Lower.parallelMove f args (bb.params.map fun p => f.location p.id)) := by
    refine parallelMoveRead (fun v listed id temp => kept id ?_) fun l listed => ?_
    · exact Inst.argUsed (lists ▸ List.mem_cons_self) (temp ▸ listed)
    · obtain ⟨p, inside, rfl⟩ := List.mem_map.mp listed
      exact (homes p inside).2
  unfold jumpInst Lower.jumpInst
  simp only [targetRead one, found, located, lists, List.getElem?_cons_zero, locationsRead homes, moved,
    Func.blockAt located, Option.bind_eq_bind, Option.bind_some]

include kept in
theorem retRead (fits : fitsReturnRegs (i.operands.map (operandTy f)) = true)
    (literals : ∀ v ∈ i.operands, v.isFloatConst = false) : ret f i = some (Lower.ret f i) := by
  have loaded : ∀ e ∈ i.operands.zip (X64.returnRegs (i.operands.map (operandTy f))), returned f e =
      some (if (operandTy f e.1).isFloat then Lower.loadXmm f e.2 e.1
        else Lower.loadGpr f e.2 e.1 (operandTy f e.1).isWide) := by
    intro e paired
    have listed := (List.of_mem_zip paired).1
    have used : ∀ id, e.1 = .temp id → Kept f id := fun id temp => kept id (Inst.operandUsed (temp ▸ listed))
    unfold returned
    dsimp only
    split
    · rename_i float
      obtain ⟨id, temp⟩ := floatTemp float (literals e.1 listed)
      rw [temp]
      exact loadXmmRead (used id temp) _
    · exact loadGprRead used _ _
  simp only [ret, returnRegsRead fits, eachSome loaded, Option.bind_eq_bind, Option.bind_some]
  rfl

theorem prologueRead {entry : Block} (located : f.blocks[0]? = some entry)
    (fits : fitsArgRegs (entry.params.map Param.ty) = true) (homes : ∀ p ∈ entry.params, Kept f p.id) :
    prologue f = some (Lower.prologue f) := by
  have source {e : Param × Nat} (paired : e ∈ entry.params.zip (X64.argRegs (entry.params.map Param.ty))) :
      KeyThere f e.2 := by
    obtain ⟨cls, known⟩ := argumentKnown (f := f) fits (List.of_mem_zip paired).2
    exact (keyOfRead known).2
  have home {e : Param × Nat} (paired : e ∈ entry.params.zip (X64.argRegs (entry.params.map Param.ty))) :
      keyOf (f.location e.1.id) = some (locationKey (f.location e.1.id)) ∧
        KeyThere f (locationKey (f.location e.1.id)) := by
    obtain ⟨cls, known⟩ := (homes e.1 (List.of_mem_zip paired).1).2
    exact keyOfRead known
  have plain : Lower.entryCopies f entry = (entry.params.zip (X64.argRegs (entry.params.map Param.ty))).map fun e =>
      ⟨e.2, locationKey (f.location e.1.id), e.1.ty.regClass⟩ := by
    refine (List.filterMap_congr fun e paired => if_pos ?_).trans (congrFun List.filterMap_eq_map' _)
    exact (Option.ite_none_right_eq_some.mp (home paired).1).1
  have copies : each (entryCopy f) (entry.params.zip (X64.argRegs (entry.params.map Param.ty))) =
      some (Lower.entryCopies f entry) := by
    rw [plain]
    refine .trans (eachSome fun e paired => ?_) (congrArg some List.map_eq_flatMap.symm)
    simp only [entryCopy, (homes e.1 (List.of_mem_zip paired).1).1, (home paired).1, Option.bind_eq_bind,
      Option.bind_some]
  have there : ∀ c ∈ Lower.entryCopies f entry, KeyThere f c.src ∧ KeyThere f c.dst := by
    rw [plain]
    intro c inside
    obtain ⟨e, paired, rfl⟩ := List.mem_map.mp inside
    exact ⟨source paired, (home paired).2⟩
  unfold prologue Lower.prologue
  simp only [located, argRegsRead fits, copies, lowerMovesRead there, Func.blockAt located, Option.bind_eq_bind,
    Option.bind_some]

end Moved

section Floats
variable (fit : FitInst f i) (fits : Fits f i)

include fits in
theorem plainOperands (other : i.op ≠ .fconst) : ∀ v ∈ i.operands, v.isFloatConst = false := by
  intro v listed
  by_contra float
  exact other (literalsConstant fits (List.any_eq_true.mpr
    ⟨v, List.mem_append_left _ listed, Bool.not_eq_false _ ▸ float⟩))

include fits in
theorem floatOperand (other : i.op ≠ .fconst) {k : Nat} (below : k < i.operands.length)
    (typed : Structure.typeOf f (i.operand k) .f64 = .f64) : ∃ id, i.operand k = .temp id := by
  have plain := plainOperands fits other _ (List.mem_of_getElem? (operandRead below))
  cases located : i.operand k with
  | temp id => exact ⟨id, rfl⟩
  | float bits =>
    rw [located] at plain
    cases plain
  | int word | bool flag =>
    rw [located] at typed
    cases typed

include fit

theorem arithmeticTyped (op : i.op ∈ [.fadd, .fsub, .fmul, .fdiv, .fcmp]) :
    ∀ v ∈ i.operands, Structure.typeOf f v .f64 = .f64 := by
  have types := fit.types
  simp only [List.mem_cons, List.not_mem_nil, or_false] at op
  rcases op with op | op | op | op | op
  all_goals
    simp only [Structure.typeMessages, op, List.append_eq_nil_iff, List.flatMap_eq_nil_iff,
      Structure.expectTyIff] at types
    exact types.2

theorem movedTyped (op : i.op = .copy ∨ i.op = .store) (float : i.ty.isFloat = true) :
    Structure.typeOf f (i.operand 0) .f64 = .f64 := by
  have ty : i.ty = .f64 := by
    cases ty : i.ty with
    | f64 => rfl
    | _ =>
      rw [ty] at float
      cases float
  have types := fit.types
  obtain ⟨⟨least, most⟩, -, -⟩ := Structure.shapeIff.mp fit.shape
  rcases op with op | op
  · rw [op] at least
    obtain ⟨v, rest, operands⟩ := List.exists_cons_of_length_pos least
    simp only [Structure.typeMessages, op, ty, operands, Structure.firstOperand, Structure.expectTyIff] at types
    simpa only [Inst.operand, operands, List.getD_cons_zero] using types
  · rw [op] at least most
    obtain ⟨v, address, operands⟩ := List.length_eq_two.mp (Nat.le_antisymm (most.resolve_left (by decide)) least)
    simp only [Structure.typeMessages, op, ty, operands, Structure.twoOperands, List.append_eq_nil_iff,
      Structure.expectTyIff] at types
    simpa only [Inst.operand, operands, List.getD_cons_zero] using types.1

theorem convertedTyped (op : i.op = .fcvtToSint) : Structure.typeOf f (i.operand 0) .f64 = .f64 := by
  have types := fit.types
  obtain ⟨⟨least, -⟩, -, -⟩ := Structure.shapeIff.mp fit.shape
  rw [op] at least
  obtain ⟨v, rest, operands⟩ := List.exists_cons_of_length_pos least
  simp only [Structure.typeMessages, op, operands, Structure.firstOperand, List.append_eq_nil_iff,
    Structure.expectTyIff] at types
  simpa only [Inst.operand, operands, List.getD_cons_zero] using types.2

end Floats

end Checked

structure Emittable (f : Func) : Prop where
  wellFormed : WellFormed f
  located : Located registerFile f
  fitted : Fitted f
  signature : Legalize.checkSignature f.signature = .ok ()
  homes : ∀ slot, .slot slot ∈ f.locations → slot < f.stackSlots.length
  lists : ∀ i ∈ f.insts, i.op = .call → ∀ slot ∈ i.safepointSlots, slot < f.stackSlots.length

open Checked in
theorem Emittable.checked {f : Func} (ready : Emittable f) {i : Inst} (inside : i ∈ f.insts) :
    lowerChecked f i = some (lowerInst f i) := by
  have sound := (ready.wellFormed.inst inside).1
  have fits := ready.fitted i inside
  have kept : ∀ id ∈ i.usedTemps, Kept f id := fun id used =>
    keptOf ready.wellFormed ready.located (sound.defined id used)
  have stored : ∀ id, i.result = some id → Kept f id := fun id result => by
    obtain ⟨bb, there, listed⟩ := List.mem_flatMap.mp inside
    exact keptOf ready.wellFormed ready.located (Func.memDefinedIds.mpr
      ⟨bb, there, Block.memDefinedIds.mpr (.inr ⟨i, listed, result⟩)⟩)
  have gives (isPure : i.op.isPure = true) := Structure.pureResult sound.shape isPure
  have arithmetic (op : i.op ∈ [.fadd, .fsub, .fmul, .fdiv, .fcmp]) (two : 2 ≤ i.operands.length) :
      ∀ k < 2, ∃ id, i.operand k = .temp id := fun k below => by
    have there := Nat.lt_of_lt_of_le below two
    refine floatOperand fits (fun same => ?_) there
      (arithmeticTyped sound.toFitInst op _ (List.mem_of_getElem? (operandRead there)))
    simp [same] at op
  obtain ⟨⟨operands, -⟩, -, targets⟩ := Structure.shapeIff.mp sound.shape
  have able := fits.encodable
  unfold lowerChecked lowerInst
  rw [fits.recipe]
  cases op : i.op
  all_goals rw [op] at operands targets gives able
  case iconst | bconst =>
    have one : 0 < i.operands.length := operands
    simp only [Recipe.ofOpcode, operandRead one, intConstRead stored (gives rfl), Option.bind_eq_bind,
      Option.bind_some]
  case fconst => exact floatConstRead stored (gives rfl)
  case copy =>
    refine copyInstRead kept stored operands fun float => floatOperand fits (by simp [op]) operands ?_
    exact movedTyped sound.toFitInst (.inl op) float
  case iadd | isub | band | bor | bxor => exact aluRead kept stored operands
  case imul => exact imulRead kept stored operands
  case sdiv | udiv | srem | urem => exact divRead kept stored operands
  case ishl | ushr | sshr => exact shiftRead kept stored operands
  case icmp => exact icmpRead kept stored operands
  case fadd | fsub | fmul | fdiv => exact fpuArithRead kept stored operands (arithmetic (by simp [op]) operands)
  case fcmp => exact fcmpRead kept stored operands (arithmetic (by simp [op]) operands)
  case select => exact selectRead kept stored operands
  case sextend | uextend | ireduce => exact extendRead kept stored operands
  case fcvtFromSint => exact cvtFromSintRead kept stored operands
  case fcvtToSint =>
    exact cvtToSintRead kept stored operands
      (floatOperand fits (by simp [op]) operands (convertedTyped sound.toFitInst op))
  case load => exact loadRead kept stored operands
  case store =>
    refine storeRead kept operands fun float => floatOperand fits (by simp [op]) (Nat.lt_of_succ_lt operands) ?_
    exact movedTyped sound.toFitInst (.inr op) float
  case call => exact callRead kept stored able (ready.lists i inside op)
  case funcAddr => exact funcAddrRead stored
  case trapnz => exact trapnzRead kept operands
  case prologue =>
    obtain ⟨entry, rest, entered⟩ := ready.wellFormed.entry
    have there : entry ∈ f.blocks := entered.blocks ▸ List.mem_cons_self
    refine prologueRead (by rw [entered.blocks]; rfl) (entered.params ▸ signatureFits ready.signature)
      fun p listed => keptOf ready.wellFormed ready.located (Func.memDefinedIds.mpr ⟨entry, there, ?_⟩)
    exact Block.memDefinedIds.mpr (.inl (List.mem_map_of_mem listed))
  case trap => rfl
  case jump =>
    have one : i.targets.length = 1 := targets
    obtain ⟨label, named⟩ := List.length_eq_one_iff.mp one
    obtain ⟨args, lists⟩ := List.length_eq_one_iff.mp
      ((sound.lists (named ▸ List.cons_ne_nil _ _)).trans one)
    obtain ⟨bb, tail, same, -⟩ := sound.edges (label, args) (by simp [named, lists])
    have there := List.mem_of_mem_tail tail
    obtain ⟨b, located⟩ := List.getElem?_of_mem there
    refine jumpInstRead kept (Nat.le_of_eq one.symm) ?_ located lists fun p listed =>
      keptOf ready.wellFormed ready.located (Func.memDefinedIds.mpr ⟨bb, there, ?_⟩)
    · rw [Inst.target, named, List.getD_cons_zero]
      exact (congrArg f.findBlock? same).symm.trans (Func.findBlockAt ready.wellFormed.labels located)
    · exact Block.memDefinedIds.mpr (.inl (List.mem_map_of_mem listed))
  case brif =>
    have two : 2 ≤ i.targets.length := Nat.le_of_eq targets.symm
    simp only [Recipe.ofOpcode, testConditionRead kept operands, branchRead two, Option.bind_eq_bind,
      Option.bind_some]
  case brIcmp =>
    have two : 2 ≤ i.targets.length := Nat.le_of_eq targets.symm
    simp only [Recipe.ofOpcode, compareRead kept operands, branchRead two, Option.bind_eq_bind, Option.bind_some]
  case ret => exact retRead kept able (plainOperands fits (by simp [op]))

example : lowerChecked {} { op := .ret, operands := [.int 1, .int 2, .int 3], enc := .ofRecipe .ret } = none := rfl

end SsaCodegen.X64
