import SsaCodegen.X64.Layout
/-! Sizes of code. An instruction is as long wherever it stands and wherever the blocks
and constants it names are, so that measuring it alone, at offset zero and with offsets
that are still provisional, gives the size it has in the final code. -/
namespace SsaCodegen.X64

theorem lengthBytes (a b : Nat) (i : MachineInst) : (i.bytes a).length = (i.bytes b).length := by
  cases i with
  | load dst base disp width => cases width <;> rfl
  | store base disp src width => cases width <;> rfl
  | movsdRip dst target => simp [MachineInst.bytes, lengthLittleEndian]
  | _ => rfl

theorem bytesSome (offset : Nat) (i : MachineInst) : i.bytes offset ≠ [] := by
  cases i with
  | load dst base disp width => cases width <;> simp [MachineInst.bytes, Encode.opcode]
  | store base disp src width => cases width <;> simp [MachineInst.bytes, Encode.opcode]
  | signExtendAccumulator wide => cases wide <;> simp [MachineInst.bytes, Encode.opcode]
  | movsdRip dst target => simp [MachineInst.bytes, Encode.ripHead, Encode.opcode]
  | _ => simp [MachineInst.bytes, Encode.opcode]

namespace Asm

def size (a : Asm) : Nat := (a.emission 0).size

theorem sizeEmission (offset : Nat) (a : Asm) : (a.emission offset).size = a.size := by
  cases a with
  | inst i => exact lengthBytes offset 0 i
  | jump near target => cases near <;> rfl
  | jumpIf cond near target => cases near <;> rfl
  | trapSite code pos => rfl
  | stackMap slots frameOffsets => rfl

def sizes : List Asm → Nat
  | [] => 0
  | a :: rest => a.size + sizes rest

theorem sizesAppend (a b : List Asm) : sizes (a ++ b) = sizes a + sizes b := by
  induction a with
  | nil => simp [sizes]
  | cons x rest ih => simp [sizes, ih, Nat.add_assoc]

theorem sizesOfMap {a b : List Asm} (same : a.map size = b.map size) : sizes a = sizes b := by
  induction a generalizing b with
  | nil => cases b with
    | nil => rfl
    | cons y ys => cases same
  | cons x xs ih => cases b with
    | nil => cases same
    | cons y ys =>
      simp only [List.map_cons, List.cons.injEq] at same
      simp only [sizes, same.1, ih same.2]

end Asm

theorem sizeAssemble (offset : Nat) (items : List Asm) : (assemble offset items).size = Asm.sizes items := by
  induction items generalizing offset with
  | nil => rfl
  | cons a rest ih => simp [assemble, Asm.sizes, Asm.sizeEmission, ih]

structure SameHeaders (f g : Func) : Prop where
  values : f.valueTypes = g.valueTypes
  locations : f.locations = g.locations
  slots : f.stackSlots = g.stackSlots
  frame : f.frame = g.frame
  constants : f.constants = g.constants
  labels : f.blocks.map Block.label = g.blocks.map Block.label
  params : f.blocks.map Block.params = g.blocks.map Block.params

namespace SameHeaders

theorem trans {f g h : Func} (a : SameHeaders f g) (b : SameHeaders g h) : SameHeaders f h :=
  ⟨a.values.trans b.values, a.locations.trans b.locations, a.slots.trans b.slots,
    a.frame.trans b.frame, a.constants.trans b.constants, a.labels.trans b.labels,
    a.params.trans b.params⟩

theorem findBlock? {f g : Func} (same : SameHeaders f g) (label : String) :
    f.findBlock? label = g.findBlock? label := by
  have byLabel (h : Func) : h.findBlock? label = (h.blocks.map Block.label).findIdx? (· == label) := by
    simp [Func.findBlock?, List.findIdx?_map, Function.comp_def]
  rw [byLabel, byLabel, same.labels]

theorem blockParams {f g : Func} (same : SameHeaders f g) (b : Nat) :
    (f.block b).params = (g.block b).params := by
  have byIndex (h : Func) : (h.block b).params = ((h.blocks.map Block.params)[b]?).getD [] := by
    simp only [Func.block, List.getD_eq_getElem?_getD, List.getElem?_map]
    cases h.blocks[b]? <;> rfl
  rw [byIndex, byIndex, same.params]

end SameHeaders

section
variable {f g : Func}

theorem sizesJump (form : BranchForm) (label : String) :
    (Lower.jump f form label).map Asm.size = (Lower.jump g form label).map Asm.size := by
  cases form <;> rfl

theorem sizesBranch (inst : Inst) (cond : Cond) :
    (Lower.branch f inst cond).map Asm.size = (Lower.branch g inst cond).map Asm.size := by
  have taken : (Lower.jumpIf f cond (inst.enc.form .taken) (inst.target 0)).map Asm.size =
      (Lower.jumpIf g cond (inst.enc.form .taken) (inst.target 0)).map Asm.size := by
    simp only [Lower.jumpIf]
    cases inst.enc.form .taken == BranchForm.near <;> rfl
  simp only [Lower.branch, List.map_append, taken, sizesJump (f := f) (g := g)]

theorem sizesFloatConst (same : SameHeaders f g) (inst : Inst) :
    (Lower.floatConst f inst).map Asm.size = (Lower.floatConst g inst).map Asm.size := by
  have rip (dst : Xmm) (a b : Nat) :
      (Asm.inst (.movsdRip dst a)).size = (Asm.inst (.movsdRip dst b)).size := by
    simp [Asm.size, Asm.emission, Asm.resolve, MachineInst.emission, MachineInst.bytes,
      Emission.size, lengthLittleEndian]
  have store : Lower.storeXmm f inst (xmm 0) = Lower.storeXmm g inst (xmm 0) := by
    simp only [Lower.storeXmm, Lower.resultLocation, Lower.storeLocation, Lower.storeSlot,
      Lower.slotDisp, Lower.slotOffset, Func.location, same.locations, same.slots]
  have place : Lower.resultLocation f inst = Lower.resultLocation g inst := by
    simp only [Lower.resultLocation, Func.location, same.locations]
  simp only [Lower.floatConst, place, store]
  split
  · exact congrArg (· :: []) (rip _ _ _)
  · exact congrArg (· :: _) (rip _ _ _)

theorem loweredSame (same : SameHeaders f g) (inst : Inst) :
    Lower.parallelMove f inst.operands = Lower.parallelMove g inst.operands ∧
    Lower.testCondition f inst = Lower.testCondition g inst ∧
    Lower.compare f inst = Lower.compare g inst := by
  obtain ⟨values, locations, slots, frame, constants, -, -⟩ := same
  cases f
  cases g
  cases values
  cases locations
  cases slots
  exact ⟨rfl, rfl, rfl⟩

theorem prologueSame (same : SameHeaders f g) : Lower.prologue f = Lower.prologue g := by
  have copies : Lower.entryCopies f (f.block 0) = Lower.entryCopies g (g.block 0) := by
    have offset : f.location = g.location := funext fun id => by
      simp only [Func.location, same.locations]
    simp only [Lower.entryCopies, same.blockParams, offset]
  have moves (cs : List Copy) : Lower.lowerMoves f cs = Lower.lowerMoves g cs := by
    obtain ⟨-, -, slots, -, -, -, -⟩ := same
    cases f
    cases g
    cases slots
    rfl
  simp only [Lower.prologue, same.frame, copies, moves]

theorem sizesJumpInst (same : SameHeaders f g) (inst : Inst) :
    (Lower.jumpInst f inst).map Asm.size = (Lower.jumpInst g inst).map Asm.size := by
  have moves (args : List Value) (dests : List Location) :
      Lower.parallelMove f args dests = Lower.parallelMove g args dests :=
    congrFun (loweredSame same { operands := args }).1 dests
  have params (t : Nat) : (f.block t).params.map (fun p => f.location p.id) =
      (g.block t).params.map (fun p => g.location p.id) := by
    simp only [same.blockParams, Func.location, same.locations]
  simp only [Lower.jumpInst, List.map_append, sizesJump (f := f) (g := g), same.findBlock?, params,
    moves]

theorem sizesLowerInst (same : SameHeaders f g) (inst : Inst) :
    (lowerInst f inst).map Asm.size = (lowerInst g inst).map Asm.size := by
  unfold lowerInst
  cases inst.enc.recipe? with
  | none => rfl
  | some recipe =>
    cases recipe with
    | fconst => exact sizesFloatConst same inst
    | prologue => exact congrArg (List.map Asm.size) (prologueSame same)
    | jump => exact sizesJumpInst same inst
    | brif =>
      simp only [List.map_append, (loweredSame same inst).2.1, sizesBranch (f := f) (g := g)]
    | brIcmp =>
      simp only [List.map_append, (loweredSame same inst).2.2, sizesBranch (f := f) (g := g)]
    | _ =>
      -- the other recipes read nothing but types, locations, slots and the frame
      obtain ⟨values, locations, slots, frame, constants, -, -⟩ := same
      cases f
      cases g
      cases values
      cases locations
      cases slots
      cases frame
      rfl

theorem instructionSizeSame (same : SameHeaders f g) (inst : Inst) :
    instructionSize f inst = instructionSize g inst := by
  simp only [instructionSize, sizeAssemble]
  exact Asm.sizesOfMap (sizesLowerInst same inst)

theorem blockSizeSame (same : SameHeaders f g) (bb : Block) :
    Layout.blockSize f bb = Layout.blockSize g bb := by
  simp only [Layout.blockSize, instructionSizeSame same]

end
end SsaCodegen.X64
