import SsaCodegen.Proofs.Layout.Placement
/-! What is reported while code is written: bytes to be filled in later, instructions at which the program may trap, and
the references that calls find in slots. Reports come in the order of the code. A list of items reports nothing unless
it calls, takes the address of a symbol, or marks what follows, and of an instruction one item at most does. -/
namespace SsaCodegen

def RelocKind.width : RelocKind → Nat
  | .callPcRel4 => 4
  | .abs8 => 8

inductive Callback where
  | reloc (site : RelocSite)
  | trap (site : TrapSite)
  | stackMap (site : StackMapSite)
  deriving DecidableEq, Repr

namespace Callback

def offset : Callback → Nat
  | reloc site => site.offset
  | trap site => site.offset
  | stackMap site => site.offset

def stop : Callback → Nat
  | reloc site => site.offset + site.kind.width
  | trap site => site.offset
  | stackMap site => site.offset

def reloc? : Callback → Option RelocSite
  | reloc site => some site
  | _ => none

def trap? : Callback → Option TrapSite
  | trap site => some site
  | _ => none

def stackMap? : Callback → Option StackMapSite
  | stackMap site => some site
  | _ => none

end Callback

namespace X64

namespace MachineInst

def Quiet : MachineInst → Prop
  | call _ | movSymbol .. => False
  | _ => True

theorem symbolBytes (offset : Nat) (dst : Gpr) (symbol : String) :
    ∃ head, head.length = 2 ∧ (movSymbol dst symbol).bytes offset = head ++ List.replicate 8 0 := by
  have marked : Encode.rexByte true (isExtended Encode.noReg) (isExtended dst) ≠ 64 := by
    simp only [Encode.rexByte, Encode.bit, if_true]
    omega
  refine ⟨Encode.rexRm true dst ++ Encode.opcode [0xB8 + low dst], ?_, rfl⟩
  simp [Encode.rexRm, Encode.rex, marked, Encode.opcode]

end MachineInst

namespace Asm

def callbacks (offset : Nat) : Asm → List Callback
  | inst i => (i.relocs offset).map .reloc
  | trapSite code pos => [.trap ⟨offset, pos, code⟩]
  | stackMap slots frameOffsets => [.stackMap ⟨offset, slots, frameOffsets⟩]
  | _ => []

def Quiet : Asm → Prop
  | inst i => i.Quiet
  | trapSite .. | stackMap .. => False
  | _ => True

@[simp] theorem quietInst {i : MachineInst} : (inst i).Quiet ↔ i.Quiet := Iff.rfl

theorem Quiet.none {a : Asm} (quiet : a.Quiet) (offset : Nat) : a.callbacks offset = [] := by
  cases a with
  | inst i =>
    cases i with
    | call | movSymbol => exact quiet.elim
    | _ => rfl
  | trapSite | stackMap => exact quiet.elim
  | _ => rfl

theorem callbacksWithin (offset : Nat) (a : Asm) : (a.callbacks offset).Pairwise (fun c d => c.stop ≤ d.offset) ∧
    ∀ c ∈ a.callbacks offset, offset ≤ c.offset ∧ c.offset ≤ c.stop ∧ c.stop ≤ offset + a.size := by
  have one {c : Callback} (within : offset ≤ c.offset ∧ c.offset ≤ c.stop ∧ c.stop ≤ offset + a.size) :
      [c].Pairwise (fun c d => c.stop ≤ d.offset) ∧
        ∀ d ∈ [c], offset ≤ d.offset ∧ d.offset ≤ d.stop ∧ d.stop ≤ offset + a.size :=
    ⟨List.pairwise_singleton .., fun d listed => List.mem_singleton.mp listed ▸ within⟩
  have absent (empty : a.callbacks offset = []) : (a.callbacks offset).Pairwise (fun c d => c.stop ≤ d.offset) ∧
      ∀ c ∈ a.callbacks offset, offset ≤ c.offset ∧ c.offset ≤ c.stop ∧ c.stop ≤ offset + a.size := by
    rw [empty]
    exact ⟨.nil, List.forall_mem_nil _⟩
  cases a with
  | inst i =>
    cases i with
    | call symbol => exact one ⟨Nat.le_add_right .., Nat.le_add_right .., Nat.le_refl (offset + 5)⟩
    | movSymbol dst symbol =>
      have size : (inst (.movSymbol dst symbol)).size = 10 := by
        obtain ⟨head, length, bytes⟩ := MachineInst.symbolBytes 0 dst symbol
        show ((MachineInst.movSymbol dst symbol).bytes 0).length = 10
        rw [bytes, List.length_append, length, List.length_replicate]
      exact one ⟨Nat.le_add_right .., Nat.le_add_right .., size ▸ Nat.le_refl (offset + 10)⟩
    | _ => exact absent rfl
  | trapSite | stackMap => exact one ⟨Nat.le_refl _, Nat.le_refl _, Nat.le_add_right ..⟩
  | _ => exact absent rfl

end Asm

def callbacks (offset : Nat) : List Asm → List Callback
  | [] => []
  | a :: rest => a.callbacks offset ++ callbacks (offset + a.size) rest

theorem callbacksAppend (offset : Nat) (a b : List Asm) :
    callbacks offset (a ++ b) = callbacks offset a ++ callbacks (offset + Asm.sizes a) b := by
  induction a generalizing offset with
  | nil => rfl
  | cons x rest ih => simp only [List.cons_append, callbacks, ih, Asm.sizes, List.append_assoc, Nat.add_assoc]

theorem callbacksAssembled (offset : Nat) (items : List Asm) :
    (callbacks offset items).filterMap Callback.reloc? = (assemble offset items).relocs ∧
    (callbacks offset items).filterMap Callback.trap? = (assemble offset items).traps ∧
    (callbacks offset items).filterMap Callback.stackMap? = (assemble offset items).stackMaps := by
  have one (offset : Nat) (a : Asm) : (a.callbacks offset).filterMap Callback.reloc? = (a.emission offset).relocs ∧
      (a.callbacks offset).filterMap Callback.trap? = (a.emission offset).traps ∧
      (a.callbacks offset).filterMap Callback.stackMap? = (a.emission offset).stackMaps := by
    cases a with
    | inst i => cases i <;> exact ⟨rfl, rfl, rfl⟩
    | jump near target => cases near <;> exact ⟨rfl, rfl, rfl⟩
    | jumpIf cond near target => cases near <;> exact ⟨rfl, rfl, rfl⟩
    | _ => exact ⟨rfl, rfl, rfl⟩
  induction items generalizing offset with
  | nil => exact ⟨rfl, rfl, rfl⟩
  | cons a rest ih =>
    obtain ⟨relocs, traps, maps⟩ := one offset a
    obtain ⟨relocs', traps', maps'⟩ := ih (offset + a.size)
    simp only [callbacks, assemble, List.filterMap_append, Asm.sizeEmission, Emission.append]
    exact ⟨by rw [relocs, relocs'], by rw [traps, traps'], by rw [maps, maps']⟩

theorem callbacksOrdered (offset : Nat) (items : List Asm) :
    (callbacks offset items).Pairwise (fun c d => c.stop ≤ d.offset) ∧
      ∀ c ∈ callbacks offset items, offset ≤ c.offset ∧ c.offset ≤ c.stop ∧ c.stop ≤ offset + Asm.sizes items := by
  induction items generalizing offset with
  | nil => exact ⟨.nil, List.forall_mem_nil _⟩
  | cons a rest ih =>
    obtain ⟨order, within⟩ := a.callbacksWithin offset
    obtain ⟨order', within'⟩ := ih (offset + a.size)
    refine ⟨List.pairwise_append.mpr ⟨order, order', fun c here d later => ?_⟩, fun c listed => ?_⟩
    · exact Nat.le_trans (within c here).2.2 (within' d later).1
    · simp only [Asm.sizes]
      rcases List.mem_append.mp listed with here | later
      · have inside := within c here
        omega
      · have inside := within' c later
        omega

def Quiet (code : List Asm) : Prop := ∀ a ∈ code, a.Quiet

@[simp] theorem quietNil : Quiet [] := List.forall_mem_nil _

@[simp] theorem quietCons {a : Asm} {rest : List Asm} : Quiet (a :: rest) ↔ a.Quiet ∧ Quiet rest := List.forall_mem_cons

@[simp] theorem quietAppend {a b : List Asm} : Quiet (a ++ b) ↔ Quiet a ∧ Quiet b := List.forall_mem_append

theorem Quiet.none {code : List Asm} (quiet : Quiet code) (offset : Nat) : callbacks offset code = [] := by
  induction code generalizing offset with
  | nil => rfl
  | cons a rest ih =>
    obtain ⟨here, later⟩ := quietCons.mp quiet
    rw [callbacks, here.none, ih later, List.append_nil]

theorem Quiet.flatMap {α : Type} {xs : List α} {code : α → List Asm} (each : ∀ x ∈ xs, Quiet (code x)) :
    Quiet (xs.flatMap code) := fun a listed =>
  have ⟨x, inside, there⟩ := List.mem_flatMap.mp listed
  each x inside a there

section Pieces
variable (f : Func) (inst : Inst) (cls : RegClass) (dst src key : Nat) (v : Value) (l : Location) (wide : Bool)

@[simp] theorem quietMoveReg : Quiet (Lower.moveReg cls dst src) := by
  cases cls with
  | gpr =>
    simp only [Lower.moveReg, Lower.moveGpr]
    split <;> simp [MachineInst.Quiet]
  | fpr =>
    simp only [Lower.moveReg, Lower.moveXmm]
    split <;> simp [MachineInst.Quiet]

@[simp] theorem quietLoadSlot : (Lower.loadSlot f cls dst key).Quiet := by cases cls <;> trivial

@[simp] theorem quietStoreSlot : (Lower.storeSlot f cls key src).Quiet := by cases cls <;> trivial

@[simp] theorem quietLoadLocation : Quiet (Lower.loadLocation f cls dst l) := by
  cases l <;> simp [Lower.loadLocation]

@[simp] theorem quietStoreLocation : Quiet (Lower.storeLocation f cls src l) := by
  cases l <;> simp [Lower.storeLocation]

@[simp] theorem quietMaterialize (word : BitVec 64) : (Lower.materialize dst word wide).Quiet := by
  unfold Lower.materialize
  split
  · trivial
  · split <;> trivial

@[simp] theorem quietLoadGpr : Quiet (Lower.loadGpr f dst v wide) := by
  cases v <;> simp [Lower.loadGpr]

@[simp] theorem quietLoadXmm : Quiet (Lower.loadXmm f dst v) := by simp [Lower.loadXmm]

@[simp] theorem quietStoreGpr : Quiet (Lower.storeGpr f inst src) := by simp [Lower.storeGpr]

@[simp] theorem quietStoreXmm : Quiet (Lower.storeXmm f inst src) := by simp [Lower.storeXmm]

@[simp] theorem quietLoadKey : Quiet (Lower.loadKey f cls dst key) := by
  unfold Lower.loadKey
  split <;> simp

@[simp] theorem quietStoreKey : Quiet (Lower.storeKey f cls key src) := by
  unfold Lower.storeKey
  split <;> simp

@[simp] theorem quietLowerMoves (copies : List Copy) : Quiet (Lower.lowerMoves f copies) := by
  refine .flatMap fun m _ => ?_
  cases m with
  | copy cls src dst =>
    rw [Lower.lowerMove]
    split
    · simp
    · split <;> simp
  | toTemp cls src => simp [Lower.lowerMove]
  | fromTemp cls dst => simp [Lower.lowerMove]

@[simp] theorem quietParallelMove (values : List Value) (dests : List Location) :
    Quiet (Lower.parallelMove f values dests) := by
  refine quietAppend.mpr ⟨quietLowerMoves _ _, .flatMap fun move _ => ?_⟩
  obtain ⟨v, dst⟩ := move
  dsimp only
  split
  · exact quietNil
  · cases dst <;> simp [Lower.literalInto]

@[simp] theorem quietJump (form : BranchForm) (label : String) : Quiet (Lower.jump f form label) := by
  cases form <;> simp [Lower.jump, Asm.Quiet]

@[simp] theorem quietBranch (cond : Cond) : Quiet (Lower.branch f inst cond) := by
  simp [Lower.branch, Lower.jumpIf, Asm.Quiet]

theorem quietWithSecond {onImm : BitVec 32 → MachineInst} {onReg : MachineInst}
    (quiet : ∀ imm, (onImm imm).Quiet) (quiet' : onReg.Quiet) :
    Quiet (Lower.withSecond f inst wide onImm onReg) := by
  unfold Lower.withSecond
  split <;> simp [quiet, quiet']

@[simp] theorem quietCompare : Quiet (Lower.compare f inst) :=
  quietAppend.mpr ⟨quietLoadGpr _ _ _ _, quietWithSecond _ _ _ (fun _ => trivial) trivial⟩

@[simp] theorem quietTestCondition : Quiet (Lower.testCondition f inst) := by
  simp [Lower.testCondition, MachineInst.Quiet]

@[simp] theorem quietStoreFlag : Quiet (Lower.storeFlag f inst) := by simp [Lower.storeFlag, MachineInst.Quiet]

@[simp] theorem quietLoadFloats : Quiet (Lower.loadFloats f inst) := by simp [Lower.loadFloats]

theorem quietPops (regs : List Nat) : Quiet (regs.map fun r => Asm.inst (.pop (gprOf r))) := by
  intro a listed
  obtain ⟨r, -, rfl⟩ := List.mem_map.mp listed
  trivial

theorem quietPushes (regs : List Nat) : Quiet (regs.map fun r => Asm.inst (.push (gprOf r))) := by
  intro a listed
  obtain ⟨r, -, rfl⟩ := List.mem_map.mp listed
  trivial

theorem quietEpilogue : Quiet (Lower.epilogue f) := by
  unfold Lower.epilogue
  split
  · dsimp only
    simp only [quietAppend, quietPops, quietCons, quietNil, and_true]
    split
    · simp [MachineInst.Quiet]
    · split <;> simp [MachineInst.Quiet]
  · simp [MachineInst.Quiet]

theorem quietPrologue : Quiet (Lower.prologue f) := by
  unfold Lower.prologue
  simp only [quietAppend, quietPushes, quietLowerMoves, and_true]
  split <;> simp [MachineInst.Quiet]

theorem quietIntConst (word : BitVec 64) : Quiet (Lower.intConst f inst word wide) := by
  unfold Lower.intConst
  split
  · split
    · simp [MachineInst.Quiet]
    · split <;> simp [MachineInst.Quiet]
  · split <;> simp [MachineInst.Quiet]
  · exact quietNil

theorem quietFloatConst : Quiet (Lower.floatConst f inst) := by
  unfold Lower.floatConst
  split <;> simp [MachineInst.Quiet]

theorem quietFloatCompare (cond : FloatCond) : Quiet (Lower.floatCompare cond) := by
  cases cond <;> simp [Lower.floatCompare, MachineInst.Quiet]

theorem quietJumpInst : Quiet (Lower.jumpInst f inst) := by
  unfold Lower.jumpInst
  dsimp only
  rw [quietAppend]
  refine ⟨?_, quietJump _ _ _⟩
  split <;> simp

theorem quietRet : Quiet (Lower.ret f inst) := by
  refine quietAppend.mpr ⟨.flatMap fun move _ => ?_, quietEpilogue f⟩
  obtain ⟨v, r⟩ := move
  dsimp only
  split <;> simp

end Pieces

end X64
end SsaCodegen
