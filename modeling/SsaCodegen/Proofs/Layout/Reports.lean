import SsaCodegen.Proofs.Layout.Callbacks
import SsaCodegen.Proofs.Layout.Emission
import SsaCodegen.Proofs.Pipeline.Recipes
/-! The reports of a compiled function. By its opcode the code of an instruction has one of four shapes: it reports
nothing, the machine instruction that it traps at, its call, or the symbol whose address it takes. Taken together, in
the order of the instructions, these are the reports of the emission, and each is about bytes of its own instruction. -/
namespace SsaCodegen

def Opcode.traps (op : Opcode) : Bool :=
  [.sdiv, .udiv, .srem, .urem, .load, .store, .trapnz, .trap].contains op

namespace X64

def TrapsAt (inst : Inst) : MachineInst → Prop
  | .div .. => inst.op ∈ [.sdiv, .udiv, .srem, .urem]
  | .load _ base disp _ | .movsdLoad _ base disp => inst.op = .load ∧ base = gprOf rax ∧ disp = Lower.memDisp inst
  | .store base disp .. | .movsdStore base disp _ => inst.op = .store ∧ base = gprOf rax ∧ disp = Lower.memDisp inst
  | .ud2 => inst.op = .trapnz ∨ inst.op = .trap
  | _ => False

def trapCodeOf (inst : Inst) : TrapCode :=
  if inst.op ∈ [.sdiv, .udiv, .srem, .urem] then .integerDivisionByZero else inst.trapCode

def mapOf (f : Func) (inst : Inst) : List Asm :=
  if inst.safepointSlots.isEmpty then []
  else [.stackMap inst.safepointSlots (inst.safepointSlots.map (Lower.slotOffset f))]

inductive Shape (f : Func) (inst : Inst) (code : List Asm) : Prop
  | quiet (nothing : Quiet code) (plain : inst.op.traps = false ∧ inst.op ≠ .call ∧ inst.op ≠ .funcAddr)
  | trap (before after : List Asm) (i : MachineInst)
      (split : code = before ++ .trapSite (trapCodeOf inst) inst.pos :: .inst i :: after) (front : Quiet before)
      (back : Quiet after) (own : i.Quiet) (traps : inst.op.traps = true) (site : TrapsAt inst i)
  | call (before after : List Asm) (split : code = before ++ (mapOf f inst ++ .inst (.call inst.callee) :: after))
      (front : Quiet before) (back : Quiet after) (op : inst.op = .call)
  | address (dst : Gpr) (after : List Asm) (split : code = .inst (.movSymbol dst inst.callee) :: after)
      (back : Quiet after) (op : inst.op = .funcAddr)

section Shapes
variable (f : Func) (inst : Inst)

theorem divShape (op : inst.op ∈ [.sdiv, .udiv, .srem, .urem]) : Shape f inst (Lower.div f inst) := by
  have code : trapCodeOf inst = .integerDivisionByZero := if_pos op
  have traps : inst.op.traps = true := by
    revert op
    cases inst.op <;> decide
  refine .trap (Lower.loadGpr f rax (inst.operand 0) inst.ty.isWide ++
      Lower.loadGpr f rcx (inst.operand 1) inst.ty.isWide ++ [.inst (if inst.op == .sdiv || inst.op == .srem
        then .signExtendAccumulator inst.ty.isWide else .alu .xor (gprOf rdx) (gprOf rdx) false)])
    (Lower.storeGpr f inst (if inst.op == .srem || inst.op == .urem then rdx else rax))
    (.div (inst.op == .sdiv || inst.op == .srem) (gprOf rcx) inst.ty.isWide) ?_ ?_
      (quietStoreGpr _ _ _) trivial traps op
  · simp only [Lower.div, code, List.append_assoc, List.cons_append, List.nil_append]
  · simp only [quietAppend, quietLoadGpr, quietCons, quietNil, and_true, true_and, Asm.quietInst]
    split <;> trivial

theorem loadShape (op : inst.op = .load) : Shape f inst (Lower.load f inst) := by
  have code : trapCodeOf inst = inst.trapCode := if_neg (by rw [op]; decide)
  have traps : inst.op.traps = true := by rw [op]; rfl
  have address := quietLoadGpr f rax (inst.operand 0) true
  cases float : inst.ty.isFloat with
  | true =>
    refine .trap (Lower.loadGpr f rax (inst.operand 0) true) (Lower.storeXmm f inst (xmm 0))
      (.movsdLoad (xmmOf (xmm 0)) (gprOf rax) (Lower.memDisp inst)) ?_ address (quietStoreXmm _ _ _) trivial traps
      ⟨op, rfl, rfl⟩
    simp [Lower.load, float, code]
  | false =>
    refine .trap (Lower.loadGpr f rax (inst.operand 0) true) (Lower.storeGpr f inst rcx)
      (.load (gprOf rcx) (gprOf rax) (Lower.memDisp inst) (memWidthOf inst.ty)) ?_ address (quietStoreGpr _ _ _)
      trivial traps ⟨op, rfl, rfl⟩
    simp [Lower.load, float, code]

theorem storeShape (op : inst.op = .store) : Shape f inst (Lower.store f inst) := by
  have code : trapCodeOf inst = inst.trapCode := if_neg (by rw [op]; decide)
  have traps : inst.op.traps = true := by rw [op]; rfl
  cases float : inst.ty.isFloat with
  | true =>
    refine .trap (Lower.loadXmm f (xmm 0) (inst.operand 0) ++ Lower.loadGpr f rax (inst.operand 1) true) []
      (.movsdStore (gprOf rax) (Lower.memDisp inst) (xmmOf (xmm 0))) ?_ (by simp) quietNil trivial traps ⟨op, rfl, rfl⟩
    simp [Lower.store, float, code]
  | false =>
    refine .trap (Lower.loadGpr f rcx (inst.operand 0) inst.ty.isWide ++ Lower.loadGpr f rax (inst.operand 1) true) []
      (.store (gprOf rax) (Lower.memDisp inst) (regOf rcx) (memWidthOf inst.ty)) ?_ (by simp) quietNil trivial traps
      ⟨op, rfl, rfl⟩
    simp [Lower.store, float, code]

theorem callShape (op : inst.op = .call) : Shape f inst (Lower.call f inst) := by
  refine .call (Lower.parallelMove f inst.operands ((argRegs (inst.operands.map (operandTy f))).map Location.reg))
    (if inst.ty.isFloat then Lower.storeXmm f inst (xmm 0) else Lower.storeGpr f inst rax) ?_ (quietParallelMove _ _ _)
    ?_ op
  · simp only [Lower.call, mapOf, List.append_assoc, List.cons_append, List.nil_append]
  · split <;> simp

theorem trapShape (op : inst.op = .trap) : Shape f inst (Lower.trap inst) := by
  have code : trapCodeOf inst = inst.trapCode := if_neg (by rw [op]; decide)
  exact .trap [] [] .ud2 (by rw [code]; rfl) quietNil quietNil trivial (by rw [op]; rfl) (.inr op)

theorem trapnzShape (op : inst.op = .trapnz) : Shape f inst (Lower.trapnz f inst) := by
  have code : trapCodeOf inst = inst.trapCode := if_neg (by rw [op]; decide)
  refine .trap (Lower.testCondition f inst ++ [.inst (.jccShort .e 2)]) [] .ud2 ?_
    (by simp [MachineInst.Quiet]) quietNil
    trivial (by rw [op]; rfl) (.inl op)
  rw [code]
  rfl

theorem lowerShape (built : inst.Built) : Shape f inst (lowerInst f inst) := by
  have other {code : List Asm} (plain : inst.op.traps = false ∧ inst.op ≠ .call ∧ inst.op ≠ .funcAddr)
      (nothing : Quiet code) : Shape f inst code := .quiet nothing plain
  unfold lowerInst
  rw [built]
  cases op : inst.op with
  | iconst | bconst => exact other (by rw [op]; decide) (quietIntConst _ _ _ _)
  | fconst => exact other (by rw [op]; decide) (quietFloatConst _ _)
  | copy =>
    refine other (by rw [op]; decide) ?_
    simp only [Recipe.ofOpcode, Lower.copy]
    split <;> simp
  | iadd | isub | band | bor | bxor | imul =>
    refine other (by rw [op]; decide) ?_
    exact quietAppend.mpr ⟨quietAppend.mpr ⟨quietLoadGpr _ _ _ _, quietWithSecond _ _ _ (fun _ => trivial) trivial⟩,
      quietStoreGpr _ _ _⟩
  | ishl | ushr | sshr =>
    refine other (by rw [op]; decide) ?_
    simp only [Recipe.ofOpcode, Lower.shift]
    split <;> simp [MachineInst.Quiet]
  | sdiv | udiv | srem | urem => exact divShape f inst (by rw [op]; decide)
  | icmp => exact other (by rw [op]; decide) (by simp [Recipe.ofOpcode, Lower.icmp, MachineInst.Quiet])
  | fadd | fsub | fmul | fdiv =>
    exact other (by rw [op]; decide) (by simp [Recipe.ofOpcode, Lower.fpuArith, MachineInst.Quiet])
  | fcmp => exact other (by rw [op]; decide) (by simp [Recipe.ofOpcode, Lower.fcmp, quietFloatCompare])
  | select => exact other (by rw [op]; decide) (by simp [Recipe.ofOpcode, Lower.select, MachineInst.Quiet])
  | sextend | uextend | ireduce =>
    refine other (by rw [op]; decide) ?_
    simp only [Recipe.ofOpcode, Lower.extend]
    split <;> simp [MachineInst.Quiet]
  | fcvtFromSint => exact other (by rw [op]; decide) (by simp [Recipe.ofOpcode, Lower.cvtFromSint, MachineInst.Quiet])
  | fcvtToSint => exact other (by rw [op]; decide) (by simp [Recipe.ofOpcode, Lower.cvtToSint, MachineInst.Quiet])
  | load => exact loadShape f inst op
  | store => exact storeShape f inst op
  | call => exact callShape f inst op
  | funcAddr => exact .address (gprOf rax) _ rfl (quietStoreGpr _ _ _) op
  | trapnz => exact trapnzShape f inst op
  | prologue => exact other (by rw [op]; decide) (quietPrologue _)
  | trap => exact trapShape f inst op
  | jump => exact other (by rw [op]; decide) (quietJumpInst _ _)
  | brif => exact other (by rw [op]; decide) (by simp [Recipe.ofOpcode])
  | brIcmp => exact other (by rw [op]; decide) (by simp [Recipe.ofOpcode])
  | ret => exact other (by rw [op]; decide) (quietRet _ _)

end Shapes

def locatedFrom (f : Func) : Nat → List Inst → List (Nat × Inst)
  | _, [] => []
  | offset, inst :: rest => (offset, inst) :: locatedFrom f (offset + instructionSize f inst) rest

def located (f : Func) : List (Nat × Inst) := locatedFrom f 0 f.insts

theorem locatedSplit {f : Func} {offset : Nat} {insts : List Inst} {p : Nat × Inst}
    (listed : p ∈ locatedFrom f offset insts) :
    ∃ before after, insts = before ++ p.2 :: after ∧ p.1 = offset + codeSize f before := by
  induction insts generalizing offset with
  | nil => cases listed
  | cons inst rest ih =>
    rcases List.mem_cons.mp listed with rfl | later
    · exact ⟨[], rest, rfl, rfl⟩
    · obtain ⟨before, after, rfl, place⟩ := ih later
      refine ⟨inst :: before, after, rfl, ?_⟩
      rw [place, Nat.add_assoc]
      rfl

theorem pickReports {α : Type} (pick : Callback → Option α) (asks : Inst → Bool) {P : Nat × Inst → α → Prop}
    {f : Func} {offset : Nat} {insts : List Inst} (each : ∀ p ∈ locatedFrom f offset insts,
      let own := (callbacks p.1 (lowerInst f p.2)).filterMap pick
      if asks p.2 then ∃ x, own = [x] ∧ P p x else own = []) :
    List.Forall₂ P ((locatedFrom f offset insts).filter fun p => asks p.2)
      ((callbacks offset (insts.flatMap (lowerInst f))).filterMap pick) := by
  induction insts generalizing offset with
  | nil => exact .nil
  | cons inst rest ih =>
    have size : Asm.sizes (lowerInst f inst) = instructionSize f inst := (sizeAssemble 0 _).symm
    have here := each (offset, inst) List.mem_cons_self
    have later := ih fun p listed => each p (List.mem_cons_of_mem _ listed)
    rw [List.flatMap_cons, callbacksAppend, List.filterMap_append, size]
    dsimp only at here
    simp only [locatedFrom, List.filter_cons]
    split at here
    · rename_i asked
      obtain ⟨x, own, holds⟩ := here
      rw [if_pos asked, own]
      exact .cons holds later
    · rename_i other
      rw [if_neg other, here]
      exact later

def Stands (f : Func) (p : Nat × Inst) (offset : Nat) (i : MachineInst) : Prop :=
  ∃ before after, lowerInst f p.2 = before ++ .inst i :: after ∧ offset = p.1 + Asm.sizes before

inductive Own (f : Func) (p : Nat × Inst) : List Callback → Prop
  | none (plain : p.2.op.traps = false ∧ p.2.op ≠ .call ∧ p.2.op ≠ .funcAddr) : Own f p []
  | trap (offset : Nat) (i : MachineInst) (stands : Stands f p offset i) (traps : p.2.op.traps = true)
      (site : TrapsAt p.2 i) : Own f p [.trap ⟨offset, p.2.pos, trapCodeOf p.2⟩]
  | call (offset : Nat) (stands : Stands f p offset (.call p.2.callee)) (op : p.2.op = .call) :
      Own f p ((if p.2.safepointSlots.isEmpty then [] else
        [.stackMap ⟨offset, p.2.safepointSlots, p.2.safepointSlots.map (Lower.slotOffset f)⟩]) ++
          [.reloc ⟨offset + 1, .callPcRel4, p.2.callee, -4⟩])
  | address (dst : Gpr) (stands : Stands f p p.1 (.movSymbol dst p.2.callee)) (op : p.2.op = .funcAddr) :
      Own f p [.reloc ⟨p.1 + 2, .abs8, p.2.callee, 0⟩]

theorem ownCallbacks (f : Func) {p : Nat × Inst} (built : p.2.Built) : Own f p (callbacks p.1 (lowerInst f p.2)) := by
  have shape := lowerShape f p.2 built
  cases shape with
  | quiet nothing plain =>
    rw [nothing.none]
    exact .none plain
  | trap before after i split front back own traps site =>
    have stands : Stands f p (p.1 + Asm.sizes before) i := by
      refine ⟨before ++ [.trapSite (trapCodeOf p.2) p.2.pos], after, ?_, ?_⟩
      · rw [split, List.append_assoc]
        rfl
      · rw [Asm.sizesAppend]
        rfl
    have reports : callbacks p.1 (lowerInst f p.2) =
        [.trap ⟨p.1 + Asm.sizes before, p.2.pos, trapCodeOf p.2⟩] := by
      have quiet : Asm.Quiet (.inst i) := own
      rw [split, callbacksAppend, front.none, callbacks, callbacks, quiet.none, back.none]
      rfl
    rw [reports]
    exact .trap _ i stands traps site
  | call before after split front back op =>
    have marks : Asm.sizes (mapOf f p.2) = 0 := by
      unfold mapOf
      split <;> rfl
    have stands : Stands f p (p.1 + Asm.sizes before) (.call p.2.callee) := by
      refine ⟨before ++ mapOf f p.2, after, ?_, ?_⟩
      · rw [split, List.append_assoc]
      · rw [Asm.sizesAppend, marks, Nat.add_zero]
    have reports : callbacks p.1 (lowerInst f p.2) = (if p.2.safepointSlots.isEmpty then [] else
        [.stackMap ⟨p.1 + Asm.sizes before, p.2.safepointSlots, p.2.safepointSlots.map (Lower.slotOffset f)⟩]) ++
          [.reloc ⟨p.1 + Asm.sizes before + 1, .callPcRel4, p.2.callee, -4⟩] := by
      rw [split, callbacksAppend, front.none, callbacksAppend, marks, callbacks, back.none, mapOf]
      split <;> rfl
    rw [reports]
    exact .call _ stands op
  | address dst after split back op =>
    have reports : callbacks p.1 (lowerInst f p.2) = [.reloc ⟨p.1 + 2, .abs8, p.2.callee, 0⟩] := by
      rw [split, callbacks, back.none]
      rfl
    rw [reports]
    exact .address dst ⟨[], after, split, rfl⟩ op

structure Written (f : Func) (bytes : List Byte) (p : Nat × Inst) (offset : Nat) (i : MachineInst) : Prop where
  stands : Stands f p offset i
  own : p.1 ≤ offset ∧ offset < p.1 + instructionSize f p.2 ∧
    offset + (i.bytes offset).length ≤ p.1 + instructionSize f p.2
  code : (bytes.drop offset).take (i.bytes offset).length = i.bytes offset

structure Relocates (f : Func) (info : CodeInfo) (bytes : List Byte) (p : Nat × Inst) (r : RelocSite) : Prop where
  kind : if p.2.op = .call then r.kind = .callPcRel4 ∧ r.addend = -4 else r.kind = .abs8 ∧ r.addend = 0
  symbol : r.symbol = p.2.callee
  own : p.1 ≤ r.offset ∧ r.offset + r.kind.width ≤ p.1 + instructionSize f p.2
  within : r.offset + r.kind.width ≤ info.codeSize
  zeros : (bytes.drop r.offset).take r.kind.width = List.replicate r.kind.width 0

structure Traps (f : Func) (bytes : List Byte) (p : Nat × Inst) (t : TrapSite) : Prop where
  site : t.pos = p.2.pos ∧ t.code = trapCodeOf p.2
  written : ∃ i, TrapsAt p.2 i ∧ Written f bytes p t.offset i

structure Maps (f : Func) (bytes : List Byte) (p : Nat × Inst) (m : StackMapSite) : Prop where
  slots : m.slots = p.2.safepointSlots
  offsets : List.Forall₂ (fun slot offset => ∃ s, f.stackSlots[slot]? = some s ∧ offset = s.offset) m.slots
    m.frameOffsets
  written : Written f bytes p m.offset (.call p.2.callee)

structure Reports (f : Func) (info : CodeInfo) (e : Emission) : Prop where
  relocs : List.Forall₂ (Relocates f info e.bytes)
    ((located f).filter fun p => p.2.op == .call || p.2.op == .funcAddr) e.relocs
  traps : List.Forall₂ (Traps f e.bytes) ((located f).filter (·.2.op.traps)) e.traps
  stackMaps : List.Forall₂ (Maps f e.bytes)
    ((located f).filter fun p => p.2.op == .call && !p.2.safepointSlots.isEmpty) e.stackMaps
  order :
    let reports := callbacks 0 (f.insts.flatMap (lowerInst f))
    reports.filterMap Callback.reloc? = e.relocs ∧ reports.filterMap Callback.trap? = e.traps ∧
      reports.filterMap Callback.stackMap? = e.stackMaps ∧ reports.Pairwise fun c d => c.offset ≤ d.offset
  apart : e.relocs.Pairwise fun r s => r.offset + r.kind.width ≤ s.offset

theorem standsSplit {f : Func} {p : Nat × Inst} {offset : Nat} {i : MachineInst} (stands : Stands f p offset i) :
    ∃ front back, (assemble p.1 (lowerInst f p.2)).bytes = front ++ (i.bytes offset ++ back) ∧
      offset = p.1 + front.length ∧
      instructionSize f p.2 = front.length + ((i.bytes offset).length + back.length) := by
  obtain ⟨before, after, split, place⟩ := stands
  have front : (assemble p.1 before).bytes.length = Asm.sizes before := sizeAssemble ..
  have code : (assemble p.1 (lowerInst f p.2)).bytes = (assemble p.1 before).bytes ++
      (i.bytes offset ++ (assemble (offset + (i.bytes offset).length) after).bytes) := by
    have place' : p.1 + (assemble p.1 before).size = offset := by rw [sizeAssemble, place]
    rw [split, assembleAppend, place']
    rfl
  refine ⟨_, _, code, by rw [front, place], ?_⟩
  rw [← List.length_append, ← List.length_append, ← code, instructionSize, sizeAssemble]
  exact (sizeAssemble ..).symm

section Laid
variable {limit : Nat} {f : Func} {info : CodeInfo} (laid : LaidOut limit f info)
include laid

theorem standsWritten {p : Nat × Inst} (listed : p ∈ located f) {offset : Nat} {i : MachineInst}
    (stands : Stands f p offset i) : Written f (emitFunction f).emitted.bytes p offset i ∧
      p.1 + instructionSize f p.2 ≤ info.codeSize := by
  obtain ⟨⟨codeEnd, placed, pool⟩, rfl, -⟩ := laid
  obtain ⟨before, after, insts, start⟩ := locatedSplit listed
  obtain ⟨early, late, place, code⟩ := assembleSplit f 0 before p.2 after
  obtain ⟨front, back, own, offsets, size⟩ := standsSplit stands
  rw [← insts, ← start, own] at code
  have written : (emitFunction f).emitted.bytes = (early ++ front) ++ (i.bytes offset ++ (back ++ (late ++
      ((Emission.ofBytes (if f.constants.isEmpty then [] else List.replicate (f.constantPoolOffset -
        (assemble 0 (f.insts.flatMap (lowerInst f))).size) (byteOf 0xCC))).bytes ++
          f.constants.flatMap (littleEndian 8))))) := by
    rw [emittedParts, codeAndPadding]
    simp only [Emission.append, code, List.append_assoc]
    rfl
  have reached : (early ++ front).length = offset := by
    rw [List.length_append, place, offsets, start]
    omega
  have present := List.length_pos_iff.mpr (bytesSome offset i)
  refine ⟨⟨stands, ⟨by omega, by omega, by omega⟩, ?_⟩, ?_⟩
  · rw [written, ← reached, List.drop_left, reached, List.take_left]
  · have room := Layout.poolOffsetBehind f.constants codeEnd
    have ends : codeEnd = codeSize f before + (instructionSize f p.2 + codeSize f after) := by
      rw [placed.ends, insts, codeSizeAppend]
      rfl
    show p.1 + instructionSize f p.2 ≤ f.constantPoolOffset
    omega

theorem relocatesZeros {p : Nat × Inst} (listed : p ∈ located f) {offset : Nat} {i : MachineInst}
    (stands : Stands f p offset i) {r : RelocSite} (head : List Byte)
    (own : i.bytes offset = head ++ List.replicate r.kind.width 0) (place : r.offset = offset + head.length)
    (kind : if p.2.op = .call then r.kind = .callPcRel4 ∧ r.addend = -4 else r.kind = .abs8 ∧ r.addend = 0)
    (symbol : r.symbol = p.2.callee) : Relocates f info (emitFunction f).emitted.bytes p r := by
  obtain ⟨⟨-, ⟨after, -, ends⟩, code⟩, inside⟩ := standsWritten laid listed stands
  have length : (i.bytes offset).length = head.length + r.kind.width := by
    rw [own, List.length_append, List.length_replicate]
  refine ⟨kind, symbol, ⟨by omega, by omega⟩, by omega, ?_⟩
  have tail := congrArg (List.drop head.length) code
  rwa [length, List.drop_take, Nat.add_sub_cancel_left, List.drop_drop, own, List.drop_left, ← place] at tail

theorem relocatesOwn {p : Nat × Inst} (listed : p ∈ located f) (built : p.2.Built) :
    let own := (callbacks p.1 (lowerInst f p.2)).filterMap Callback.reloc?
    if p.2.op == .call || p.2.op == .funcAddr then
      ∃ r, own = [r] ∧ Relocates f info (emitFunction f).emitted.bytes p r
    else own = [] := by
  have reports := ownCallbacks f built
  generalize callbacks p.1 (lowerInst f p.2) = own at reports
  cases reports with
  | none plain => simp [plain.2.1, plain.2.2]
  | trap offset i stands traps sited =>
    have other : (p.2.op == .call || p.2.op == .funcAddr) = false := by
      revert traps
      cases p.2.op <;> decide
    simp [other, Callback.reloc?]
  | call offset stands op =>
    rw [if_pos (by rw [op]; rfl), List.filterMap_append]
    refine ⟨⟨offset + 1, .callPcRel4, p.2.callee, -4⟩, ?_, ?_⟩
    · split <;> rfl
    · exact relocatesZeros laid listed stands [byteOf 0xE8] rfl rfl (by rw [if_pos op]; exact ⟨rfl, rfl⟩) rfl
  | address dst stands op =>
    rw [if_pos (by rw [op]; rfl)]
    obtain ⟨head, length, bytes⟩ := MachineInst.symbolBytes p.1 dst p.2.callee
    refine ⟨⟨p.1 + 2, .abs8, p.2.callee, 0⟩, rfl, relocatesZeros laid listed stands head bytes ?_ ?_ rfl⟩
    · rw [length]
    · rw [if_neg (by rw [op]; decide)]
      exact ⟨rfl, rfl⟩

theorem trapsOwn {p : Nat × Inst} (listed : p ∈ located f) (built : p.2.Built) :
    let own := (callbacks p.1 (lowerInst f p.2)).filterMap Callback.trap?
    if p.2.op.traps then ∃ t, own = [t] ∧ Traps f (emitFunction f).emitted.bytes p t else own = [] := by
  have reports := ownCallbacks f built
  generalize callbacks p.1 (lowerInst f p.2) = own at reports
  cases reports with
  | none plain => simp [plain.1]
  | trap offset i stands traps sited =>
    rw [if_pos traps]
    exact ⟨_, rfl, ⟨rfl, rfl⟩, i, sited, (standsWritten laid listed stands).1⟩
  | call offset stands op =>
    rw [if_neg (by rw [op]; decide), List.filterMap_append]
    split <;> rfl
  | address dst stands op =>
    rw [if_neg (by rw [op]; decide)]
    rfl

theorem mapsOwn (slots : Session.ListsSlots f) {p : Nat × Inst} (listed : p ∈ located f) (built : p.2.Built) :
    let own := (callbacks p.1 (lowerInst f p.2)).filterMap Callback.stackMap?
    if p.2.op == .call && !p.2.safepointSlots.isEmpty then
      ∃ m, own = [m] ∧ Maps f (emitFunction f).emitted.bytes p m
    else own = [] := by
  have reports := ownCallbacks f built
  generalize callbacks p.1 (lowerInst f p.2) = own at reports
  cases reports with
  | none plain => simp [plain.2.1]
  | trap offset i stands traps sited =>
    have other : (p.2.op == .call) = false := by
      revert traps
      cases p.2.op <;> decide
    simp [other, Callback.stackMap?]
  | call offset stands op =>
    cases empty : p.2.safepointSlots.isEmpty with
    | true => simp [op, Callback.stackMap?]
    | false =>
      simp only [op, BEq.rfl, Bool.not_false, Bool.and_self, if_true]
      refine ⟨_, rfl, rfl, ?_, (standsWritten laid listed stands).1⟩
      refine List.forall₂_map_right_iff.mpr (List.forall₂_same.mpr fun slot inside => ?_)
      obtain ⟨before, after, insts, -⟩ := locatedSplit listed
      have below := slots p.2 (insts ▸ List.mem_append_right _ List.mem_cons_self) op slot inside
      refine ⟨_, List.getElem?_eq_getElem below, ?_⟩
      rw [Lower.slotOffset, List.getElem?_eq_getElem below]
      rfl
  | address dst stands op => simp [op, Callback.stackMap?]

theorem emissionReports (built : ∀ i ∈ f.insts, i.Built) (slots : Session.ListsSlots f) :
    Reports f info (emitFunction f).emitted := by
  have code := callbacksAssembled 0 (f.insts.flatMap (lowerInst f))
  have ordered := callbacksOrdered 0 (f.insts.flatMap (lowerInst f))
  have same : (emitFunction f).emitted.relocs = (assemble 0 (f.insts.flatMap (lowerInst f))).relocs ∧
      (emitFunction f).emitted.traps = (assemble 0 (f.insts.flatMap (lowerInst f))).traps ∧
      (emitFunction f).emitted.stackMaps = (assemble 0 (f.insts.flatMap (lowerInst f))).stackMaps := by
    simp [emittedParts, codeAndPadding, Emission.append, Emission.ofBytes]
  obtain ⟨relocs, traps, stackMaps⟩ := same
  have own {p : Nat × Inst} (listed : p ∈ located f) : p.2.Built := by
    obtain ⟨before, after, insts, -⟩ := locatedSplit listed
    exact built p.2 (insts ▸ List.mem_append_right _ List.mem_cons_self)
  constructor
  · rw [relocs, ← code.1]
    exact pickReports Callback.reloc? (fun inst => inst.op == .call || inst.op == .funcAddr)
      fun p listed => relocatesOwn laid listed (own listed)
  · rw [traps, ← code.2.1]
    exact pickReports Callback.trap? (·.op.traps) fun p listed => trapsOwn laid listed (own listed)
  · rw [stackMaps, ← code.2.2]
    exact pickReports Callback.stackMap? (fun inst => inst.op == .call && !inst.safepointSlots.isEmpty)
      fun p listed => mapsOwn laid slots listed (own listed)
  · refine ⟨code.1.trans relocs.symm, code.2.1.trans traps.symm, code.2.2.trans stackMaps.symm, ?_⟩
    refine ordered.1.imp_of_mem fun {c d} here _ before => ?_
    exact Nat.le_trans (ordered.2 c here).2.1 before
  · rw [relocs, ← code.1]
    refine ordered.1.filterMap _ fun c d before r left s right => ?_
    cases c <;> cases left
    cases d <;> cases right
    exact before

end Laid

end X64

namespace Session
open X64

/-- Whatever was compiled, its emission reports every relocation, trap and stack map of the final instructions, and
nothing else. That holds for code that is appended to a vector and for code that is written into a buffer. -/
theorem compilationReports {s u : Session} {t : Target} {info : CodeInfo} (done : s.compile t = (u, .ok info)) :
    let sink := emitFunction u.func
    Reports u.func info sink.emitted ∧ (∀ memory, (s.compileOnto t memory).2.2 = .ok sink) ∧
      ∀ buffer, info.totalSize ≤ buffer.length → (u.emitInto buffer).2.emitted = sink.emitted := by
  obtain ⟨laid, sizes⟩ := laidOutCompile done
  obtain ⟨_, last, -, -, ran, final, -⟩ := compileDone done
  have func : last.func = u.func := final.func
  refine ⟨emissionReports laid (func ▸ runBuilt ran) (func ▸ runListsSlots ran), fun memory => ?_,
    fun buffer room => ?_⟩
  · simp only [compileOnto, compileAndEmit, done]
  · have laidOut : u.laidOut = true := final.laidOut.symm
    simp only [emitInto, laidOut, Bool.not_true, Bool.false_eq_true, if_false, sizes, if_neg (Nat.not_lt.mpr room)]

def storeAndCall : Func :=
  { name := "f"
    signature := { params := [.r64], returns := [.r64] }
    blocks := [
      { label := "entry", params := [⟨0, .r64⟩]
        insts := [
          { op := .store, ty := .i64, operands := [.int 7, .int 4096], trapCode := .heapOutOfBounds },
          { op := .call, callee := "collect" },
          { op := .trapnz, operands := [.bool false] },
          { op := .ret, operands := [.temp 0] }] }]
    valueTypes := [.r64] }

theorem storeAndCallReported : verifyFunction storeAndCall = [] ∧
    let s := setFunction {} storeAndCall
    let u := (s.compile {}).1
    let sink := emitFunction u.func
    ∃ info, s.compile {} = (u, .ok info) ∧ (Reports u.func info sink.emitted ∧
      (∀ memory, (s.compileOnto {} memory).2.2 = .ok sink) ∧
        ∀ buffer, info.totalSize ≤ buffer.length → (u.emitInto buffer).2.emitted = sink.emitted) ∧
      sink.emitted.relocs.map RelocSite.kind = [.callPcRel4] ∧
      sink.emitted.traps.map TrapSite.code = [.heapOutOfBounds, .user] ∧
      sink.emitted.stackMaps.map StackMapSite.frameOffsets = [[-8]] := by
  obtain ⟨u, info, done⟩ := compiledOf (s := setFunction {} storeAndCall) (t := {}) (by decide +kernel)
  have same : u = ((setFunction {} storeAndCall).compile {}).1 := (congrArg Prod.fst done).symm
  subst same
  exact ⟨by decide, info, done, compilationReports done, by decide +kernel⟩

end Session
end SsaCodegen
