import SsaCodegen.Proofs.Layout.Placement
import SsaCodegen.Proofs.Pipeline.Run
/-! The code of a compiled function is its layout: every instruction has the bytes that
were reserved for it, the pool lies where it was placed, and the sizes announced are the
sizes written. A destination sees one write for each offset, in order, so a vector that
the code is emitted onto keeps what it held and grows by exactly those bytes. -/
namespace SsaCodegen

theorem deliverOffsets {σ : Type} (put : σ → Nat → Byte → σ) (e : Emission) (s : σ) :
    e.deliver put s = (List.range e.size).foldl (fun s k => put s k (e.bytes.getD k 0)) s := by
  have numbered : e.bytes.zipIdx = (List.range e.size).map fun k => (e.bytes.getD k 0, k) := by
    apply List.ext_getElem
    · simp [Emission.size]
    · intro k short long
      have inside : k < e.bytes.length := by simpa using short
      simp [List.getElem?_eq_getElem inside]
  rw [Emission.deliver, numbered, List.foldl_map]

theorem storeAtEnd (e : Emission) (memory region : List Byte) (room : region.length = e.size) :
    e.storeAt memory.length (memory ++ region) = memory ++ e.bytes := by
  have go (bytes : List Byte) (k : Nat) (before after : List Byte)
      (place : before.length = memory.length + k)
      (fill : after.length = bytes.length) :
      (bytes.zipIdx k).foldl (fun memory' (x : Byte × Nat) => memory'.set (memory.length + x.2) x.1)
        (before ++ after) = before ++ bytes := by
    induction bytes generalizing k before after with
    | nil =>
      have : after = [] := List.eq_nil_of_length_eq_zero fill
      simp [this]
    | cons byte rest ih =>
      cases after with
      | nil => simp at fill
      | cons old after =>
        rw [List.zipIdx_cons, List.foldl_cons, ← place, List.set_append_right _ _ (Nat.le_refl _)]
        simp only [Nat.sub_self, List.set_cons_zero]
        rw [List.append_cons before byte after, List.append_cons before byte rest]
        exact ih (k + 1) (before ++ [byte]) after (by simp [place]; omega) (by simpa using fill)
  exact go e.bytes 0 memory region rfl (by simpa [Emission.size] using room)

namespace X64

theorem assembleSplit (f : Func) (offset : Nat) (before : List Inst) (inst : Inst) (after : List Inst) :
    ∃ front back, front.length = codeSize f before ∧
      (assemble offset ((before ++ inst :: after).flatMap (lowerInst f))).bytes =
        front ++ ((assemble (offset + codeSize f before) (lowerInst f inst)).bytes ++ back) := by
  refine ⟨(assemble offset (before.flatMap (lowerInst f))).bytes,
    (assemble (offset + codeSize f before + instructionSize f inst) (after.flatMap (lowerInst f))).bytes,
    ?_, ?_⟩
  · exact (sizeAssemble offset _).trans (codeSizeLowered f before).symm
  · have front : (assemble offset (before.flatMap (lowerInst f))).size = codeSize f before := by
      rw [sizeAssemble, codeSizeLowered]
    have own : (assemble (offset + codeSize f before) (lowerInst f inst)).size = instructionSize f inst := by
      rw [instructionSize, sizeAssemble, sizeAssemble]
    simp only [List.flatMap_append, List.flatMap_cons, assembleAppend, front, own, Emission.append]

/-- Emitted code agrees with a layout: `size` bytes in all, blocks one behind the other,
each instruction in the place that the offsets of blocks and the sizes of instructions
give it, and the pool behind. -/
structure Realizes (f : Func) (info : CodeInfo) (bytes : List Byte) : Prop where
  size : bytes.length = info.totalSize
  starts : f.blockOffsets = startsFrom 0 (f.blocks.map (Layout.blockSize f))
  code : ∀ (b : Nat) (bb : Block) (before : List Inst) (inst : Inst) (after : List Inst),
    f.blocks[b]? = some bb → bb.insts = before ++ inst :: after →
    ∃ start, f.blockOffsets[b]? = some start ∧
      let located := start + codeSize f before
      located + instructionSize f inst ≤ f.constantPoolOffset ∧
      (bytes.drop located).take (instructionSize f inst) = (assemble located (lowerInst f inst)).bytes ∧
      (assemble located (lowerInst f inst)).size = instructionSize f inst
  pool : bytes.drop f.constantPoolOffset = f.constants.flatMap (littleEndian 8)

theorem poolLength (constants : List (BitVec 64)) :
    (constants.flatMap (littleEndian 8)).length = 8 * constants.length := by
  induction constants with
  | nil => rfl
  | cons c rest ih => simp [lengthLittleEndian, ih]; omega

def codeAndPadding (f : Func) : Emission :=
  let code := assemble 0 (f.insts.flatMap (lowerInst f))
  code.append (.ofBytes (if f.constants.isEmpty then []
    else List.replicate (f.constantPoolOffset - code.size) (byteOf 0xCC)))

theorem emittedParts (f : Func) : (emitFunction f).emitted =
    (codeAndPadding f).append (.ofBytes (f.constants.flatMap (littleEndian 8))) := by
  simp [emitFunction, codeAndPadding, CodeSink.write, CodeSink.finish, CodeSink.beginRodata,
    CodeSink.beginJumptables]

theorem sizeCode (f : Func) {codeEnd : Nat} (placed : Placed f codeEnd) :
    (assemble 0 (f.insts.flatMap (lowerInst f))).size = codeEnd := by
  rw [sizeAssemble, ← codeSizeLowered, placed.ends]

theorem sizeCodeAndPadding (f : Func) {codeEnd : Nat} (placed : Placed f codeEnd)
    (pool : f.constantPoolOffset = Layout.poolOffset f.constants codeEnd) :
    (codeAndPadding f).size = f.constantPoolOffset := by
  have room := Layout.poolOffsetBehind f.constants codeEnd
  simp only [codeAndPadding, Emission.sizeAppend, sizeCode f placed]
  split
  · rename_i none
    simp [Emission.size, Emission.ofBytes, pool, Layout.poolOffset, none]
  · simp only [Emission.size, Emission.ofBytes, List.length_replicate]
    omega

theorem realizesLayout {limit : Nat} {f : Func} {info : CodeInfo} (laid : LaidOut limit f info) :
    Realizes f info (emitFunction f).emitted.bytes := by
  obtain ⟨⟨codeEnd, placed, pool⟩, sizes, -⟩ := laid
  have size : (assemble 0 (f.insts.flatMap (lowerInst f))).bytes.length = codeEnd := sizeCode f placed
  have upToPool : (codeAndPadding f).bytes.length = f.constantPoolOffset :=
    sizeCodeAndPadding f placed pool
  have room := Layout.poolOffsetBehind f.constants codeEnd
  have bytes : (emitFunction f).emitted.bytes =
      (codeAndPadding f).bytes ++ f.constants.flatMap (littleEndian 8) :=
    congrArg Emission.bytes (emittedParts f)
  refine ⟨?_, placed.starts, ?_, ?_⟩
  · rw [bytes, sizes]
    simp only [List.length_append, upToPool, poolLength]
  · intro b bb before inst after found split
    obtain ⟨inside, same⟩ := List.getElem?_eq_some_iff.mp found
    have blocks : f.blocks = f.blocks.take b ++ bb :: f.blocks.drop (b + 1) := by
      rw [← same, ← List.drop_eq_getElem_cons inside, List.take_append_drop]
    have place : (f.blocks.take b).length = b := List.length_take_of_le (Nat.le_of_lt inside)
    refine ⟨_, placed.start blocks place, ?_⟩
    generalize earlier : (f.blocks.take b).flatMap Block.insts = earlierInsts
    have insts : f.insts = (earlierInsts ++ before) ++
        inst :: (after ++ (f.blocks.drop (b + 1)).flatMap Block.insts) := by
      conv => lhs; rw [Func.insts, blocks]
      simp [earlier, split]
    obtain ⟨front, back, length, code⟩ := assembleSplit f 0 (earlierInsts ++ before) inst
      (after ++ (f.blocks.drop (b + 1)).flatMap Block.insts)
    rw [← insts, Nat.zero_add] at code
    rw [codeSizeAppend] at length code
    have own : (assemble (codeSize f earlierInsts + codeSize f before) (lowerInst f inst)).bytes.length =
        instructionSize f inst := by
      rw [instructionSize, sizeAssemble]
      exact sizeAssemble _ _
    refine ⟨?_, ?_, own⟩
    · have total := congrArg List.length code
      simp only [List.length_append, size, length, own] at total
      omega
    · rw [bytes, codeAndPadding, Emission.append, code, List.append_assoc, List.append_assoc,
        List.drop_append_of_le_length (by omega), List.drop_of_length_le (by omega),
        List.nil_append, List.append_assoc, List.take_append_of_le_length (by omega),
        List.take_of_length_le (by omega)]
  · rw [bytes, List.drop_append_of_le_length (by omega), List.drop_of_length_le (by omega),
      List.nil_append]

theorem wrapSizeOfLt {n : Nat} (small : n < 4294967296) : CodeSink.wrapSize n = n := by
  simp only [CodeSink.wrapSize, BitVec.toNat_ofInt]
  omega

theorem announcedSizes {limit : Nat} {f : Func} {info : CodeInfo} (laid : LaidOut limit f info)
    (word : limit < 4294967296) : (emitFunction f).info = info := by
  obtain ⟨⟨codeEnd, placed, pool⟩, sizes, fits⟩ := laid
  have upToPool := sizeCodeAndPadding f placed pool
  subst sizes
  simp only at fits
  have rodata : Emission.size (.ofBytes (f.constants.flatMap (littleEndian 8))) =
      8 * f.constants.length := poolLength _
  have tables : CodeSink.wrapSize ((f.constantPoolOffset : Int) - f.constantPoolOffset) = 0 := by
    rw [Int.sub_self]
    exact wrapSizeOfLt (n := 0) (by decide)
  have constants : CodeSink.wrapSize (((f.constantPoolOffset + 8 * f.constants.length : Nat) : Int) -
      f.constantPoolOffset - (0 : Nat)) = 8 * f.constants.length := by
    rw [show ((f.constantPoolOffset + 8 * f.constants.length : Nat) : Int) - f.constantPoolOffset -
      (0 : Nat) = (8 * f.constants.length : Nat) by omega]
    exact wrapSizeOfLt (by omega)
  have written : emitFunction f = ((((({} : CodeSink).write (codeAndPadding f)).beginJumptables).beginRodata).write
      (.ofBytes (f.constants.flatMap (littleEndian 8)))).finish := by
    simp only [emitFunction, codeAndPadding, CodeSink.write, Emission.emptyAppend]
  rw [written]
  simp only [CodeSink.write, CodeSink.finish, CodeSink.beginRodata, CodeSink.beginJumptables,
    CodeSink.offset, Emission.emptyAppend, Emission.sizeAppend, upToPool, rodata]
  rw [tables, constants]

end X64

namespace Session
open X64

theorem activeEndsInRelaxation (flags : Flags) : ∃ earlier, Stage.activeFor flags = earlier ++ [.relaxBranches] :=
  ⟨_, activeAround flags 15 .relaxBranches rfl rfl rfl⟩

theorem relaxedCompile {s u : Session} {t : Target} {info : CodeInfo}
    (done : s.compile t = (u, .ok info)) :
    (∃ f, relaxBranches t.limits f = (u.func, .ok info)) ∧ u.info = info := by
  obtain ⟨_, last, -, -, ran, final, rfl⟩ := compileDone done
  obtain ⟨earlier, stages⟩ := activeEndsInRelaxation t.flags
  rw [stages] at ran
  obtain ⟨middle, -, relaxed⟩ := runStagesAppend ran
  obtain ⟨before, after, -, work, same, -⟩ := runStageDone (runStagesOne relaxed)
  rw [← final.func, ← final.info]
  refine ⟨⟨before.func, ?_⟩, rfl⟩
  show _ = (last.func, Except.ok last.info)
  rw [← same.func, ← same.info]
  simp only [perform, layOut] at work
  split at work
  · rename_i relaxedInfo found
    simp only [Prod.mk.injEq, and_true] at work
    subst work
    exact Prod.ext rfl found
  · simp at work

theorem laidOutCompile {s u : Session} {t : Target} {info : CodeInfo}
    (done : s.compile t = (u, .ok info)) :
    LaidOut t.limits.functionLimit u.func info ∧ u.info = info := by
  obtain ⟨⟨f, relaxed⟩, known⟩ := relaxedCompile done
  exact ⟨laidOutRelax relaxed, known⟩

/-- A compilation that succeeds with sizes `info` leaves a function whose emission
realizes its layout: the sink counts `info`, a destination is written at the offsets
`0, 1, …, info.totalSize - 1` in that order, and a vector keeps its bytes and grows by
code that they have no part in. After a failure a vector is as it was. -/
theorem emissionRealizesLayout (s : Session) (t : Target) :
    match s.compile t with
    | (u, .ok info) =>
      let sink := emitFunction u.func
      sink.info = info ∧ Realizes u.func info sink.emitted.bytes ∧
        info.totalSize = info.codeSize + info.jumptablesSize + info.rodataSize ∧
        info.totalSize ≤ t.limits.functionLimit ∧
        (∀ (σ : Type) (put : σ → Nat → Byte → σ) (start : σ), sink.emitted.deliver put start =
          (List.range info.totalSize).foldl (fun d k => put d k (sink.emitted.bytes.getD k 0)) start) ∧
        ∀ memory, (s.compileOnto t memory).2 = (memory ++ sink.emitted.bytes, .ok sink)
    | (_, .error e) => ∀ memory, (s.compileOnto t memory).2 = (memory, .error e) := by
  split
  · rename_i u info done
    obtain ⟨laid, known⟩ := laidOutCompile done
    have realized := realizesLayout laid
    refine ⟨announcedSizes laid ?_, realized, ?_, laid.fits, ?_, ?_⟩
    · exact (BitVec.ofNat 32 t.limits.maxFunctionBytes).isLt
    · rw [laid.sizes]
      rfl
    · intro σ put start
      rw [deliverOffsets, Emission.size, realized.size]
    · intro memory
      simp only [compileOnto, compileAndEmit, done]
      rw [storeAtEnd]
      simp [note, known, Emission.size, realized.size]
  · rename_i u e failed
    intro memory
    simp only [compileOnto, compileAndEmit, failed]

end Session
end SsaCodegen
