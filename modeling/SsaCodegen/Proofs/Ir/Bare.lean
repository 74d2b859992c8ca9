import SsaCodegen.Proofs.Ir.Narrow
import SsaCodegen.Proofs.Verify.Locations
/-! Functions of the same code: instructions may differ in encodings, pool indices and stack
maps. Neither the structural verifier nor the analyses see those. -/
namespace SsaCodegen
open Structure (shapeMessages)

def Inst.bare (i : Inst) : Inst := { i with imm := 0, enc := {}, safepointSlots := [] }

def Block.bare (bb : Block) : Block := bb.mapInsts Inst.bare

structure SameCode (f g : Func) : Prop where
  blocks : g.blocks.map Block.bare = f.blocks.map Block.bare
  types : g.valueTypes = f.valueTypes
  signature : g.signature = f.signature

theorem Inst.bareReads {i j : Inst} (same : j.bare = i.bare) : j.op = i.op ∧ j.ty = i.ty ∧
    j.result = i.result ∧ j.operands = i.operands ∧ j.targets = i.targets ∧
    j.targetArgs = i.targetArgs := by
  simp only [bare, Inst.mk.injEq] at same
  obtain ⟨result, op, ty, operands, targets, args, -⟩ := same
  exact ⟨op, ty, result, operands, targets, args⟩

theorem Inst.ofBares {insts was : List Inst} (same : insts.map Inst.bare = was.map Inst.bare)
    {k : Nat} {j : Inst} (there : insts[k]? = some j) : ∃ i, was[k]? = some i ∧ j.bare = i.bare := by
  have entries : (insts.map Inst.bare)[k]? = (was.map Inst.bare)[k]? := by rw [same]
  rw [List.getElem?_map, List.getElem?_map, there, Option.map_some] at entries
  obtain ⟨i, first, same⟩ := Option.map_eq_some_iff.mp entries.symm
  exact ⟨i, first, same.symm⟩

theorem Inst.bareUses {i j : Inst} (same : j.bare = i.bare) : j.usedTemps = i.usedTemps := by
  obtain ⟨-, -, -, operands, -, args⟩ := bareReads same
  simp only [usedTemps, uses, operands, args]

theorem shapeMessagesBare (i : Inst) : shapeMessages i.bare = shapeMessages i := rfl

theorem InstNarrows.ofBare {f g : Func} {i j : Inst} (same : j.bare = i.bare)
    (types : g.valueTypes = f.valueTypes) (returns : g.signature = f.signature)
    (sound : SoundInst f i) : InstNarrows g i j := by
  obtain ⟨op, ty, result, operands, targets, args⟩ := Inst.bareReads same
  refine ⟨result, ty, by simp only [Inst.isTerminator, op], fun opens => op ▸ opens,
    fun id used => Inst.bareUses same ▸ used, fun l inside => targets ▸ inside,
    fun e inside => by rwa [targets, args] at inside, ?_, ?_, ?_, ?_⟩
  · rw [← shapeMessagesBare, same, shapeMessagesBare]
    exact sound.shape
  · have callee : j.bare.callee = i.bare.callee := by rw [same]
    have alike : Structure.SameTypes f g i.operands j.operands := by
      rw [operands]
      refine .refl fun v _ hint => Structure.typeOfSame (fun id _ => ?_) hint
      simp only [Func.valueType, types]
    exact (Structure.typeMessagesSame alike op ty callee (fun _ => operands) (by rw [returns])).trans
      sound.types
  · rw [targets, args]
    exact sound.lists
  · rw [Inst.Tidy, Inst.Tidy, targets, args]
    exact id

namespace SameCode
variable {f g h : Func}

theorem refl (f : Func) : SameCode f f := ⟨rfl, rfl, rfl⟩

theorem noted (f : Func) : SameCode f f.noteLayoutChange := ⟨rfl, rfl, rfl⟩

theorem symm (s : SameCode f g) : SameCode g f :=
  ⟨s.blocks.symm, s.types.symm, s.signature.symm⟩

theorem trans (s : SameCode f g) (t : SameCode g h) : SameCode f h :=
  ⟨t.blocks.trans s.blocks, t.types.trans s.types, t.signature.trans s.signature⟩

section
variable (s : SameCode f g)
include s

theorem length : g.blocks.length = f.blocks.length := by
  have lengths := congrArg List.length s.blocks
  rwa [List.length_map, List.length_map] at lengths

theorem blockAt {k : Nat} {b : Block} (located : g.blocks[k]? = some b) :
    ∃ a, f.blocks[k]? = some a ∧ b.label = a.label ∧ b.params = a.params ∧
      b.insts.map Inst.bare = a.insts.map Inst.bare := by
  have entries : (g.blocks.map Block.bare)[k]? = (f.blocks.map Block.bare)[k]? := by rw [s.blocks]
  rw [List.getElem?_map, List.getElem?_map, located, Option.map_some] at entries
  obtain ⟨a, old, same⟩ := Option.map_eq_some_iff.mp entries.symm
  simp only [Block.bare, Block.mapInsts, Block.mk.injEq] at same
  exact ⟨a, old, same.1.symm, same.2.1.symm, same.2.2.symm⟩

theorem narrows (ok : WellFormed f) : Narrows f g where
  signature := s.signature
  types := s.types
  length := s.length
  blocks k b located := by
    obtain ⟨a, old, label, params, insts⟩ := s.blockAt located
    have lengths := congrArg List.length insts
    rw [List.length_map, List.length_map] at lengths
    refine ⟨a, old, label, params, lengths, fun m j there => ?_⟩
    obtain ⟨i, was, same⟩ := Inst.ofBares insts there
    exact ⟨i, was, .ofBare same s.types s.signature
      (ok.sound a (List.mem_of_getElem? old) i (List.mem_of_getElem? was))⟩

end

theorem wellFormed (s : SameCode f g) (ok : WellFormed f) : WellFormed g := ok.narrow (s.narrows ok)

theorem clean (s : SameCode f g) (clean : Clean f) : Clean g :=
  clean.narrow (s.narrows clean.wellFormed)

end SameCode

def Inst.core (i : Inst) : Inst :=
  { i with imm := if i.op = .fconst then 0 else i.imm, enc := {}, safepointSlots := [] }

structure SameCore (f g : Func) : Prop where
  blocks : g.blocks.map (Block.mapInsts Inst.core) = f.blocks.map (Block.mapInsts Inst.core)
  types : g.valueTypes = f.valueTypes
  signature : g.signature = f.signature

namespace SameCore
variable {f g h : Func}

theorem noted (f : Func) : SameCore f f.noteLayoutChange := ⟨rfl, rfl, rfl⟩

theorem trans (s : SameCore f g) (t : SameCore g h) : SameCore f h :=
  ⟨t.blocks.trans s.blocks, t.types.trans s.types, t.signature.trans s.signature⟩

theorem toSameCode (s : SameCore f g) : SameCode f g where
  blocks := by
    have bare : Block.bare = Block.bare ∘ Block.mapInsts Inst.core := by
      funext bb
      simp [Block.bare, Block.mapInsts, Function.comp_def, Inst.bare, Inst.core]
    rw [bare, ← List.map_map, s.blocks, List.map_map]
  types := s.types
  signature := s.signature

end SameCore

/-! What the analyses compute from a function is what they compute from its bare code. -/

def Func.bare (f : Func) : Func := f.mapInsts Inst.bare

theorem terminatorBare (bb : Block) : bb.bare.terminator? = bb.terminator?.map Inst.bare := by
  simp only [Block.terminator?, Block.bare, Block.mapInsts, List.getLast?_map]
  cases bb.insts.getLast? with
  | none => rfl
  | some t =>
    have same : t.bare.isTerminator = t.isTerminator := rfl
    cases ends : t.isTerminator <;> simp [Option.filter, same, ends]

theorem graphBare (f : Func) : FlowGraph.ofFunc f.bare = FlowGraph.ofFunc f := by
  have targets (bb : Block) : FlowGraph.targetsOf f.bare bb.bare = FlowGraph.targetsOf f bb := by
    have find (label : String) : f.bare.findBlock? label = f.findBlock? label :=
      Func.findBlockMapInsts ..
    simp only [FlowGraph.targetsOf, terminatorBare]
    cases bb.terminator? with
    | none => rfl
    | some t => simp only [Option.map_some, Inst.bare, funext find]
  have succs : f.bare.blocks.map (FlowGraph.targetsOf f.bare) =
      f.blocks.map (FlowGraph.targetsOf f) := by
    simp only [Func.bare, Func.mapInsts, Func.mapBlocks, List.map_map]
    exact List.map_congr_left fun bb _ => targets bb
  have length : f.bare.blocks.length = f.blocks.length := List.length_map ..
  simp only [FlowGraph.ofFunc, succs, length]

theorem livenessBare (f : Func) (g : FlowGraph) : Liveness.ofFunc f.bare g = Liveness.ofFunc f g := by
  refine Liveness.ofFuncSame (f := f) (g := f.bare) rfl ?_ g
  have notes (sets : Words × Words) (bb : Block) :
      Liveness.noteBlock f.numValues sets bb.bare = Liveness.noteBlock f.numValues sets bb := by
    simp only [Liveness.noteBlock, Block.bare, Block.mapInsts, List.foldl_map]
    rfl
  simp only [Func.bare, Func.mapInsts, Func.mapBlocks]
  exact List.forall₂_map_right_iff.mpr (List.forall₂_same.mpr fun bb _ sets => notes sets bb)

theorem liveFromBare (size : Nat) (out : List Nat) (insts : List Inst) :
    liveFrom size out (insts.map Inst.bare) = liveFrom size out insts := by
  simp only [liveFrom, List.foldr_map]
  rfl

theorem Func.liveAtBare (f : Func) (b i : Nat) : f.bare.liveAt b i = f.liveAt b i := by
  have insts : (f.bare.block b).insts = (f.block b).insts.map Inst.bare := by
    simp only [Func.block, Func.bare, Func.mapInsts, Func.mapBlocks, List.getD_eq_getElem?_getD,
      List.getElem?_map]
    cases f.blocks[b]? <;> rfl
  simp only [Func.liveAt, livenessBare, graphBare, insts, ← List.map_drop, liveFromBare]
  rfl

namespace SameCode
variable {f g : Func} (s : SameCode f g)
include s

theorem bareBlocks : g.bare.blocks = f.bare.blocks := s.blocks

theorem graph : FlowGraph.ofFunc g = FlowGraph.ofFunc f := by
  have onBlocks (h : Func) : FlowGraph.ofFunc h = FlowGraph.ofFunc { blocks := h.blocks } := rfl
  rw [← graphBare g, ← graphBare f, onBlocks g.bare, onBlocks f.bare, s.bareBlocks]

theorem liveAt (b i : Nat) : g.liveAt b i = f.liveAt b i := by
  have onBlocks (h : Func) : h.liveAt b i =
      ({ blocks := h.blocks, valueTypes := h.valueTypes } : Func).liveAt b i := rfl
  have types : g.bare.valueTypes = f.bare.valueTypes := s.types
  rw [← g.liveAtBare, ← f.liveAtBare, onBlocks g.bare, onBlocks f.bare, s.bareBlocks, types]

end SameCode
end SsaCodegen
