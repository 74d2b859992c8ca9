import SsaCodegen.Proofs.Layout.Frame
import SsaCodegen.X64.Layout
import SsaCodegen.X64.Shrink
/-! Choices of form. Shrinking and relaxation change the bits of encodings and the offsets of
blocks, and nothing that a verifier reads. -/
namespace SsaCodegen

def Inst.formless (i : Inst) : Inst := { i with enc := { i.enc with bits := 0 } }

def Func.formless (f : Func) : Func :=
  { f.mapInsts Inst.formless with blockOffsets := [], constantPoolOffset := 0 }

def Reformed (f g : Func) : Prop := g.formless = f.formless

namespace Reformed
variable {f g h : Func}

theorem refl (f : Func) : Reformed f f := rfl

theorem trans (a : Reformed f g) (b : Reformed g h) : Reformed f h := Eq.trans b a

theorem ofBlocks {blocks : List Block} (offsets : List Nat) (pool : Nat)
    (same : blocks.map (Block.mapInsts Inst.formless) = f.blocks.map (Block.mapInsts Inst.formless)) :
    Reformed f { f with blocks := blocks, blockOffsets := offsets, constantPoolOffset := pool } := by
  simp only [Reformed, Func.formless, Func.mapInsts, Func.mapBlocks, same]

variable (r : Reformed f g)
include r

theorem reads {α : Type} (read : Func → α) : read g.formless = read f.formless := congrArg read r

theorem sameCode : SameCode f g := by
  have bare (bb : Block) : (bb.mapInsts Inst.formless).bare = bb.bare := by
    simp only [Block.bare, Block.mapInsts, List.map_map]
    rfl
  refine ⟨?_, r.reads Func.valueTypes, r.reads Func.signature⟩
  have bares := r.reads fun f => f.blocks.map Block.bare
  simpa only [Func.formless, Func.mapInsts, Func.mapBlocks, List.map_map, Function.comp_def,
    bare] using bares

theorem locations : g.locations = f.locations := r.reads Func.locations

theorem stackSlots : g.stackSlots = f.stackSlots := r.reads Func.stackSlots

theorem frame : g.frame = f.frame := r.reads Func.frame

theorem constants : g.constants = f.constants := r.reads Func.constants

theorem version : g.layoutVersion = f.layoutVersion := r.reads Func.layoutVersion

theorem instAt {b k : Nat} {bb : Block} {j : Inst} (located : g.blocks[b]? = some bb)
    (there : bb.insts[k]? = some j) : ∃ a i, f.blocks[b]? = some a ∧ a.insts[k]? = some i ∧
      j.formless = i.formless := by
  have pair := r.reads (·.blocks[b]?)
  simp only [Func.formless, Func.mapInsts, Func.mapBlocks, List.getElem?_map, located,
    Option.map_some] at pair
  obtain ⟨a, old, same⟩ := Option.map_eq_some_iff.mp pair.symm
  have insts := congrArg (·[k]?) (congrArg Block.insts same)
  simp only [Block.mapInsts, List.getElem?_map, there, Option.map_some] at insts
  obtain ⟨i, was, same⟩ := Option.map_eq_some_iff.mp insts
  exact ⟨a, i, old, was, same.symm⟩

theorem mem {j : Inst} (inside : j ∈ g.insts) : ∃ i ∈ f.insts, j.formless = i.formless := by
  obtain ⟨bb, there, listed⟩ := List.mem_flatMap.mp inside
  obtain ⟨b, located⟩ := List.getElem?_of_mem there
  obtain ⟨k, place⟩ := List.getElem?_of_mem listed
  obtain ⟨a, i, old, was, same⟩ := r.instAt located place
  exact ⟨i, Func.memInsts (List.mem_of_getElem? old) (List.mem_of_getElem? was), same⟩

end Reformed

section
variable {i j : Inst} (same : j.formless = i.formless)
include same

theorem formlessRead {α : Type} (read : Inst → α) : read j.formless = read i.formless :=
  congrArg read same

theorem formlessBare : j.bare = i.bare := formlessRead same Inst.bare

theorem formlessRecipe : j.enc.recipe = i.enc.recipe := formlessRead same fun i => i.enc.recipe

end

theorem Reformed.located {regs : RegisterFile} {f g : Func} (r : Reformed f g) (ok : WellFormed f)
    (fits : Located regs f) : Located regs g := by
  have code := r.sameCode
  have narrows := code.narrows ok
  have same : SamePlaces f g :=
    .ofFields r.locations code.types (congrArg List.length r.stackSlots)
  constructor
  case sized => rw [r.locations, fits.sized, Func.numValues, Func.numValues, code.types]
  case framed =>
    intro laid entry rest blocks
    have heads := r.reads fun f => f.blocks.head?.map fun bb => bb.insts.head?.map Inst.op
    simp only [Func.formless, Func.mapInsts, Func.mapBlocks, Block.mapInsts, List.head?_map,
      Option.map_map, blocks, List.head?_cons, Option.map_some, Function.comp_def] at heads
    cases start : f.blocks with
    | nil => simp [start] at heads
    | cons a others =>
      have opens := fits.framed (r.frame ▸ laid) a others start
      simp only [start, List.head?_cons, Option.map_some, Option.some.injEq] at heads
      exact heads.trans opens
  case encoded =>
    intro b inside j listed
    obtain ⟨i, held, same⟩ := r.mem (Func.memInsts inside listed)
    obtain ⟨a, there, within⟩ := List.mem_flatMap.mp held
    rw [Encoding.isLegal, formlessRecipe same]
    exact fits.encoded a there i within
  case placed => exact fun id defined => same.placed (fits.placed id (narrows.definedIds ▸ defined))
  case keeps =>
    intro b k j there below
    obtain ⟨a, i, old, was, formless⟩ := r.instAt (Func.blockBelow below) there
    rw [code.liveAt]
    have keeps := fits.keeps b k i (by rwa [Func.blockAt old]) (code.length ▸ below)
    exact same.keepsLive keeps (formlessRead formless Inst.op) (formlessRead formless Inst.result)
      (formlessRead formless Inst.safepointSlots)
  case params =>
    intro b below
    obtain ⟨a, old, -, params, -⟩ := code.blockAt (Func.blockBelow below)
    have keeps := fits.params b (code.length ▸ below)
    rw [Func.blockAt old, ← code.liveAt] at keeps
    exact same.paramsKeepLive keeps (congrArg (List.map Param.id) params)

theorem Reformed.edges {f g : Func} (r : Reformed f g) :
    g.blocks.map Block.edges = f.blocks.map Block.edges := by
  have edges (bb : Block) : (bb.mapInsts Inst.formless).edges = bb.edges := by
    have same : (bb.mapInsts Inst.formless).targets = bb.targets := by
      refine targetsOfExits ?_
      rw [Block.mapInsts, List.map_map]
      rfl
    rw [Block.edges, same]
    rfl
  have all := r.reads fun f => f.blocks.map Block.edges
  simpa only [Func.formless, Func.mapInsts, Func.mapBlocks, List.map_map, Function.comp_def,
    edges] using all

namespace X64

theorem Fitted.reform {f g : Func} (ok : Fitted f) (r : Reformed f g) : Fitted g := by
  intro j inside
  obtain ⟨i, held, same⟩ := r.mem inside
  obtain ⟨op, ty, -, operands, -, args⟩ := Inst.bareReads (formlessBare same)
  refine (ok i held).recast (.ofSame op ty (formlessRead same Inst.imm) operands args r.constants
    fun id _ => ?_) (formlessRecipe same)
  rw [Func.valueType, Func.valueType, r.sameCode.types]

theorem shrinkReforms (f : Func) : Reformed f (shrinkInstructions f).1 := by
  refine Reformed.ofBlocks f.blockOffsets f.constantPoolOffset ?_
  have same (i : Inst) : (Shrink.shrinkInst f i).formless = i.formless := by
    unfold Shrink.shrinkInst
    split
    · simp only [Inst.formless, Encoding.makeCompact]
      split <;> rfl
    · rfl
  simp only [List.map_map]
  refine List.map_congr_left fun bb _ => ?_
  simp [Block.mapInsts, Function.comp_def, same]

namespace Layout

theorem initBranchFormless (next : Option String) (i : Inst) :
    (initBranch next i).formless = i.formless := by
  unfold initBranch
  split
  · rfl
  · split <;> rfl

theorem widenEdgeFormless (f : Func) (edge : Edge) (label : String) (branchEnd : Int) (i : Inst) :
    (widenEdge f edge label branchEnd i).formless = i.formless := by
  unfold widenEdge
  split <;> rfl

theorem widenBranchFormless (f : Func) (instEnd : Nat) (i : Inst) :
    (widenBranch f instEnd i).formless = i.formless := by
  unfold widenBranch
  split
  · rfl
  · split
    · exact widenEdgeFormless ..
    · exact (widenEdgeFormless ..).trans (widenEdgeFormless ..)
    · exact (widenEdgeFormless ..).trans (widenEdgeFormless ..)
    · rfl

theorem initBlocksFormless (blocks : List Block) :
    (initBlocks blocks).map (Block.mapInsts Inst.formless) =
    blocks.map (Block.mapInsts Inst.formless) := by
  induction blocks with
  | nil => rfl
  | cons bb rest ih =>
    refine List.cons_eq_cons.mpr ⟨?_, ih⟩
    simp [Block.mapInsts, Function.comp_def, initBranchFormless]

theorem widenInstsFormless (f : Func) (offset : Nat) (insts : List Inst) :
    (widenInsts f offset insts).map Inst.formless = insts.map Inst.formless := by
  induction insts generalizing offset with
  | nil => rfl
  | cons i rest ih =>
    refine List.cons_eq_cons.mpr ⟨?_, ih _⟩
    split
    · exact widenBranchFormless ..
    · rfl

theorem widenBlocksFormless (f : Func) (offset : Nat) (blocks : List Block) :
    (widenBlocks f offset blocks).map (Block.mapInsts Inst.formless) =
      blocks.map (Block.mapInsts Inst.formless) := by
  induction blocks generalizing offset with
  | nil => rfl
  | cons bb rest ih =>
    refine List.cons_eq_cons.mpr ⟨?_, ih _⟩
    rw [Block.mapInsts, widenInstsFormless]
    rfl

theorem relaxReforms (limit rounds : Nat) (f : Func) : Reformed f (relax limit rounds f).1 := by
  induction rounds generalizing f with
  | zero => exact .refl f
  | succ rounds ih =>
    unfold relax
    dsimp only
    split
    · exact .ofBlocks _ _ rfl
    · split
      · exact .ofBlocks _ _ rfl
      · exact Reformed.trans (.ofBlocks _ _ (widenBlocksFormless ..)) (ih _)

theorem relaxKind {limit rounds : Nat} {f g : Func} {e : Failure}
    (failed : relax limit rounds f = (g, .error e)) : e.kind = .codeTooLarge := by
  induction rounds generalizing f with
  | zero =>
    cases failed
    rfl
  | succ rounds ih =>
    simp only [relax] at failed
    split at failed
    · cases failed
      rfl
    · split at failed
      · cases failed
      · exact ih failed

end Layout

open Layout

theorem relaxBranchesReforms (limits : Limits) (f : Func) : Reformed f (relaxBranches limits f).1 := by
  have start : Reformed f { f with
      blocks := initBlocks f.blocks, blockOffsets := List.replicate f.blocks.length 0 } :=
    .ofBlocks _ _ (initBlocksFormless f.blocks)
  have relaxed := start.trans (relaxReforms limits.functionLimit (roundsFor f) _)
  unfold relaxBranches
  dsimp only
  split
  · exact relaxed
  · split
    · exact relaxed
    · exact relaxed.trans (.ofBlocks _ _ rfl)

theorem relaxBranchesKind {limits : Limits} {f g : Func} {e : Failure}
    (failed : relaxBranches limits f = (g, .error e)) : e.kind = .codeTooLarge := by
  simp only [relaxBranches] at failed
  generalize relaxing : relax _ _ _ = relaxed at failed
  obtain ⟨h, result⟩ := relaxed
  cases result with
  | error e' =>
    cases failed
    exact relaxKind relaxing
  | ok codeEnd =>
    simp only at failed
    split at failed
    · cases failed
      rfl
    · cases failed

end X64
end SsaCodegen
