import SsaCodegen.Proofs.Layout.Sizes
/-! What relaxation leaves behind. Blocks lie one behind the other from offset zero, each
as long as its instructions in the forms chosen last, and the constant pool follows. -/
namespace SsaCodegen.X64
open Layout

def codeSize (f : Func) (insts : List Inst) : Nat :=
  insts.foldr (fun inst size => instructionSize f inst + size) 0

theorem codeSizeAppend (f : Func) (a b : List Inst) :
    codeSize f (a ++ b) = codeSize f a + codeSize f b := by
  induction a with
  | nil => simp [codeSize]
  | cons inst rest ih =>
    simp only [codeSize, List.cons_append, List.foldr_cons] at *
    omega

theorem codeSizeSame {f g : Func} (same : SameHeaders f g) (insts : List Inst) :
    codeSize f insts = codeSize g insts := by
  simp only [codeSize, instructionSizeSame same]

theorem codeSizeLowered (f : Func) (insts : List Inst) :
    codeSize f insts = Asm.sizes (insts.flatMap (lowerInst f)) := by
  induction insts with
  | nil => rfl
  | cons inst rest ih =>
    rw [List.flatMap_cons, Asm.sizesAppend, ← ih, ← sizeAssemble 0]
    rfl

def startsFrom (offset : Nat) : List Nat → List Nat
  | [] => []
  | size :: rest => offset :: startsFrom (offset + size) rest

def endFrom (offset : Nat) : List Nat → Nat
  | [] => offset
  | size :: rest => endFrom (offset + size) rest

theorem placeBlocksDone {limit offset codeEnd : Nat} {sizes old offsets : List Nat}
    (placed : placeBlocks limit offset sizes old = (offsets, some codeEnd)) :
    offsets = startsFrom offset sizes ∧ codeEnd = endFrom offset sizes := by
  induction sizes generalizing offset old offsets with
  | nil =>
    cases placed
    exact ⟨rfl, rfl⟩
  | cons size rest ih =>
    simp only [placeBlocks] at placed
    split at placed
    · cases placed
    · generalize later : placeBlocks limit (offset + size) rest old.tail = result at placed
      obtain ⟨tail, done⟩ := result
      simp only [Prod.mk.injEq] at placed
      obtain ⟨rfl, rfl⟩ := placed
      obtain ⟨starts, ends⟩ := ih later
      exact ⟨congrArg (offset :: ·) starts, ends⟩

theorem startsFromAt {offset : Nat} {before : List Nat} {size : Nat} {after : List Nat} :
    (startsFrom offset (before ++ size :: after))[before.length]? =
      some (endFrom offset before) := by
  induction before generalizing offset with
  | nil => rfl
  | cons s rest ih => simpa [startsFrom, endFrom] using ih

theorem startsFromTake {offset : Nat} {sizes : List Nat} {b : Nat} (inside : b < sizes.length) :
    (startsFrom offset sizes)[b]? = some (endFrom offset (sizes.take b)) := by
  have there := @startsFromAt offset (sizes.take b) sizes[b] (sizes.drop (b + 1))
  rwa [List.length_take_of_le (Nat.le_of_lt inside), ← List.drop_eq_getElem_cons inside,
    List.take_append_drop] at there

theorem lengthStarts (offset : Nat) (sizes : List Nat) : (startsFrom offset sizes).length = sizes.length := by
  induction sizes generalizing offset with
  | nil => rfl
  | cons size rest ih => exact congrArg (· + 1) (ih _)

theorem placeWithin {limit offset : Nat} {sizes : List Nat} (old : List Nat)
    (within : ∀ start ∈ startsFrom offset sizes, start ≤ limit) :
    placeBlocks limit offset sizes old = (startsFrom offset sizes, some (endFrom offset sizes)) := by
  induction sizes generalizing offset old with
  | nil => rfl
  | cons size rest ih =>
    have first := within offset List.mem_cons_self
    have later := ih old.tail fun start listed => within start (List.mem_cons_of_mem _ listed)
    simp only [placeBlocks, if_neg (Nat.not_lt.mpr first), later]
    rfl

theorem placeBeyond {limit offset start : Nat} {sizes : List Nat} (old : List Nat)
    (listed : start ∈ startsFrom offset sizes) (beyond : limit < start) : ∃ offsets,
      placeBlocks limit offset sizes old = (offsets, none) := by
  induction sizes generalizing offset old with
  | nil => cases listed
  | cons size rest ih =>
    unfold placeBlocks
    split
    · exact ⟨old, rfl⟩
    · rename_i inside
      rcases List.mem_cons.mp listed with rfl | later
      · exact absurd beyond inside
      · obtain ⟨offsets, placed⟩ := ih old.tail later
        exact ⟨offset :: offsets, by rw [placed]⟩

theorem endFromBlocks (f : Func) (offset : Nat) (blocks : List Block) :
    endFrom offset (blocks.map (blockSize f)) = offset + codeSize f (blocks.flatMap Block.insts) := by
  induction blocks generalizing offset with
  | nil => rfl
  | cons bb rest ih =>
    rw [List.map_cons, endFrom, ih, List.flatMap_cons, codeSizeAppend, ← Nat.add_assoc]
    rfl

structure Placed (f : Func) (codeEnd : Nat) : Prop where
  starts : f.blockOffsets = startsFrom 0 (f.blocks.map (blockSize f))
  ends : codeEnd = codeSize f f.insts

theorem Placed.ofSizes {f : Func} {codeEnd : Nat}
    (starts : f.blockOffsets = startsFrom 0 (f.blocks.map (blockSize f)))
    (ends : codeEnd = endFrom 0 (f.blocks.map (blockSize f))) : Placed f codeEnd :=
  ⟨starts, by rw [ends, endFromBlocks, Nat.zero_add]; rfl⟩

theorem Placed.start {f : Func} {codeEnd b : Nat} {bb : Block} {before after : List Block}
    (placed : Placed f codeEnd) (split : f.blocks = before ++ bb :: after)
    (place : before.length = b) :
    f.blockOffsets[b]? = some (codeSize f (before.flatMap Block.insts)) := by
  have sizes : (before.map (blockSize f)).length = b := by rw [List.length_map, place]
  rw [placed.starts, split, List.map_append, List.map_cons, ← sizes, startsFromAt, endFromBlocks,
    Nat.zero_add]

theorem headersWiden (f : Func) (offset : Nat) (blocks : List Block) :
    (widenBlocks f offset blocks).map Block.label = blocks.map Block.label ∧
    (widenBlocks f offset blocks).map Block.params = blocks.map Block.params := by
  induction blocks generalizing offset with
  | nil => exact ⟨rfl, rfl⟩
  | cons bb rest ih => simp [widenBlocks, ih]

theorem headersInit (blocks : List Block) :
    (initBlocks blocks).map Block.label = blocks.map Block.label ∧
    (initBlocks blocks).map Block.params = blocks.map Block.params := by
  induction blocks with
  | nil => exact ⟨rfl, rfl⟩
  | cons bb rest ih => simp [initBlocks, ih, Block.mapInsts]

theorem relaxDone {limit rounds codeEnd : Nat} {f g : Func}
    (done : relax limit rounds f = (g, .ok codeEnd)) : SameHeaders f g ∧ Placed g codeEnd := by
  induction rounds generalizing f with
  | zero => simp [relax] at done
  | succ rounds ih =>
    simp only [relax] at done
    generalize placing : placeBlocks limit 0 (f.blocks.map (blockSize f)) f.blockOffsets = placed at done
    obtain ⟨offsets, stopped⟩ := placed
    cases stopped with
    | none => simp at done
    | some last =>
      obtain ⟨starts, ends⟩ := placeBlocksDone placing
      have moved : SameHeaders f { f with blockOffsets := offsets } :=
        ⟨rfl, rfl, rfl, rfl, rfl, rfl, rfl⟩
      simp only at done
      split at done
      · simp only [Prod.mk.injEq, Except.ok.injEq] at done
        obtain ⟨rfl, rfl⟩ := done
        have sizes : f.blocks.map (blockSize f) =
            f.blocks.map (blockSize { f with blockOffsets := offsets }) :=
          List.map_congr_left fun bb _ => blockSizeSame moved bb
        exact ⟨moved, .ofSizes (starts.trans (by rw [sizes])) (ends.trans (by rw [sizes]))⟩
      · obtain ⟨same, placed⟩ := ih done
        have widened : SameHeaders f
            { f with blockOffsets := offsets
                     blocks := widenBlocks { f with blockOffsets := offsets } 0 f.blocks } :=
          ⟨rfl, rfl, rfl, rfl, rfl, (headersWiden _ _ _).1.symm, (headersWiden _ _ _).2.symm⟩
        exact ⟨widened.trans same, placed⟩

structure LaidOut (limit : Nat) (f : Func) (info : CodeInfo) : Prop where
  placed : ∃ codeEnd, Placed f codeEnd ∧ f.constantPoolOffset = poolOffset f.constants codeEnd
  sizes : info = ⟨f.constantPoolOffset, 0, 8 * f.constants.length,
    f.constantPoolOffset + 8 * f.constants.length⟩
  fits : info.totalSize ≤ limit

theorem laidOutRelax {limits : Limits} {f g : Func} {info : CodeInfo}
    (done : relaxBranches limits f = (g, .ok info)) : LaidOut limits.functionLimit g info := by
  simp only [relaxBranches] at done
  generalize relaxing : relax _ _ _ = relaxed at done
  obtain ⟨h, result⟩ := relaxed
  cases result with
  | error e => simp at done
  | ok codeEnd =>
    obtain ⟨-, placed⟩ := relaxDone relaxing
    simp only at done
    split at done
    · simp at done
    · rename_i fits
      simp only [Prod.mk.injEq, Except.ok.injEq] at done
      obtain ⟨rfl, rfl⟩ := done
      have pooled : SameHeaders h
          { h with constantPoolOffset := poolOffset h.constants codeEnd } :=
        ⟨rfl, rfl, rfl, rfl, rfl, rfl, rfl⟩
      have sizes : h.blocks.map (blockSize h) = h.blocks.map
          (blockSize { h with constantPoolOffset := poolOffset h.constants codeEnd }) :=
        List.map_congr_left fun bb _ => blockSizeSame pooled bb
      have code := placed.ends.trans (codeSizeSame pooled h.insts)
      exact ⟨⟨codeEnd, ⟨placed.starts.trans (by rw [sizes]), code⟩, rfl⟩, rfl,
        Nat.le_of_not_lt fits⟩

end SsaCodegen.X64
