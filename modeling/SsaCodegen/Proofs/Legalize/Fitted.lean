import Mathlib.Data.List.InsertIdx
import SsaCodegen.Proofs.Legalize.Encodings
import SsaCodegen.Proofs.Opt.CompareBranch
import SsaCodegen.Proofs.Opt.DeadCode
import SsaCodegen.Proofs.Opt.LoopInvariant
import SsaCodegen.Proofs.Opt.Unreachable
import SsaCodegen.Proofs.Opt.ValueNumbering
import SsaCodegen.Proofs.RegAlloc.Allocation
/-! Encodings that fit. Legalization gives each instruction the recipe of its opcode, once it
has seen that the target can build it. What it looked at is kept by the passes after it. -/
namespace SsaCodegen
namespace X64

def Fits (f : Func) (i : Inst) : Prop := ∃ enc, encode? f i = some enc ∧ i.enc.recipe = enc.recipe

def Fitted (f : Func) : Prop := ∀ i ∈ f.insts, Fits f i

structure Recast (f g : Func) (i j : Inst) : Prop where
  op : j.op = i.op
  ty : j.ty = i.ty
  imm : j.imm = i.imm
  types : j.operands.map (operandTy g) = i.operands.map (operandTy f)
  pooled : i.op = .fconst → j.operands = i.operands
  constants : g.constants = f.constants
  floats : hasFloatConst j = hasFloatConst i
  args : j.targetArgs.all List.isEmpty = i.targetArgs.all List.isEmpty

theorem encodeRecast {f g : Func} {i j : Inst} (r : Recast f g i j) : encode? g j = encode? f i := by
  have same : encodable g j (.ofOpcode i.op) = encodable f i (.ofOpcode i.op) := by
    cases op : i.op
    case fconst =>
      simp only [Recipe.ofOpcode, encodable, pooledConstant, r.pooled op, r.constants, r.imm]
    all_goals simp only [Recipe.ofOpcode, encodable, r.ty, r.imm, r.types, r.args]
  simp only [encode?, r.op, r.floats, same]

theorem Fits.recast {f g : Func} {i j : Inst} (fits : Fits f i) (r : Recast f g i j)
    (recipe : j.enc.recipe = i.enc.recipe) : Fits g j := by
  obtain ⟨enc, encoded, own⟩ := fits
  exact ⟨enc, (encodeRecast r).trans encoded, recipe.trans own⟩

theorem Fits.recipe {f : Func} {i : Inst} (fits : Fits f i) :
    i.enc.recipe? = some (.ofOpcode i.op) := by
  obtain ⟨enc, encoded, own⟩ := fits
  unfold encode? at encoded
  dsimp only at encoded
  split at encoded
  · cases encoded
  · split at encoded
    · cases encoded
      rw [Encoding.recipe?, own]
      exact Recipe.numberRead _
    · cases encoded

theorem Fits.legal {f : Func} {i : Inst} (fits : Fits f i) : i.enc.isLegal = true := by
  obtain ⟨enc, encoded, own⟩ := fits
  have legal := encodeLegal encoded
  rwa [Encoding.isLegal, ← own] at legal

theorem Fits.encodable {f : Func} {i : Inst} (fits : Fits f i) :
    encodable f i (.ofOpcode i.op) = true := by
  obtain ⟨enc, encoded, -⟩ := fits
  unfold encode? at encoded
  dsimp only at encoded
  split at encoded
  · cases encoded
  · split at encoded
    · assumption
    · cases encoded

section Encodable
variable {f : Func} {i : Inst} (fits : Fits f i)
include fits

theorem literalsConstant (literal : hasFloatConst i = true) : i.op = .fconst := by
  obtain ⟨enc, encoded, -⟩ := fits
  unfold encode? at encoded
  dsimp only at encoded
  split at encoded
  · cases encoded
  · rename_i pass
    simpa [literal] using pass

theorem edgesBare (branch : i.op ∈ [.brif, .brIcmp]) : ∀ args ∈ i.targetArgs, args = [] := by
  have bare : i.targetArgs.all List.isEmpty = true := by
    have able := fits.encodable
    rcases List.mem_pair.mp branch with op | op <;> simpa only [op, Recipe.ofOpcode, encodable] using able
  exact fun args listed => List.isEmpty_iff.mp (List.all_eq_true.mp bare args listed)

theorem selectsInteger (op : i.op = .select) : i.ty ≠ .f64 := by
  have able := fits.encodable
  simp only [op, Recipe.ofOpcode, encodable] at able
  rintro ty
  rw [ty] at able
  cases able

end Encodable

theorem constantPooled {f : Func} {inst : Inst} (fits : Fits f inst) (fit : FitInst f inst)
    (op : inst.op = .fconst) : ∃ bits, inst.operands = [.float bits] ∧ 0 ≤ inst.imm ∧
      f.constants[inst.imm.toNat]? = some bits := by
  obtain ⟨v, operands, -⟩ := constantOperand fit (by rw [op]; rfl)
  have types := fit.types
  have pooled := fits.encodable
  simp only [Structure.typeMessages, op, operands, Structure.firstOperand, List.append_eq_nil_iff,
    complainUnlessIff] at types
  cases v with
  | float bits =>
    simp only [op, Recipe.ofOpcode, encodable, pooledConstant, operands, Value.floatBits,
      Bool.and_eq_true, decide_eq_true_eq, beq_iff_eq] at pooled
    exact ⟨bits, operands, pooled⟩
  | _ => cases types.1

section Recasts
variable {f g : Func} {i j : Inst}

theorem sameOperandTy {v : Value} (same : ∀ id, v = .temp id → g.valueType id = f.valueType id) :
    operandTy g v = operandTy f v := by
  cases v with
  | temp id => exact same id rfl
  | _ => rfl

theorem Recast.ofSame (op : j.op = i.op) (ty : j.ty = i.ty) (imm : j.imm = i.imm)
    (operands : j.operands = i.operands) (args : j.targetArgs = i.targetArgs)
    (constants : g.constants = f.constants)
    (types : ∀ id ∈ i.usedTemps, g.valueType id = f.valueType id) : Recast f g i j := by
  refine ⟨op, ty, imm, ?_, fun _ => operands, constants, ?_, by rw [args]⟩
  · rw [operands]
    refine List.map_congr_left fun v listed => sameOperandTy fun id same => ?_
    exact types id (Inst.operandUsed (same ▸ listed))
  · simp only [hasFloatConst, Inst.uses, operands, args]

theorem Fits.stays (fits : Fits f i) (types : g.valueTypes = f.valueTypes)
    (constants : g.constants = f.constants) : Fits g i := by
  refine fits.recast (.ofSame rfl rfl rfl rfl rfl constants fun id _ => ?_) rfl
  simp only [Func.valueType, types]

theorem Recast.ofFollow {lead : Nat → Option Nat} (fit : FitInst f i)
    (types : g.valueTypes = f.valueTypes) (constants : g.constants = f.constants)
    (leads : ∀ id l, lead id = some l → f.valueType l = f.valueType id) :
    Recast f g i (i.mapUses (follow lead)) := by
  have followed (v : Value) : operandTy g (follow lead v) = operandTy f v := by
    cases v with
    | temp id =>
      have typed : f.valueType ((lead id).getD id) = f.valueType id := by
        cases found : lead id with
        | none => rfl
        | some l => exact leads id l found
      simpa only [follow, operandTy, Func.valueType, types] using typed
    | _ => rfl
  have float : Value.isFloatConst ∘ follow lead = Value.isFloatConst :=
    funext fun v => by cases v <;> rfl
  have empty : List.isEmpty ∘ List.map (follow lead) = List.isEmpty :=
    funext fun args => List.isEmpty_map
  refine ⟨rfl, rfl, rfl, ?_, fun op => ?_, constants, ?_, ?_⟩
  · rw [Inst.mapUses, List.map_map]
    exact List.map_congr_left fun v _ => followed v
  · obtain ⟨v, operands, literal⟩ := constantOperand fit (by rw [op]; rfl)
    simp only [Inst.mapUses, operands, List.map_cons, List.map_nil, followFixed literal]
  · rw [hasFloatConst, Inst.usesMapUses, List.any_map, float, hasFloatConst]
  · rw [Inst.mapUses, List.all_map, empty]

end Recasts

theorem Fitted.encoded {f : Func} (ok : Fitted f) : Encoded f := fun i inside => (ok i inside).legal

theorem Fitted.part {f g : Func} (ok : Fitted f) (types : g.valueTypes = f.valueTypes)
    (constants : g.constants = f.constants) (part : ∀ i ∈ g.insts, i ∈ f.insts) : Fitted g :=
  fun i inside => (ok i (part i inside)).stays types constants

namespace Legalize

theorem encodeInstsOwn {f : Func} {insts : List Inst} (done : (encodeInsts f insts).2 = none) :
    ∀ i ∈ (encodeInsts f insts).1, encode? f i = some i.enc := by
  induction insts with
  | nil => exact fun i absent => absurd absent List.not_mem_nil
  | cons inst rest ih =>
    unfold encodeInsts at done ⊢
    cases encoded : encode? f inst with
    | none => rw [encoded] at done; cases done
    | some enc =>
      rw [encoded] at done
      intro i listed
      rcases List.mem_cons.mp listed with rfl | later
      · refine (encodeRecast ?_).trans encoded
        exact .ofSame rfl rfl rfl rfl rfl rfl fun _ _ => rfl
      · exact ih done i later

theorem encodeBlocksOwn {f : Func} {blocks : List Block}
    (done : (encodeBlocks f blocks).2 = .ok ()) :
    ∀ bb ∈ (encodeBlocks f blocks).1, ∀ i ∈ bb.insts, encode? f i = some i.enc := by
  induction blocks with
  | nil => exact fun bb absent => absurd absent List.not_mem_nil
  | cons bb rest ih =>
    unfold encodeBlocks at done ⊢
    cases failed : (encodeInsts f bb.insts).2 with
    | some inst => simp [failed] at done
    | none =>
      simp only [failed] at done ⊢
      intro b listed
      rcases List.mem_cons.mp listed with rfl | later
      · exact encodeInstsOwn failed
      · exact ih done b later

end Legalize

open Legalize in
theorem legalizeOwn {f g : Func} (done : legalize f = (g, .ok ())) :
    ∀ i ∈ g.insts, encode? g i = some i.enc := by
  unfold legalize at done
  split at done
  · cases done
  · dsimp only at done
    generalize internConstants _ = mid at *
    cases result : (encodeBlocks mid mid.blocks).2 with
    | error e => rw [result] at done; cases done
    | ok =>
      rw [result] at done
      have own := encodeBlocksOwn result
      generalize (encodeBlocks mid mid.blocks).1 = blocks at *
      simp only [Prod.mk.injEq, and_true] at done
      have parts : g.blocks = blocks ∧ g.valueTypes = mid.valueTypes ∧ g.constants = mid.constants := by
        split at done <;> exact done ▸ ⟨rfl, rfl, rfl⟩
      obtain ⟨same, types, constants⟩ := parts
      intro i listed
      obtain ⟨bb, inside, there⟩ := List.mem_flatMap.mp listed
      refine (encodeRecast ?_).trans (own bb (same ▸ inside) i there)
      exact .ofSame rfl rfl rfl rfl rfl constants fun id _ => congrArg (·.getD id .void) types

theorem legalizeFitted {f g : Func} (done : legalize f = (g, .ok ())) : Fitted g :=
  fun i inside => ⟨i.enc, legalizeOwn done i inside, rfl⟩

theorem Fits.ofEncoded {f : Func} {i : Inst} {enc : Encoding} (encoded : encode? f i = some enc) :
    Fits f { i with enc := enc } :=
  ⟨enc, (encodeRecast (.ofSame rfl rfl rfl rfl rfl rfl fun _ _ => rfl)).trans encoded, rfl⟩

open CompareBranch in
theorem fuseCompareBranchesInsts {f : Func} {j : Inst} (inside : j ∈ (fuseCompareBranches encode? f).1.insts) :
    j ∈ f.insts ∨ ∃ i enc, encode? f i = some enc ∧ j = { i with enc := enc } := by
  have fused (inside : j ∈ (f.mapBlocks (fuseBlock (encode? f) f.countUses)).insts) :
      j ∈ f.insts ∨ ∃ i enc, encode? f i = some enc ∧ j = { i with enc := enc } := by
    obtain ⟨b, there, listed⟩ := List.mem_flatMap.mp inside
    obtain ⟨bb, located, rfl⟩ := List.mem_map.mp there
    rcases fuseBlockCases (encode? f) f.countUses bb with same | ⟨before, compare, branch, fused, id,
      split, result, fusion⟩
    · rw [same] at listed
      exact .inl (Func.memInsts located listed)
    · rw [result] at listed
      rcases List.mem_append.mp listed with early | last
      · exact .inl (Func.memInsts located (split ▸ List.mem_append_left _ early))
      · obtain ⟨enc, encoded, rfl⟩ := fusion.fused
        exact .inr ⟨_, enc, encoded, List.mem_singleton.mp last⟩
  unfold fuseCompareBranches at inside
  dsimp only at inside
  split at inside
  · exact .inl inside
  · exact fused inside

theorem fuseCompareBranchesFitted {f : Func} (ok : Fitted f) :
    Fitted (fuseCompareBranches encode? f).1 := by
  have types : (fuseCompareBranches encode? f).1.valueTypes = f.valueTypes ∧
      (fuseCompareBranches encode? f).1.constants = f.constants := by
    unfold fuseCompareBranches
    dsimp only
    split <;> exact ⟨rfl, rfl⟩
  intro j inside
  refine Fits.stays ?_ types.1 types.2
  rcases fuseCompareBranchesInsts inside with old | ⟨i, enc, encoded, rfl⟩
  · exact ok j old
  · exact .ofEncoded encoded

theorem eliminateDeadCodeFitted {t : DomTree} {f : Func} (ok : Fitted f) :
    Fitted (eliminateDeadCode t f).1 := by
  have thins := eliminateDeadCodeThins t f
  exact ok.part (by rw [thins.rest]) (by rw [thins.rest]) fun _ => thins.mem

open Unreachable in
theorem removeUnreachableInsts {t : DomTree} {f : Func} : ∀ i ∈ (removeUnreachable t f).1.insts, i ∈ f.insts := by
  unfold removeUnreachable
  dsimp only
  split
  · exact fun i inside => inside
  · intro i inside
    obtain ⟨bb, kept, listed⟩ := List.mem_flatMap.mp inside
    exact Func.memInsts ((keptSublist t f.blocks).subset kept) listed

theorem removeUnreachableFitted {t : DomTree} {f : Func} (ok : Fitted f) :
    Fitted (removeUnreachable t f).1 := by
  have same : (removeUnreachable t f).1.valueTypes = f.valueTypes ∧
      (removeUnreachable t f).1.constants = f.constants := by
    unfold removeUnreachable
    dsimp only
    split <;> exact ⟨rfl, rfl⟩
  exact ok.part same.1 same.2 removeUnreachableInsts

theorem numberValuesConstants (t : DomTree) (f : Func) :
    (numberValues t f).1.constants = f.constants := by
  unfold numberValues
  split <;> rfl

theorem numberValuesFitted {f : Func} (wf : WellFormed f) (ok : Fitted f) :
    Fitted (numberValues (DomTree.ofFunc f (FlowGraph.ofFunc f)) f).1 := by
  have constants := numberValuesConstants (DomTree.ofFunc f (FlowGraph.ofFunc f)) f
  rcases numbered wf _ rfl with same | ⟨lead, leads, r, types, -, blocks⟩
  · exact same.symm ▸ ok
  · intro j inside
    obtain ⟨b, there, listed⟩ := List.mem_flatMap.mp inside
    obtain ⟨a, located, pair⟩ := r.pairOf there
    rw [blocks a b pair] at listed
    obtain ⟨i, old, -, rfl⟩ := memSubstituted.mp listed
    have within := Func.memInsts located old
    exact (ok i within).recast (.ofFollow (wf.inst within).1.toFitInst types constants
      fun id l led => (leads id l led).1.types) rfl

structure Shuffled (f g : Func) : Prop where
  signature : g.signature = f.signature
  types : g.valueTypes = f.valueTypes
  constants : g.constants = f.constants
  insts : ∀ j ∈ g.insts, ∃ i ∈ f.insts, ∃ targets, j = { i with targets := targets }

namespace Shuffled
variable {f g h : Func}

theorem refl (f : Func) : Shuffled f f := ⟨rfl, rfl, rfl, fun j inside => ⟨j, inside, j.targets, rfl⟩⟩

theorem trans (a : Shuffled f g) (b : Shuffled g h) : Shuffled f h where
  signature := b.signature.trans a.signature
  types := b.types.trans a.types
  constants := b.constants.trans a.constants
  insts k inside := by
    obtain ⟨j, middle, targets, rfl⟩ := b.insts k inside
    obtain ⟨i, first, -, rfl⟩ := a.insts j middle
    exact ⟨i, first, targets, rfl⟩

theorem fitted (s : Shuffled f g) (ok : Fitted f) : Fitted g := by
  intro j inside
  obtain ⟨i, first, targets, rfl⟩ := s.insts j inside
  refine (ok i first).recast (.ofSame rfl rfl rfl rfl rfl s.constants fun id _ => ?_) rfl
  simp only [Func.valueType, s.types]

end Shuffled

theorem memModify {f : Func} {b : Nat} {change : Block → Block} {j : Inst}
    (inside : j ∈ (f.modifyBlock b change).insts) :
    j ∈ f.insts ∨ ∃ bb, f.blocks[b]? = some bb ∧ j ∈ (change bb).insts := by
  obtain ⟨bb, there, listed⟩ := List.mem_flatMap.mp inside
  obtain ⟨k, located⟩ := List.getElem?_of_mem there
  rw [Func.blockModify] at located
  obtain ⟨was, old, rfl⟩ := Option.map_eq_some_iff.mp located
  split at listed
  · rename_i own
    exact .inr ⟨was, own ▸ old, listed⟩
  · exact .inl (Func.memInsts (List.mem_of_getElem? old) listed)

section Hoist
open SsaCodegen.LoopInvariant
variable {l : Loop} {p : Nat}

theorem memSplit {insts : List Inst} {defs : DefBlocks} {j : Inst}
    (inside : j ∈ (splitInsts l p defs insts).hoisted ∨ j ∈ (splitInsts l p defs insts).kept) :
    j ∈ insts := by
  induction insts generalizing defs with
  | nil => exact inside.elim id id
  | cons i rest ih =>
    unfold splitInsts at inside
    split at inside
    · rcases inside with hoisted | kept
      · rcases List.mem_cons.mp hoisted with rfl | later
        · exact List.mem_cons_self
        · exact List.mem_cons_of_mem _ (ih (.inl later))
      · exact List.mem_cons_of_mem _ (ih (.inr kept))
    · rcases inside with hoisted | kept
      · exact List.mem_cons_of_mem _ (ih (.inl hoisted))
      · rcases List.mem_cons.mp kept with rfl | later
        · exact List.mem_cons_self
        · exact List.mem_cons_of_mem _ (ih (.inr later))

theorem hoistBlockShuffled (state : Func × DefBlocks) (b : Nat) :
    Shuffled state.1 (hoistBlock l p state b).1 := by
  obtain ⟨f, defs⟩ := state
  have own {j : Inst} (inside : j ∈ (f.block b).insts) : j ∈ f.insts := by
    rw [Func.block, List.getD_eq_getElem?_getD] at inside
    cases located : f.blocks[b]? with
    | none =>
      rw [located] at inside
      cases inside
    | some bb =>
      rw [located] at inside
      exact Func.memInsts (List.mem_of_getElem? located) inside
  have left {j : Inst} (inside : j ∈ (f.modifyBlock b
      ({ · with insts := (splitInsts l p defs (f.block b).insts).kept })).insts) : j ∈ f.insts := by
    rcases memModify inside with old | ⟨bb, -, kept⟩
    · exact old
    · exact own (memSplit (.inr kept))
  refine ⟨rfl, rfl, rfl, fun j inside => ⟨j, ?_, j.targets, rfl⟩⟩
  rcases memModify inside with old | ⟨bb, located, listed⟩
  · exact left old
  · have stays {j : Inst} (held : j ∈ bb.insts) := left (Func.memInsts (List.mem_of_getElem? located) held)
    rcases List.mem_append.mp listed with front | last
    · rcases List.mem_append.mp front with early | moved
      · exact stays ((List.dropLast_sublist _).subset early)
      · exact own (memSplit (.inl moved))
    · exact stays (List.mem_of_getLast? (Option.mem_toList.mp last))

theorem hoistRoundsShuffled (rounds : Nat) (state : Func × DefBlocks) :
    Shuffled state.1 (hoistRounds l p rounds state).1 := by
  induction rounds generalizing state with
  | zero => exact .refl _
  | succ rounds ih =>
    have one : Shuffled state.1 (l.blocks.foldl (hoistBlock l p) state).1 :=
      foldKeeps (fun s => Shuffled state.1 s.1) l.blocks
        (fun s before b _ => before.trans (hoistBlockShuffled s b)) (.refl _)
    unfold hoistRounds
    dsimp only
    split
    · exact one.trans (ih _)
    · exact one

theorem hoistAllShuffled (g : FlowGraph) (loops : List Loop) (f : Func) :
    Shuffled f (hoistAll g loops f) := by
  refine foldKeeps (fun s : Func × DefBlocks => Shuffled f s.1) _ (fun s before l _ => ?_) (.refl f)
  unfold hoistLoop
  split
  · exact before.trans (hoistRoundsShuffled _ s)
  · exact before

theorem memRetarget {old new : String} {bb : Block} {j : Inst}
    (inside : j ∈ (retarget old new bb).insts) :
    ∃ i ∈ bb.insts, ∃ targets, j = { i with targets := targets } := by
  unfold retarget at inside
  split at inside
  · rename_i t ends
    rcases List.mem_append.mp inside with front | last
    · exact ⟨j, (List.dropLast_sublist _).subset front, j.targets, rfl⟩
    · have final := List.mem_of_getLast? (Option.filter_eq_some_iff.mp ends).1
      exact ⟨t, final, _, List.mem_singleton.mp last⟩
  · exact ⟨j, inside, j.targets, rfl⟩

theorem sourcesShuffled (sources : List String) (old new : String) (f : Func) :
    Shuffled f (sources.foldl (fun f source =>
      match f.findBlock? source with
      | some b => f.modifyBlock b (retarget old new)
      | none => f) f) := by
  refine foldKeeps (Shuffled f) sources (fun g before source _ => before.trans ?_) (.refl f)
  split
  · refine ⟨rfl, rfl, rfl, fun j inside => ?_⟩
    rcases memModify inside with kept | ⟨bb, located, listed⟩
    · exact ⟨j, kept, j.targets, rfl⟩
    · obtain ⟨i, held, targets, same⟩ := memRetarget listed
      exact ⟨i, Func.memInsts (List.mem_of_getElem? located) held, targets, same⟩
  · exact .refl g

structure Enlarged (f g : Func) : Prop where
  signature : g.signature = f.signature
  types : f.valueTypes <+: g.valueTypes
  constants : g.constants = f.constants
  insts : ∀ j ∈ g.insts, (∃ i ∈ f.insts, ∃ targets, j = { i with targets := targets }) ∨
    Fits g j ∧ ∀ id ∈ j.usedTemps, id < g.numValues

def Typed (f : Func) : Prop := ∀ i ∈ f.insts, ∀ id ∈ i.usedTemps, id < f.numValues

theorem typedWellFormed {f : Func} (ok : WellFormed f) : Typed f := fun _ inside id used =>
  ok.idBelow ((ok.inst inside).1.defined id used)

namespace Enlarged
variable {f g : Func} (enlarged : Enlarged f g)
include enlarged

theorem typed (typed : Typed f) : Typed g := by
  intro j inside id used
  rcases enlarged.insts j inside with ⟨i, old, targets, rfl⟩ | ⟨-, below⟩
  · exact Nat.lt_of_lt_of_le (typed i old id used) enlarged.types.length_le
  · exact below id used

theorem fitted (typed : Typed f) (ok : Fitted f) : Fitted g := by
  intro j inside
  rcases enlarged.insts j inside with ⟨i, old, targets, rfl⟩ | ⟨fits, -⟩
  · refine (ok i old).recast (.ofSame rfl rfl rfl rfl rfl enlarged.constants fun id used => ?_) rfl
    obtain ⟨more, types⟩ := enlarged.types
    have below : id < f.valueTypes.length := typed i old id used
    simp only [Func.valueType, List.getD_eq_getElem?_getD, ← types, List.getElem?_append_left below]
  · exact fits

end Enlarged

theorem insertPreheaderEnlarged (f : Func) (e : Entry) : Enlarged f (insertPreheader encode? f e).1 := by
  have unchanged {j : Inst} (inside : j ∈ f.insts) : ∃ i ∈ f.insts, ∃ targets, j = { i with targets := targets } :=
    ⟨j, inside, j.targets, rfl⟩
  unfold insertPreheader
  split
  · exact ⟨rfl, List.prefix_refl _, rfl, fun j inside => .inl (unchanged inside)⟩
  · rename_i header found
    dsimp only [Func.newParams]
    generalize (f.block header).params.map Param.ty = types
    split
    · exact ⟨rfl, List.prefix_append .., rfl, fun j inside => .inl (unchanged inside)⟩
    · rename_i enc encoded
      have turned := sourcesShuffled e.sources e.header (f.newLabel (e.header ++ ".preheader"))
        { f with valueTypes := f.valueTypes ++ types }
      generalize e.sources.foldl _ _ = sent at turned ⊢
      refine ⟨turned.signature, ⟨types, turned.types.symm⟩, turned.constants, fun j inside => ?_⟩
      obtain ⟨bb, there, listed⟩ := List.mem_flatMap.mp inside
      rcases List.eq_or_mem_of_mem_insertIdx there with rfl | old
      · rw [List.mem_singleton.mp listed]
        refine .inr ⟨⟨enc, (encodeRecast (.ofSame rfl rfl rfl rfl rfl turned.constants fun id _ => ?_)).trans
          encoded, rfl⟩, fun id used => ?_⟩
        · exact congrArg (·.getD id .void) turned.types
        · rcases Inst.memUsedTemps.mp used with absent | ⟨vs, within, arg⟩
          · cases absent
          · cases List.mem_singleton.mp within
            obtain ⟨p, passed, same⟩ := List.mem_map.mp arg
            cases same
            obtain ⟨k, place, declared⟩ := memFreshParams passed
            have more : sent.valueTypes.length = f.valueTypes.length + types.length := by
              rw [turned.types, List.length_append]
            have below := (List.getElem?_eq_some_iff.mp declared).1
            show p.id < sent.valueTypes.length
            rw [place, more]
            exact Nat.add_lt_add_left below _
      · exact .inl (turned.insts j (Func.memInsts old listed))

theorem insertPreheadersFitted (entries : List Entry) {f : Func} (typed : Typed f) (fits : Fitted f) :
    Fitted (insertPreheaders encode? f entries).1 := by
  induction entries generalizing f with
  | nil => exact fits
  | cons e rest ih =>
    have now := insertPreheaderEnlarged f e
    exact ih (now.typed typed) (now.fitted typed fits)

theorem encodeJump (f : Func) (label : String) (params : List Param) :
    (encode? f (jumpTo label (params.map fun p => .temp p.id) {})).isSome = true := by
  simp [encode?, hasFloatConst, Inst.uses, Value.isFloatConst, jumpTo, Recipe.ofOpcode, encodable]

theorem legalEncodings (f : Func) (i : Inst) (enc : Encoding) (encoded : encode? f i = some enc) :
    enc.isLegal = true := encodeLegal encoded

theorem hoistInvariantsFitted (g : FlowGraph) (loops : LoopForest) {f : Func} (typed : Typed f) (fits : Fitted f) :
    Fitted (hoistInvariants encode? g loops f).func := by
  have done := insertPreheadersFitted (loops.loops.filterMap (entryOf? f g)) typed fits
  unfold hoistInvariants
  cases inserted : insertPreheaders encode? f _ with
  | mk h changed =>
    rw [inserted] at done
    have noted : Fitted h.noteLayoutChange := done.part rfl rfl fun i inside => inside
    cases changed with
    | true => exact (hoistAllShuffled _ _ _).fitted noted
    | false => exact (hoistAllShuffled _ _ _).fitted done

end Hoist

theorem memModifyInst {insts : List Inst} {k : Nat} {change : Inst → Inst} {j : Inst}
    (inside : j ∈ insts.modify k change) : j ∈ insts ∨ ∃ i ∈ insts, j = change i := by
  obtain ⟨m, located⟩ := List.getElem?_of_mem inside
  rw [List.getElem?_modify] at located
  obtain ⟨i, there, same⟩ := Option.map_eq_some_iff.mp located
  have listed := List.mem_of_getElem? there
  by_cases own : k = m
  · exact .inr ⟨i, listed, by rw [← same, if_pos own]⟩
  · exact .inl (by rwa [← same, if_neg own])

open RegAlloc in
theorem allocateFitted {g : FlowGraph} {t : DomTree} {f : Func} (ok : Fitted f) :
    Fitted (RegAlloc.run registerFile g t f).1 := by
  unfold RegAlloc.run
  split
  · exact ok
  · split
    · exact ok
    · rename_i ivs made
      dsimp only
      rw [recordSafepointsFold]
      refine SsaCodegen.LoopInvariant.foldKeeps Fitted ivs.calls (fun h before c _ j inside => ?_)
        (ok.part rfl rfl fun i inside => inside)
      rcases memModify inside with old | ⟨bb, located, listed⟩
      · exact (before j old).stays rfl rfl
      · have held {i : Inst} (there : i ∈ bb.insts) : Fits h i :=
          before i (Func.memInsts (List.mem_of_getElem? located) there)
        rcases memModifyInst listed with old | ⟨i, there, rfl⟩
        · exact (held old).stays rfl rfl
        · exact (held there).recast (.ofSame rfl rfl rfl rfl rfl rfl fun _ _ => rfl) rfl

end X64
end SsaCodegen
