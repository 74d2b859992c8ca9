import SsaCodegen.Proofs.Flow.Liveness
import SsaCodegen.Proofs.Verify.Structure
/-! The location verifier is exact as well. What it accepts is stated over positions: after
the instruction at `i` of block `b` live is what the rest of the block and the live-out set
of the block make live. -/
namespace SsaCodegen
open Locations

def Func.liveAt (f : Func) (b i : Nat) : List Nat :=
  liveFrom f.numValues ((Liveness.ofFunc f (FlowGraph.ofFunc f)).liveOut b) ((f.block b).insts.drop i)

def Placed (regs : RegisterFile) (f : Func) (id : Nat) : Prop :=
  match f.location id with
  | .unassigned => False
  | .slot s => s < f.stackSlots.length
  | .reg n => regs.isAllocatable n = true ∧ regs.class? n = some (f.valueType id).regClass

def Survives (regs : RegisterFile) (f : Func) (call : Inst) (id : Nat) : Prop :=
  match f.location id with
  | .unassigned => True
  | .slot s => (f.valueType id).isRef = true → s ∈ call.safepointSlots
  | .reg n => regs.isCalleeSaved n = true

def Apart (f : Func) (v w : Nat) : Prop := sameLocation f v w = false

theorem Apart.differ {f : Func} {v w : Nat} (apart : Apart f v w)
    (assigned : f.location w ≠ .unassigned) : f.location v ≠ f.location w := by
  intro same
  unfold Apart sameLocation at apart
  rw [same, beq_self_eq_true, Bool.and_true] at apart
  cases there : f.location w <;> simp [there, Location.isAssigned] at apart assigned

theorem apartOfDiffer {f : Func} {v w : Nat} (differ : f.location v ≠ f.location w) :
    Apart f v w := by
  simp [Apart, sameLocation, differ]

structure KeepsLive (regs : RegisterFile) (f : Func) (inst : Inst) (after : List Nat) : Prop where
  result : ∀ id, inst.result = some id → ∀ v ∈ after, v ≠ id → Apart f v id
  call : inst.op = .call → ∀ v ∈ after, inst.result ≠ some v → Survives regs f inst v

structure ParamsKeepLive (f : Func) (bb : Block) (live : List Nat) : Prop where
  live : ∀ id ∈ bb.paramIds, ∀ v ∈ live, v ∉ bb.paramIds → Apart f v id
  others : bb.paramIds.Pairwise (Apart f)

structure Located (regs : RegisterFile) (f : Func) : Prop where
  sized : f.locations.length = f.numValues
  framed : f.frame.laidOut = true → ∀ entry rest, f.blocks = entry :: rest →
    entry.insts.head?.map Inst.op = some .prologue
  encoded : ∀ bb ∈ f.blocks, ∀ inst ∈ bb.insts, inst.enc.isLegal = true
  placed : ∀ id ∈ f.definedIds, Placed regs f id
  keeps : ∀ b i inst, (f.block b).insts[i]? = some inst → b < f.blocks.length →
    KeepsLive regs f inst (f.liveAt b (i + 1))
  params : ∀ b, b < f.blocks.length → ParamsKeepLive f (f.block b) (f.liveAt b 0)

namespace Locations
variable {regs : RegisterFile} {f : Func}

theorem valueClean {place : String} {id : Nat} :
    valueViolations regs f place id = [] ↔ Placed regs f id := by
  unfold valueViolations Placed
  cases f.location id with
  | unassigned => simp
  | slot s => simp
  | reg n =>
    cases allocatable : regs.isAllocatable n with
    | false => simp [allocatable]
    | true => simp [allocatable]

theorem frameClean : frameViolations f = [] ↔ (f.frame.laidOut = true → ∀ entry rest,
    f.blocks = entry :: rest → entry.insts.head?.map Inst.op = some .prologue) := by
  unfold frameViolations
  cases f.blocks with
  | nil => simp
  | cons entry rest =>
    simp only [complainUnlessIff, Bool.or_eq_true, Bool.not_eq_true', beq_iff_eq,
      List.cons.injEq, and_imp]
    constructor
    · rintro (never | opens) laidOut _ _ rfl _
      · exact absurd (never.symm.trans laidOut) Bool.false_ne_true
      · exact opens
    · intro opens
      cases laidOut : f.frame.laidOut with
      | false => exact .inl rfl
      | true => exact .inr (opens laidOut entry rest rfl rfl)

theorem definitionsClean {bb : Block} : definitionViolations regs f bb = [] ↔
    (∀ inst ∈ bb.insts, inst.enc.isLegal = true) ∧ ∀ id ∈ bb.definedIds, Placed regs f id := by
  unfold definitionViolations
  rw [List.append_eq_nil_iff, List.flatMap_eq_nil_iff, Structure.zipIdxClean]
  simp only [List.append_eq_nil_iff, complainUnlessIff, valueClean, Block.memDefinedIds]
  constructor
  · rintro ⟨params, insts⟩
    refine ⟨fun inst inside => ?_, fun id defines => ?_⟩
    · obtain ⟨i, there⟩ := List.getElem?_of_mem inside
      exact (insts i inst there).1
    · rcases defines with param | ⟨inst, inside, result⟩
      · obtain ⟨p, listed, rfl⟩ := List.mem_map.mp param
        exact params p listed
      · obtain ⟨i, there⟩ := List.getElem?_of_mem inside
        have clean := (insts i inst there).2
        rw [result] at clean
        exact valueClean.mp clean
  · rintro ⟨encoded, placed⟩
    refine ⟨fun p listed => placed p.id (.inl (List.mem_map_of_mem listed)), fun i inst there =>
      ⟨encoded inst (List.mem_of_getElem? there), ?_⟩⟩
    cases result : inst.result with
    | none => rfl
    | some id => exact valueClean.mpr (placed id (.inr ⟨inst, List.mem_of_getElem? there, result⟩))

theorem keepsClean {inst : Inst} {after : List Nat} :
    overwriteMessages regs f inst after ++ callMessages regs f inst after = [] ↔
      KeepsLive regs f inst after := by
  have overwrite : overwriteMessages regs f inst after = [] ↔
      ∀ id, inst.result = some id → ∀ v ∈ after, v ≠ id → Apart f v id := by
    unfold overwriteMessages
    cases inst.result with
    | none => simp
    | some id =>
      simp only [List.flatMap_eq_nil_iff, complainUnlessIff, Bool.or_eq_true, beq_iff_eq,
        Bool.not_eq_true', Option.some.injEq, forall_eq', Apart, Classical.or_iff_not_imp_left, Ne]
  have call : callMessages regs f inst after = [] ↔
      (inst.op = .call → ∀ v ∈ after, inst.result ≠ some v → Survives regs f inst v) := by
    unfold callMessages
    split
    · rename_i other
      exact iff_of_true rfl fun called => absurd called (by simpa using other)
    · rename_i called
      have called : inst.op = .call := by simpa using called
      simp only [called, forall_const, List.flatMap_eq_nil_iff]
      refine forall_congr' fun v => imp_congr_right fun _ => ?_
      by_cases own : inst.result = some v
      · simp [own]
      · simp only [own, beq_iff_eq, if_false, ne_eq, not_false_eq_true, forall_const, Survives]
        cases f.location v with
        | unassigned => simp
        | reg n => simp
        | slot s => cases (f.valueType v).isRef <;> simp
  rw [List.append_eq_nil_iff, overwrite, call]
  exact ⟨fun both => ⟨both.1, both.2⟩, fun keeps => ⟨keeps.result, keeps.call⟩⟩

theorem paramsClean {bb : Block} {live : List Nat} :
    paramViolations regs f bb live bb.paramIds = [] ↔ ParamsKeepLive f bb live := by
  have go (ids : List Nat) (among : ∀ id ∈ ids, id ∈ bb.paramIds) :
      paramViolations regs f bb live ids = [] ↔
        (∀ id ∈ ids, ∀ v ∈ live, v ∉ bb.paramIds → Apart f v id) ∧ ids.Pairwise (Apart f) := by
    induction ids with
    | nil => simp [paramViolations]
    | cons id later ih =>
      have param := among id List.mem_cons_self
      have first : (live.flatMap fun v =>
          complainUnless (v == id || bb.paramIds.contains v || !sameLocation f v id)
            (⟨bb.label, "", "parameter " ++ valueName id ++ " shares " ++
              locationName regs (f.location id) ++ " with live " ++ valueName v⟩ : Violation)) = [] ↔
          ∀ v ∈ live, v ∉ bb.paramIds → Apart f v id := by
        simp only [List.flatMap_eq_nil_iff, complainUnlessIff, Bool.or_eq_true, beq_iff_eq,
          List.contains_iff_mem, Bool.not_eq_true', Apart]
        refine forall_congr' fun v => imp_congr_right fun _ => ?_
        constructor
        · rintro ((rfl | inside) | apart) outside
          · exact absurd param outside
          · exact absurd inside outside
          · exact apart
        · intro apart
          by_cases inside : v ∈ bb.paramIds
          · exact .inl (.inr inside)
          · exact .inr (apart inside)
      rw [paramViolations, List.append_eq_nil_iff, List.append_eq_nil_iff, first,
        ih fun q inside => among q (List.mem_cons_of_mem _ inside), List.forall_mem_cons,
        List.pairwise_cons]
      simp only [List.flatMap_eq_nil_iff, complainUnlessIff, Bool.not_eq_true']
      exact and_and_and_comm
  rw [go _ fun _ inside => inside]
  exact ⟨fun both => ⟨both.1, both.2⟩, fun keeps => ⟨keeps.live, keeps.others⟩⟩

theorem walkClean (regs : RegisterFile) (f : Func) (bb : Block) (out : List Nat) (k : Nat)
    (inside : k ≤ bb.insts.length) :
    interferenceBackwards regs f bb (liveFrom f.numValues out (bb.insts.drop k))
      (bb.insts.zipIdx.take k).reverse = [] ↔
    (∀ i inst, i < k → bb.insts[i]? = some inst →
      KeepsLive regs f inst (liveFrom f.numValues out (bb.insts.drop (i + 1)))) ∧
      ParamsKeepLive f bb (liveFrom f.numValues out bb.insts) := by
  induction k with
  | zero =>
    rw [List.take_zero, List.reverse_nil, interferenceBackwards, paramsClean, List.drop_zero]
    simp
  | succ k ih =>
    have below : k < bb.insts.length := inside
    have item : bb.insts.zipIdx[k]? = some (bb.insts[k], k) := by
      simp [List.getElem?_eq_getElem below]
    have step : (bb.insts[k]).liveBefore f.numValues
        (liveFrom f.numValues out (bb.insts.drop (k + 1))) =
        liveFrom f.numValues out (bb.insts.drop k) := by
      rw [List.drop_eq_getElem_cons below]
      rfl
    rw [List.take_add_one, item, Option.toList_some, List.reverse_append, List.reverse_singleton,
      List.singleton_append, interferenceBackwards, List.append_eq_nil_iff, List.map_eq_nil_iff,
      keepsClean, step, ih (Nat.le_of_lt below)]
    constructor
    · rintro ⟨last, earlier, params⟩
      refine ⟨fun i inst before there => ?_, params⟩
      rcases Nat.lt_succ_iff_lt_or_eq.mp before with before | rfl
      · exact earlier i inst before there
      · cases Option.some.inj ((List.getElem?_eq_getElem below).symm.trans there)
        exact last
    · rintro ⟨all, params⟩
      exact ⟨all k _ (Nat.lt_succ_self k) (List.getElem?_eq_getElem below),
        fun i inst before there => all i inst (Nat.lt_succ_of_lt before) there, params⟩

end Locations

theorem locatedIff {regs : RegisterFile} {f : Func} :
    verifyLocations regs f = [] ↔ Located regs f := by
  unfold verifyLocations
  split
  · rename_i differ
    exact iff_of_false (List.cons_ne_nil _ _) fun fits => differ fits.sized
  · rename_i sized
    simp only [List.append_eq_nil_iff, frameClean, Structure.zipIdxClean]
    have walk (b : Nat) (bb : Block) (located : f.blocks[b]? = some bb) :
        interferenceBackwards regs f bb ((Liveness.ofFunc f (FlowGraph.ofFunc f)).liveOut b)
          bb.insts.zipIdx.reverse = [] ↔
        (∀ i inst, bb.insts[i]? = some inst → KeepsLive regs f inst (f.liveAt b (i + 1))) ∧
          ParamsKeepLive f bb (f.liveAt b 0) := by
      have whole := walkClean regs f bb ((Liveness.ofFunc f (FlowGraph.ofFunc f)).liveOut b) _
        (Nat.le_refl _)
      rw [List.drop_length, List.take_of_length_le (by simp)] at whole
      simp only [Func.liveAt, Func.blockAt located, List.drop_zero]
      refine whole.trans (and_congr_left fun _ => ?_)
      exact ⟨fun all i inst there => all i inst (List.getElem?_eq_some_iff.mp there).1 there,
        fun all i inst _ there => all i inst there⟩
    have blockAt (b : Nat) (below : b < f.blocks.length) : f.blocks[b]? = some (f.block b) := by
      simp [Func.block, below]
    constructor
    · rintro ⟨⟨framed, defs⟩, walks⟩
      rw [List.flatMap_eq_nil_iff] at defs
      have defs (bb : Block) (inside : bb ∈ f.blocks) := definitionsClean.mp (defs bb inside)
      refine ⟨Classical.not_not.mp sized, framed, fun bb inside => (defs bb inside).1, ?_, ?_, ?_⟩
      · intro id defined
        obtain ⟨bb, inside, defines⟩ := Func.memDefinedIds.mp defined
        exact (defs bb inside).2 id defines
      · intro b i inst there below
        exact ((walk b _ (blockAt b below)).mp (walks b _ (blockAt b below))).1 i inst there
      · intro b below
        exact ((walk b _ (blockAt b below)).mp (walks b _ (blockAt b below))).2
    · intro fits
      refine ⟨⟨fits.framed, ?_⟩, fun b bb located => ?_⟩
      · rw [List.flatMap_eq_nil_iff]
        intro bb inside
        exact definitionsClean.mpr ⟨fits.encoded bb inside, fun id defines =>
          fits.placed id (Func.memDefinedIds.mpr ⟨bb, inside, defines⟩)⟩
      · have below := (List.getElem?_eq_some_iff.mp located).1
        have same := Func.blockAt located
        refine (walk b bb located).mpr ⟨fun i inst there => ?_, same ▸ fits.params b below⟩
        exact fits.keeps b i inst (by rw [same]; exact there) below

structure SamePlaces (f g : Func) : Prop where
  location : g.location = f.location
  valueType : g.valueType = f.valueType
  slots : g.stackSlots.length = f.stackSlots.length

namespace SamePlaces
variable {f g : Func}

theorem ofFields (locations : g.locations = f.locations) (types : g.valueTypes = f.valueTypes)
    (slots : g.stackSlots.length = f.stackSlots.length) : SamePlaces f g where
  location := by
    funext id
    rw [Func.location, Func.location, locations]
  valueType := by
    funext id
    rw [Func.valueType, Func.valueType, types]
  slots := slots

variable (same : SamePlaces f g) {regs : RegisterFile}
include same

theorem apart : Apart g = Apart f := by
  funext v w
  simp only [Apart, Locations.sameLocation, same.location]

theorem placed {id : Nat} (placed : Placed regs f id) : Placed regs g id := by
  rwa [Placed, same.location, same.valueType, same.slots]

theorem keepsLive {i j : Inst} {after : List Nat} (keeps : KeepsLive regs f i after)
    (op : j.op = i.op) (result : j.result = i.result) (slots : j.safepointSlots = i.safepointSlots) :
    KeepsLive regs g j after := by
  refine ⟨same.apart ▸ result ▸ keeps.result, fun call v live other => ?_⟩
  have survives := keeps.call (op ▸ call) v live (result ▸ other)
  rwa [Survives, same.location, same.valueType, slots]

theorem paramsKeepLive {a b : Block} {live : List Nat} (keeps : ParamsKeepLive f a live)
    (ids : b.paramIds = a.paramIds) : ParamsKeepLive g b live :=
  ⟨same.apart ▸ ids ▸ keeps.live, same.apart ▸ ids ▸ keeps.others⟩

end SamePlaces
end SsaCodegen
