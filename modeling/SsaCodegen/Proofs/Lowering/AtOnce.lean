import Mathlib
import SsaCodegen.Proofs.Layout.Forms
import SsaCodegen.Proofs.Legalize.Legalized
import SsaCodegen.Proofs.Lowering.Frames
import SsaCodegen.Proofs.Lowering.Transfers
import SsaCodegen.Proofs.RegAlloc.Allocation
/-! The moves of an allocated function. Arguments of a jump go to the homes of the parameters, those of a call to
the argument registers, and the prologue takes the arguments of the function to their homes, each of them all at
once. Neither the choice of forms nor the place of the code matters to that. -/
namespace SsaCodegen
namespace RegAlloc
variable {regs : RegisterFile} {f g : Func}

theorem allocatedReachable (ok : WellFormed f)
    (done : run regs (FlowGraph.ofFunc f) (DomTree.ofFunc f (FlowGraph.ofFunc f)) f = (g, .ok ())) :
    ∀ bb ∈ f.blocks, Reaches f bb.label := by
  intro bb inside
  obtain ⟨b, located⟩ := List.getElem?_of_mem inside
  refine (FlowGraph.reachesIff ok.labels located).mp ?_
  refine (DomTree.isReachableIff (FlowGraph.proper f (List.length_pos_of_mem inside))).mp ?_
  unfold run at done
  split at done
  · cases done
  · rename_i absent
    have all := List.find?_eq_none.mp absent (bb, b) (List.mem_zipIdx_iff_getElem?.mpr located)
    rwa [Bool.not_eq_true, Bool.not_eq_false'] at all

theorem scannedOf (consistent : Scan.Consistent regs) (ok : WellFormed f)
    (done : run regs (FlowGraph.ofFunc f) (DomTree.ofFunc f (FlowGraph.ofFunc f)) f = (g, .ok ())) :
    ∃ ivs, Scanned regs f ivs g := by
  obtain ⟨g', ivs, ran, -, scanned, -⟩ := runScanned consistent ok (allocatedReachable ok done)
  cases ran.symm.trans done
  exact ⟨ivs, scanned⟩

end RegAlloc

namespace X64
open FrameLayout (prologueInst dropPrologue)

section Assigned

theorem assignStep {ints floats : List Nat} {ty : Ty} {rest : List Ty}
    (fits : fitsClasses ints floats (ty :: rest) = true) :
    (ty.isFloat = true ∧ ∃ n later, floats = n :: later ∧ fitsClasses ints later rest = true ∧
      assignByClass ints floats (ty :: rest) = n :: assignByClass ints later rest) ∨
    (ty.isFloat = false ∧ ∃ n later, ints = n :: later ∧ fitsClasses later floats rest = true ∧
      assignByClass ints floats (ty :: rest) = n :: assignByClass later floats rest) := by
  simp only [fitsClasses, Bool.and_eq_true, decide_eq_true_eq] at fits ⊢
  cases float : ty.isFloat with
  | true =>
    cases floats with
    | nil => simp [float] at fits
    | cons n later => exact .inl ⟨rfl, n, later, rfl, by simpa [float] using fits, if_pos float⟩
  | false =>
    cases ints with
    | nil => simp [float] at fits
    | cons n later => exact .inr ⟨rfl, n, later, rfl, by simpa [float] using fits, if_neg (by simp [float])⟩

theorem assignedClass {ints floats : List Nat} {types : List Ty} (fits : fitsClasses ints floats types = true) :
    ∀ e ∈ types.zip (assignByClass ints floats types), e.2 ∈ if e.1.isFloat then floats else ints := by
  induction types generalizing ints floats with
  | nil => exact fun e absent => absurd absent List.not_mem_nil
  | cons ty rest ih =>
    intro e inside
    rcases assignStep fits with ⟨float, n, later, rfl, fewer, step⟩ | ⟨float, n, later, rfl, fewer, step⟩
    all_goals
      rw [step] at inside
      rcases List.mem_cons.mp inside with rfl | others
      · simp [float]
      · have classed := ih fewer e others
        split at classed <;> simp_all

theorem memAssigned {ints floats : List Nat} {types : List Ty} {n : Nat}
    (fits : fitsClasses ints floats types = true) (inside : n ∈ assignByClass ints floats types) :
    n ∈ ints ++ floats := by
  obtain ⟨k, below, rfl⟩ := List.mem_iff_getElem.mp inside
  have short : k < types.length := by rwa [lengthAssignByClass] at below
  have paired : (types[k], (assignByClass ints floats types)[k]) ∈ types.zip (assignByClass ints floats types) :=
    List.mem_iff_getElem.mpr ⟨k, by simp [below, short], List.getElem_zip⟩
  have classed := assignedClass fits _ paired
  split at classed
  · exact List.mem_append_right _ classed
  · exact List.mem_append_left _ classed

theorem assignedOnce {ints floats : List Nat} {types : List Ty} (fits : fitsClasses ints floats types = true)
    (once : (ints ++ floats).Nodup) : (assignByClass ints floats types).Nodup := by
  induction types generalizing ints floats with
  | nil => exact List.nodup_nil
  | cons ty rest ih =>
    rcases assignStep fits with ⟨-, n, later, rfl, fewer, step⟩ | ⟨-, n, later, rfl, fewer, step⟩
    · obtain ⟨fresh, less⟩ := List.nodup_cons.mp (List.nodup_middle.mp once)
      exact step ▸ List.nodup_cons.mpr ⟨fun again => fresh (memAssigned fewer again), ih fewer less⟩
    · obtain ⟨fresh, less⟩ := List.nodup_cons.mp once
      exact step ▸ List.nodup_cons.mpr ⟨fun again => fresh (memAssigned fewer again), ih fewer less⟩

theorem argsOnce {types : List Ty} (fits : fitsArgRegs types = true) : (argRegs types).Nodup ∧
    ∀ e ∈ types.zip (argRegs types), e.2 ∈ argNumbers e.1.regClass := by
  refine ⟨assignedOnce fits (by decide), fun e inside => ?_⟩
  have classed := assignedClass fits e inside
  unfold Ty.regClass
  split at classed <;> rename_i kind
  · rw [if_pos kind]
    exact classed
  · rw [if_neg kind]
    exact classed

theorem signatureFits {sig : Signature} (checked : Legalize.checkSignature sig = .ok ()) :
    fitsArgRegs sig.params = true := by
  unfold Legalize.checkSignature at checked
  split at checked
  · cases checked
  · next passes => exact Bool.not_eq_false _ ▸ Bool.not_eq_true' _ ▸ passes

end Assigned

structure Housed (g k : Func) : Prop where
  kin : Semantics.Kin g k
  locations : k.locations = g.locations
  slots : k.stackSlots.length = g.stackSlots.length
  spread : Spread k
  insts : ∀ i ∈ k.insts, i.op ≠ .prologue → ∃ j ∈ g.insts, i.formless = j.formless

theorem framedKin {limits : Limits} {g h : Func} (done : layOutFrame limits g = (h, .ok ())) : Semantics.Kin g h := by
  have laid := frameLaidOf done
  obtain ⟨entry, rest, was, now⟩ := laid.blocks
  obtain ⟨signature, -⟩ := layOutFrameKeeps limits g
  rw [done] at signature
  refine ⟨signature, laid.types, by simp only [Func.labels, was, now, List.map_cons], fun b => ?_⟩
  cases b with
  | zero => simp only [Func.block, was, now, List.getD_cons_zero]
  | succ b => simp only [Func.block, was, now, List.getD_cons_succ]

theorem housedOf {limits : Limits} {g h k : Func} (done : layOutFrame limits g = (h, .ok ())) (later : Reformed h k) :
    Housed g k := by
  have laid := frameLaidOf done
  refine ⟨(framedKin done).trans later.sameCode.kin, later.locations.trans laid.locations, ?_, ?_, ?_⟩
  · rw [later.stackSlots, laid.slotCount]
  · intro m
    have spread := laid.spread m
    unfold Machine.slotAddress Lower.slotDisp Lower.slotOffset at spread ⊢
    rwa [later.stackSlots]
  · intro i inside other
    obtain ⟨j, held, same⟩ := later.mem inside
    have op : j.op = i.op := (formlessRead same Inst.op).symm
    refine ⟨j, ?_, same⟩
    obtain ⟨entry, rest, was, now⟩ := laid.blocks
    obtain ⟨bb, there, listed⟩ := List.mem_flatMap.mp held
    rw [now] at there
    rcases List.mem_cons.mp there with rfl | tail
    · rcases List.mem_cons.mp listed with rfl | body
      · exact absurd op.symm other
      · exact Func.memInsts (was ▸ List.mem_cons_self) (dropPrologueSubset _ body)
    · exact Func.memInsts (was ▸ List.mem_cons_of_mem _ tail) listed

theorem Housed.location {g k : Func} (housed : Housed g k) (v : Nat) : k.location v = g.location v := by
  rw [Func.location, housed.locations, Func.location]

theorem formedRecipe {g : Func} {i j : Inst} (same : i.formless = j.formless) (fits : Fits g j) :
    i.enc.recipe? = some (.ofOpcode i.op) := by
  have op : i.op = j.op := formlessRead same Inst.op
  rw [Encoding.recipe?, formlessRecipe same, ← Encoding.recipe?, fits.recipe, op]

section Homes
variable {f g k : Func} {ivs : Intervals} (ok : WellFormed g) (scanned : RegAlloc.Scanned registerFile f ivs g)
  (housed : Housed g k)
include scanned housed

theorem housedSlots : OwnSlots k := fun v w _ left right =>
  scanned.ownSlot ((housed.location v).symm.trans left) ((housed.location w).symm.trans right)

theorem definedHome {v : Nat} (before : WellFormed f) (defined : v ∈ g.definedIds) :
    Side.homes.Holds k (k.valueType v).regClass (k.location v) := by
  have placed := scanned.allocation.placed v ((scanned.code.narrows before).definedIds ▸ defined)
  refine ⟨?_, v, rfl, rfl⟩
  unfold SsaCodegen.Placed at placed
  rw [housed.location, housed.kin.valueType]
  cases home : g.location v with
  | unassigned =>
    rw [home] at placed
    exact placed.elim
  | slot s =>
    rw [home] at placed
    exact Nat.lt_of_lt_of_eq placed housed.slots.symm
  | reg n =>
    rw [home] at placed
    obtain ⟨allocatable, classed⟩ := placed
    have listed : ∃ cls, n ∈ registerFile.allocatable cls := by
      simp only [RegisterFile.isAllocatable, Bool.or_eq_true, List.contains_iff_mem] at allocatable
      exact allocatable.elim (fun general => ⟨.gpr, general⟩) fun float => ⟨.fpr, float⟩
    obtain ⟨cls, listed⟩ := listed
    have same := Option.some.inj ((allocatableClass listed).symm.trans classed)
    exact same ▸ listed

theorem paramsApart (before : WellFormed f) {bb : Block} (inside : bb ∈ g.blocks) :
    (bb.params.map fun p => k.location p.id).Nodup := by
  obtain ⟨b, located⟩ := List.getElem?_of_mem inside
  obtain ⟨old, was, -, params, -⟩ := scanned.code.blockAt located
  have once : old.paramIds.Nodup :=
    (List.nodup_append.mp (Func.definedOnceIn before.once (List.mem_of_getElem? was))).1
  have apart : (old.paramIds.map k.location).Nodup := by
    refine List.pairwise_map.mpr (once.imp_of_mem fun {v w} first second differ => ?_)
    have touched := Intervals.paramTouched was first
    have other := scanned.apartOf _ differ ⟨_, touched, Nat.le_refl _⟩ ⟨_, touched, Nat.le_refl _⟩
      (Intervals.paramTouched was second)
    have defined : w ∈ f.definedIds := Func.memDefinedIds.mpr ⟨old, List.mem_of_getElem? was,
      Block.memDefinedIds.mpr (.inl second)⟩
    have placed := scanned.allocation.placed w defined
    rw [housed.location, housed.location]
    refine other.differ fun absent => ?_
    rw [SsaCodegen.Placed, absent] at placed
    exact placed
  rwa [Block.paramIds, List.map_map, ← params] at apart

end Homes

theorem classTyped {g k : Func} (kin : Semantics.Kin g k) {v : Value} {ty : Ty} (typed : Structure.typeOf g v ty = ty)
    (plain : v.isFloatConst = false) : (operandTy k v).regClass = ty.regClass := by
  cases v with
  | float bits => cases plain
  | bool flag =>
    rw [← typed]
    rfl
  | temp id => rw [operandTy, kin.valueType, show g.valueType id = ty from typed]
  | int word =>
    cases ty with
    | f64 => exact Ty.noConfusion typed
    | _ => rfl

section Routes
variable {f g k : Func} {ivs : Intervals} (before : WellFormed f) (scanned : RegAlloc.Scanned registerFile f ivs g)
  (housed : Housed g k) {i : Inst} (inside : i ∈ g.insts) (fits : Fits g i)
include before scanned housed inside fits

theorem valueRouted (other : i.op ≠ .fconst) {v : Value} (used : v ∈ i.uses) : v.isFloatConst = false ∧
    ∀ id, v = .temp id → Side.homes.Holds k (k.valueType id).regClass (k.location id) := by
  constructor
  · by_contra float
    exact other (literalsConstant fits (List.any_eq_true.mpr ⟨v, used, Bool.not_eq_false _ ▸ float⟩))
  · rintro id rfl
    obtain ⟨bb, there, listed⟩ := List.mem_flatMap.mp inside
    have sound := (scanned.code.wellFormed before).sound bb there i listed
    refine definedHome scanned housed before (sound.defined id ?_)
    exact List.mem_filterMap.mpr ⟨_, used, rfl⟩

theorem jumpRouted (op : i.op = .jump) : ∃ b args, k.findBlock? (i.target 0) = some b ∧ i.targetArgs = [args] ∧
    args.length = ((k.block b).params.map fun p => k.location p.id).length ∧
    Routed k .homes (args.zip ((k.block b).params.map fun p => k.location p.id)) := by
  have ok := scanned.code.wellFormed before
  obtain ⟨home, there, listed⟩ := List.mem_flatMap.mp inside
  have sound := ok.sound home there i listed
  have one : i.targets.length = 1 := by
    rw [(Structure.shapeIff.mp sound.shape).2.2, op]
    rfl
  obtain ⟨label, targets⟩ := List.length_eq_one_iff.mp one
  obtain ⟨args, lists⟩ := List.length_eq_one_iff.mp
    ((sound.lists (targets ▸ List.cons_ne_nil _ _)).trans one)
  obtain ⟨bb, tail, named, length, types⟩ := sound.edges (label, args) (by simp [targets, lists])
  have block := List.mem_of_mem_tail tail
  obtain ⟨b, located⟩ := List.getElem?_of_mem block
  have params : (k.block b).params = bb.params := (housed.kin.params b).trans (by rw [Func.blockAt located])
  dsimp only at named length types
  refine ⟨b, args, ?_, lists, ?_, ?_⟩
  · rw [housed.kin.findBlock?, Inst.target, targets, List.getD_cons_zero]
    exact named ▸ Func.findBlockAt ok.labels located
  · rw [List.length_map, params, length]
  · rw [params, List.zip_map_right]
    have used {v : Value} (listed : v ∈ args) : v ∈ i.uses :=
      List.mem_append_right _ (List.mem_flatten.mpr ⟨args, lists ▸ List.mem_cons_self, listed⟩)
    have route {v : Value} (listed : v ∈ args) :=
      valueRouted before scanned housed inside fits (by rw [op]; decide) (used listed)
    refine ⟨?_, fun e moved id temp => ?_, fun e moved => ?_, fun e moved => ?_⟩
    · rw [List.map_map, show Prod.snd ∘ Prod.map id (fun p : Param => k.location p.id) =
        (fun p : Param => k.location p.id) ∘ Prod.snd from rfl, ← List.map_map, List.map_snd_zip
          (Nat.le_of_eq length.symm)]
      exact paramsApart scanned housed before block
    all_goals
      obtain ⟨⟨v, p⟩, paired, rfl⟩ := List.mem_map.mp moved
      have listed := (List.of_mem_zip paired).1
    · exact (route listed).2 id temp
    · have param := (List.of_mem_zip paired).2
      have ty : k.valueType p.id = p.ty := by
        rw [housed.kin.valueType, Func.valueType, List.getD_eq_getElem?_getD, (ok.declared bb block).params p param]
        rfl
      have defined : p.id ∈ g.definedIds :=
        Func.memDefinedIds.mpr ⟨bb, block, Block.memDefinedIds.mpr (.inl (List.mem_map_of_mem param))⟩
      have classed := classTyped housed.kin (types _ paired) (route listed).1
      exact classed ▸ ty ▸ definedHome scanned housed before defined
    · exact (route listed).1

theorem callRouted (op : i.op = .call) : Routed k .args
    (i.operands.zip ((argRegs (i.operands.map (operandTy k))).map Location.reg)) := by
  have able := fits.encodable
  have same : operandTy k = operandTy g := by
    funext v
    cases v <;> simp only [operandTy, housed.kin.valueType]
  have few : fitsArgRegs (i.operands.map (operandTy k)) = true := by
    simpa only [op, Recipe.ofOpcode, encodable, same] using able
  obtain ⟨once, each⟩ := argsOnce few
  have length : (argRegs (i.operands.map (operandTy k))).length = i.operands.length :=
    (lengthAssignByClass ..).trans (List.length_map ..)
  have route {v : Value} (listed : v ∈ i.operands) := valueRouted before scanned housed inside fits
    (by rw [op]; decide) (List.mem_append_left _ listed)
  rw [List.zip_map_right]
  refine ⟨?_, fun e moved id temp => ?_, fun e moved => ?_, fun e moved => ?_⟩
  · rw [List.map_map, show Prod.snd ∘ Prod.map id Location.reg = Location.reg ∘ (Prod.snd : Value × Nat → Nat) from rfl,
      ← List.map_map, List.map_snd_zip (Nat.le_of_eq length)]
    exact once.map fun _ _ => Location.reg.inj
  all_goals
    obtain ⟨⟨v, n⟩, paired, rfl⟩ := List.mem_map.mp moved
    have listed := (List.of_mem_zip paired).1
  · exact (route listed).2 id temp
  · have typed : (operandTy k v, n) ∈ (i.operands.map (operandTy k)).zip (argRegs (i.operands.map (operandTy k))) := by
      rw [List.zip_map_left]
      exact List.mem_map.mpr ⟨_, paired, rfl⟩
    exact ⟨n, each _ typed, rfl⟩
  · exact (route listed).1

end Routes

section Entry
variable {f g k : Func} {ivs : Intervals} (before : WellFormed f) (scanned : RegAlloc.Scanned registerFile f ivs g)
  (housed : Housed g k) (signature : Legalize.checkSignature f.signature = .ok ())
include before scanned housed

theorem entryCopiesAre : Lower.entryCopies k (k.block 0) =
    ((k.block 0).params.zip (argRegs ((k.block 0).params.map Param.ty))).map fun e =>
      ⟨e.2, locationKey (k.location e.1.id), e.1.ty.regClass⟩ := by
  refine (List.filterMap_congr fun e paired => if_pos ?_).trans (congrFun List.filterMap_eq_map' _)
  have ok := scanned.code.wellFormed before
  obtain ⟨entry, rest, fits⟩ := ok.entry
  have listed := (List.of_mem_zip paired).1
  rw [housed.kin.params, Func.block, fits.blocks, List.getD_cons_zero] at listed
  have defined : e.1.id ∈ g.definedIds := Func.memDefinedIds.mpr ⟨entry, fits.blocks ▸ List.mem_cons_self,
    Block.memDefinedIds.mpr (.inl (List.mem_map_of_mem listed))⟩
  have known := (definedHome scanned housed before defined).known
  cases home : k.location e.1.id with
  | unassigned =>
    rw [home] at known
    exact known.elim
  | _ => rfl

include signature

theorem prologueMoves (u : Undefined) (p : Processor) :
    ∃ q, pass u (Lower.lowerMoves k (Lower.entryCopies k (k.block 0))) p = some (.goes q) ∧
      Transferred k (((k.block 0).params.zip (argRegs ((k.block 0).params.map Param.ty))).map fun e =>
        (k.location e.1.id, p.held k (.reg e.2))) p q := by
  have ok := scanned.code.wellFormed before
  obtain ⟨entry, rest, fits⟩ := ok.entry
  have there : entry ∈ g.blocks := fits.blocks ▸ List.mem_cons_self
  have params : (k.block 0).params = entry.params := by
    rw [housed.kin.params, Func.block, fits.blocks, List.getD_cons_zero]
  have few : fitsArgRegs (entry.params.map Param.ty) = true := by
    rw [fits.params, scanned.code.signature]
    exact signatureFits signature
  rw [entryCopiesAre before scanned housed, params]
  obtain ⟨once, each⟩ := argsOnce few
  have length : (argRegs (entry.params.map Param.ty)).length = entry.params.length :=
    (lengthAssignByClass ..).trans (List.length_map ..)
  have source {e : Param × Nat} (paired : e ∈ entry.params.zip (argRegs (entry.params.map Param.ty))) :
      Side.args.Holds k e.1.ty.regClass (.reg e.2) := by
    have typed : (e.1.ty, e.2) ∈ (entry.params.map Param.ty).zip (argRegs (entry.params.map Param.ty)) := by
      rw [List.zip_map_left]
      exact List.mem_map.mpr ⟨_, paired, rfl⟩
    exact ⟨e.2, each _ typed, rfl⟩
  have dest {e : Param × Nat} (paired : e ∈ entry.params.zip (argRegs (entry.params.map Param.ty))) :
      Side.homes.Holds k e.1.ty.regClass (k.location e.1.id) := by
    have listed := (List.of_mem_zip paired).1
    have ty : k.valueType e.1.id = e.1.ty := by
      rw [housed.kin.valueType, Func.valueType, List.getD_eq_getElem?_getD, (ok.declared entry there).params e.1 listed]
      rfl
    exact ty ▸ definedHome scanned housed before (Func.memDefinedIds.mpr ⟨entry, there,
      Block.memDefinedIds.mpr (.inl (List.mem_map_of_mem listed))⟩)
  generalize pairs : entry.params.zip (argRegs (entry.params.map Param.ty)) = moves at *
  have ends {e : Param × Nat} (paired : e ∈ moves) :
      placeAt e.2 = .reg e.2 ∧ placeAt (locationKey (k.location e.1.id)) = k.location e.1.id :=
    ⟨Mirrors.placeAtRegister (source paired).known, placeOfKey (dest paired).known⟩
  have homes : (moves.map fun e => k.location e.1.id).Nodup := by
    have apart := paramsApart scanned housed before there
    rwa [← List.map_fst_zip (Nat.le_of_eq length.symm), pairs, List.map_map] at apart
  have written : ((moves.map fun e => (⟨e.2, locationKey (k.location e.1.id), e.1.ty.regClass⟩ : Copy)).map
      Copy.dst).Nodup := by
    rw [List.map_map]
    refine List.pairwise_map.mpr ((List.pairwise_map.mp homes).imp_of_mem fun left right differ same => differ ?_)
    rw [← (ends left).2, ← (ends right).2]
    exact congrArg placeAt same
  have movable := movableOf (housedSlots scanned housed) (a := .args) (b := .homes) (fun c inside => by
    obtain ⟨e, paired, rfl⟩ := List.mem_map.mp inside
    exact (ends paired).1 ▸ source paired) (fun c inside => by
    obtain ⟨e, paired, rfl⟩ := List.mem_map.mp inside
    exact (ends paired).2.symm ▸ dest paired) (.inr rfl) written
  obtain ⟨q, goes, moved⟩ := lowerMovesTransfer movable housed.spread u p
  refine ⟨q, goes, ?_⟩
  rw [List.map_map] at moved
  have same : moves.map (fun e => (k.location e.1.id, p.held k (.reg e.2))) = moves.map
      ((fun c : Copy => (placeAt c.dst, p.held k (placeAt c.src))) ∘
        fun e => ⟨e.2, locationKey (k.location e.1.id), e.1.ty.regClass⟩) :=
    List.map_congr_left fun e paired => by simp only [Function.comp_apply, (ends paired).1, (ends paired).2]
  exact same ▸ moved

end Entry

theorem callCode (f : Func) {i : Inst} (recipe : i.enc.recipe? = some .call) : ∃ notes rest,
    lowerInst f i = Lower.parallelMove f i.operands ((argRegs (i.operands.map (operandTy f))).map Location.reg) ++
      notes ++ .inst (.call i.callee) :: rest ∧ ∀ u p, pass u notes p = some (.goes p) := by
  cases unmapped : i.safepointSlots.isEmpty with
  | true =>
    refine ⟨[], if i.ty.isFloat then Lower.storeXmm f i (xmm 0) else Lower.storeGpr f i rax, ?_, fun u p => rfl⟩
    simp [lowerInst, recipe, Lower.call, unmapped]
  | false =>
    refine ⟨[.stackMap i.safepointSlots (i.safepointSlots.map (Lower.slotOffset f))],
      if i.ty.isFloat then Lower.storeXmm f i (xmm 0) else Lower.storeGpr f i rax, ?_, fun u p => rfl⟩
    simp [lowerInst, recipe, Lower.call, unmapped]

def Transfers (f : Func) (code : List Asm) (puts : Processor → List (Location × Word)) : Prop :=
  ∀ (u : Undefined) (p : Processor), ∃ q, pass u code p = some (.goes q) ∧ Transferred f (puts p) p q

def operandsAt (f : Func) (values : List Value) (dests : List Location) (p : Processor) : List (Location × Word) :=
  (values.zip dests).map fun e => (e.2, p.operand f e.1)

/-- In an allocated function with its frame, in whatever forms, the moves of a jump bring each argument to the
home of its parameter, those of a call each operand to its argument register, and those of the prologue each
argument of the function to the home of its parameter. All of them arrive as they were before the first move,
and nothing else has changed but the registers that moves go by. -/
theorem movedAtOnce {limits : Limits} {f g h k : Func} (verified : verifyFunction f = []) (fitted : Fitted f)
    (signature : Legalize.checkSignature f.signature = .ok ())
    (allocated : RegAlloc.run registerFile (FlowGraph.ofFunc f) (DomTree.ofFunc f (FlowGraph.ofFunc f)) f =
      (g, .ok ()))
    (framed : layOutFrame limits g = (h, .ok ())) (later : Reformed h k) :
    (∀ i ∈ k.insts, i.op = .jump → ∃ b args, k.findBlock? (i.target 0) = some b ∧ i.targetArgs = [args] ∧
      let dests := (k.block b).params.map fun p => k.location p.id
      args.length = dests.length ∧
      lowerInst k i = Lower.parallelMove k args dests ++ Lower.jump k (i.enc.form .taken) (i.target 0) ∧
      Transfers k (Lower.parallelMove k args dests) (operandsAt k args dests)) ∧
    (∀ i ∈ k.insts, i.op = .call →
      let dests := (argRegs (i.operands.map (operandTy k))).map Location.reg
      i.operands.length = dests.length ∧
      (∃ notes rest, lowerInst k i = Lower.parallelMove k i.operands dests ++ notes ++ .inst (.call i.callee) :: rest ∧
        ∀ u p, pass u notes p = some (.goes p)) ∧
      Transfers k (Lower.parallelMove k i.operands dests) (operandsAt k i.operands dests)) ∧
    (h.block 0).insts.head? = some prologueInst ∧
    (∃ saving, lowerInst k prologueInst = saving ++ Lower.lowerMoves k (Lower.entryCopies k (k.block 0))) ∧
    Transfers k (Lower.lowerMoves k (Lower.entryCopies k (k.block 0))) fun p =>
      ((k.block 0).params.zip (argRegs ((k.block 0).params.map Param.ty))).map fun e =>
        (k.location e.1.id, p.held k (.reg e.2)) := by
  have before := verifiedIff.mp verified
  obtain ⟨ivs, scanned⟩ := RegAlloc.scannedOf RegAlloc.registersConsistent before allocated
  have housed := housedOf framed later
  have own := housedSlots scanned housed
  have fits : Fitted g := by
    have fits := allocateFitted (g := FlowGraph.ofFunc f) (t := DomTree.ofFunc f (FlowGraph.ofFunc f)) fitted
    rwa [allocated] at fits
  refine ⟨fun i inside op => ?_, fun i inside op => ?_, ?_, ⟨_, rfl⟩, fun u p =>
    prologueMoves before scanned housed signature u p⟩
  · obtain ⟨j, held, same⟩ := housed.insts i inside (by rw [op]; decide)
    have recipe := op ▸ formedRecipe same (fits j held)
    obtain ⟨op', -, -, -, targets, lists⟩ := Inst.bareReads (formlessBare same)
    obtain ⟨b, args, found, given, length, routed⟩ :=
      jumpRouted before scanned housed held (fits j held) (op'.symm.trans op)
    rw [Inst.target, ← targets, ← Inst.target] at found
    refine ⟨b, args, found, lists.trans given, length, ?_,
      fun u p => parallelMoveTransfers own housed.spread routed u p⟩
    simp only [lowerInst, recipe, Recipe.ofOpcode, Lower.jumpInst, found, lists.trans given]
  · obtain ⟨j, held, same⟩ := housed.insts i inside (by rw [op]; decide)
    have recipe := op ▸ formedRecipe same (fits j held)
    obtain ⟨op', -, -, operands, -⟩ := Inst.bareReads (formlessBare same)
    have routed := callRouted before scanned housed held (fits j held) (op'.symm.trans op)
    rw [← operands] at routed
    refine ⟨?_, callCode k recipe, fun u p => parallelMoveTransfers own housed.spread routed u p⟩
    rw [List.length_map, argRegs, lengthAssignByClass, List.length_map]
  · obtain ⟨entry, rest, -, blocks⟩ := (frameLaidOf framed).blocks
    rw [Func.block, blocks]
    rfl

section Exchanging

def exchanging : Func :=
  { signature := { params := [.i64, .i64], returns := [.i64] }
    blocks := [
      { label := "entry", params := [⟨0, .i64⟩, ⟨1, .i64⟩]
        insts := [{ jumpTo "again" [.temp 0, .temp 1, .int 1] {} with enc := .ofRecipe .jump }] },
      { label := "again", params := [⟨2, .i64⟩, ⟨3, .i64⟩, ⟨4, .i64⟩]
        insts := [{ op := .brif, operands := [.temp 4], targets := ["swap", "done"], targetArgs := [[], []],
                    enc := .ofRecipe .brif }] },
      { label := "swap"
        insts := [{ jumpTo "again" [.temp 3, .temp 2, .int 7] {} with enc := .ofRecipe .jump }] },
      { label := "done", insts := [{ op := .ret, operands := [.temp 2], enc := .ofRecipe .ret }] }]
    valueTypes := List.replicate 5 .i64 }

def exchangingAllocated : Func × Except Failure Unit :=
  RegAlloc.run registerFile (FlowGraph.ofFunc exchanging) (DomTree.ofFunc exchanging (FlowGraph.ofFunc exchanging))
    exchanging

def exchangingFramed : Func :=
  { exchangingAllocated.1 with
    blocks := exchangingAllocated.1.blocks.modify 0 fun entry => { entry with insts := prologueInst :: entry.insts }
    frame := { laidOut := true, spillAreaSize := 8, savedRegs := [rbx, r12, r13] } }

def numberedRegisters : Processor where
  regs r := BitVec.ofNat 64 r.val
  memory _ := 0
  flags := .ofSub (0 : Word) 0
  xmms _ := 0

theorem exchangingLaidOut : layOutFrame {} exchangingAllocated.1 = (exchangingFramed, .ok ()) := by cbv

theorem exchangedRegisters : verifyFunction exchanging = [] ∧ Fitted exchanging ∧
    Legalize.checkSignature exchanging.signature = .ok () ∧ exchangingAllocated.2 = .ok () ∧
    ∃ q, pass (fun _ m => m.flags) (Lower.parallelMove exchangingFramed
        [.temp 3, .temp 2, .int 7] [.reg rbx, .reg r12, .reg r13]) numberedRegisters = some (.goes q) ∧
      q.regs (gprOf rbx) = 12 ∧ q.regs (gprOf r12) = 3 ∧ q.regs (gprOf r13) = 7 ∧ q.regs (gprOf r14) = 14 := by
  have verified : verifyFunction exchanging = [] := by decide +kernel
  have own : ∀ i ∈ exchanging.insts, encode? exchanging i = some i.enc := by decide
  have fitted : Fitted exchanging := fun i inside => ⟨i.enc, own i inside, rfl⟩
  have signature : Legalize.checkSignature exchanging.signature = .ok () := by decide
  have allocated : exchangingAllocated.2 = .ok () := by decide +kernel
  obtain ⟨jumps, -⟩ := movedAtOnce verified fitted signature (Prod.ext rfl allocated) exchangingLaidOut (.refl _)
  let swap : Inst := { jumpTo "again" [.temp 3, .temp 2, .int 7] {} with enc := .ofRecipe .jump }
  have inside : swap ∈ exchangingFramed.insts := by decide +kernel
  obtain ⟨b, args, found, lists, -, -, transfers⟩ := jumps swap inside rfl
  have given : args = [.temp 3, .temp 2, .int 7] := (List.cons.inj lists).1.symm
  have target : exchangingFramed.findBlock? "again" = some 1 := by decide +kernel
  have block : b = 1 := Option.some.inj (found.symm.trans target)
  have dests : (exchangingFramed.block 1).params.map (fun p => exchangingFramed.location p.id) =
      [.reg rbx, .reg r12, .reg r13] := by cbv
  rw [block, given, dests] at transfers
  obtain ⟨q, goes, moved⟩ := transfers (fun _ m => m.flags) numberedRegisters
  have homes : exchangingFramed.location 3 = .reg r12 ∧ exchangingFramed.location 2 = .reg rbx := ⟨by cbv, by cbv⟩
  have puts : operandsAt exchangingFramed [.temp 3, .temp 2, .int 7] [.reg rbx, .reg r12, .reg r13]
      numberedRegisters = [(.reg rbx, 12), (.reg r12, 3), (.reg r13, 7)] := by
    simp only [operandsAt, List.zip_cons_cons, List.zip_nil_right, List.map_cons,
      List.map_nil, Processor.operand, homes]
    rfl
  rw [puts] at moved
  exact ⟨verified, fitted, signature, allocated, q, goes, moved.taken (.reg rbx, 12) (by decide),
    moved.taken (.reg r12, 3) (by decide), moved.taken (.reg r13, 7) (by decide),
    moved.leaves.kept .gpr (.reg r14) rfl (by decide)⟩

end Exchanging

end X64
end SsaCodegen
