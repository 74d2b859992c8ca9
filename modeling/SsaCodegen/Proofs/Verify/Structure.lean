import SsaCodegen.Proofs.Flow.Labels
/-! The structural verifier is exact: it reports nothing for a function if and only if the
function is well-formed. Dominance, which it decides on the tree, is availability. -/
namespace SsaCodegen.Structure
open Search FlowGraph

variable {f : Func}

theorem zipIdxClean {α β : Type} {items : List α} {check : α × Nat → List β} :
    items.zipIdx.flatMap check = [] ↔ ∀ i x, items[i]? = some x → check (x, i) = [] := by
  simp only [List.flatMap_eq_nil_iff, Prod.forall, List.mem_zipIdx_iff_getElem?]
  exact ⟨fun clean i x located => clean x i located, fun clean x i located => clean i x located⟩

theorem mapEqOfZip {α β : Type} {g : α → β} {left : List α} {right : List β}
    (length : left.length = right.length) (same : ∀ e ∈ left.zip right, g e.1 = e.2) :
    left.map g = right := by
  induction left generalizing right with
  | nil => exact (List.eq_nil_of_length_eq_zero length.symm).symm
  | cons a rest ih =>
    obtain ⟨b, others, rfl⟩ := List.exists_cons_of_length_eq_add_one length.symm
    rw [List.map_cons, same (a, b) List.mem_cons_self,
      ih (by simpa using length) fun e inside => same e (List.mem_cons_of_mem _ inside)]

theorem zipOfMapEq {α β : Type} {g : α → β} {left : List α} {right : List β}
    (same : left.map g = right) : ∀ e ∈ left.zip right, g e.1 = e.2 := by
  subst same
  intro e inside
  rw [List.zip_map_right, List.zip_eq_zipWith, List.zipWith_self] at inside
  obtain ⟨pair, listed, rfl⟩ := List.mem_map.mp inside
  obtain ⟨a, -, rfl⟩ := List.mem_map.mp listed
  rfl

theorem entryClean {entry : Block} :
    entryViolations f entry = [] ↔ entry.params.map Param.ty = f.signature.params := by
  unfold entryViolations
  dsimp only
  split
  · rename_i differ
    refine iff_of_false (List.cons_ne_nil _ _) fun same => differ ?_
    rw [← same, List.length_map]
  · rename_i length
    have length := Classical.not_not.mp length
    rw [zipIdxClean]
    simp only [complainUnlessIff, beq_iff_eq]
    constructor
    · intro clean
      refine mapEqOfZip length fun e inside => ?_
      obtain ⟨i, located⟩ := List.getElem?_of_mem inside
      exact clean i e located
    · intro same i e located
      exact zipOfMapEq same e (List.mem_of_getElem? located)

theorem labelsClean {blocks : List Block} {seen : List String} :
    labelViolations seen blocks = [] ↔
      (blocks.map Block.label).Nodup ∧ ∀ label ∈ blocks.map Block.label, label ∉ seen := by
  induction blocks generalizing seen with
  | nil => simp [labelViolations]
  | cons bb rest ih =>
    simp only [labelViolations, List.append_eq_nil_iff, complainUnlessIff, ih,
      Bool.not_eq_true', List.contains_eq_mem, decide_eq_false_iff_not, List.map_cons,
      List.nodup_cons, List.forall_mem_cons]
    simp only [List.mem_cons, not_or]
    constructor
    · rintro ⟨fresh, once, others⟩
      exact ⟨⟨fun again => (others _ again).1 rfl, once⟩, fresh, fun l inside => (others l inside).2⟩
    · rintro ⟨⟨first, once⟩, fresh, others⟩
      exact ⟨fresh, once, fun l inside => ⟨fun same => first (same ▸ inside), others l inside⟩⟩

theorem definitionsClean {defs : List Definition} {seen : List Nat} :
    definitionViolations f seen defs = [] ↔
      ((defs.map Definition.value).Nodup ∧ ∀ v ∈ defs.map Definition.value, v ∉ seen) ∧
        ∀ d ∈ defs, f.valueTypes[d.value]? = some d.ty := by
  induction defs generalizing seen with
  | nil => simp [definitionViolations]
  | cons d rest ih =>
    have typed : f.valueTypes[d.value]? = some d.ty ↔
        d.value < f.numValues ∧ f.valueType d.value = d.ty := by
      by_cases inside : d.value < f.valueTypes.length
      · simp [Func.valueType, Func.numValues, inside]
      · simp [Func.numValues, inside]
    simp only [definitionViolations, List.map_cons, List.nodup_cons, List.forall_mem_cons, typed]
    split
    · rename_i outside
      refine iff_of_false (List.cons_ne_nil _ _) fun clean => ?_
      exact Nat.not_le.mpr clean.2.1.1 outside
    · rename_i inside
      split
      · rename_i again
        refine iff_of_false (List.cons_ne_nil _ _) fun clean => ?_
        exact clean.1.2.1 (List.contains_iff_mem.mp again)
      · rename_i fresh
        have fresh : d.value ∉ seen := fun again => fresh (List.contains_iff_mem.mpr again)
        simp only [List.append_eq_nil_iff, complainUnlessIff, beq_iff_eq, ih, List.mem_cons,
          not_or]
        constructor
        · rintro ⟨ty, ⟨once, others⟩, rest⟩
          exact ⟨⟨⟨fun again => (others _ again).1 rfl, once⟩, fresh,
            fun v listed => (others v listed).2⟩, ⟨Nat.lt_of_not_le inside, ty⟩, rest⟩
        · rintro ⟨⟨⟨first, once⟩, -, others⟩, ⟨-, ty⟩, rest⟩
          exact ⟨ty, ⟨once, fun v listed => ⟨fun same => first (same ▸ listed), others v listed⟩⟩,
            rest⟩

theorem mapZipIdx {α β γ : Type} {g : α × Nat → List β} {h : β → γ} {k : α → List γ}
    (same : ∀ a i, (g (a, i)).map h = k a) (items : List α) :
    (items.zipIdx.flatMap g).map h = items.flatMap k := by
  have each : (fun e => (g e).map h) = fun e => k e.1 := funext fun e => same e.1 e.2
  have first : items = items.zipIdx.map Prod.fst := (List.zipIdx_map_fst ..).symm
  rw [List.map_flatMap, each]
  conv => rhs; rw [first, List.flatMap_map]

theorem definitionValues (f : Func) : (definitions f).map Definition.value = f.definedIds := by
  have results (insts : List Inst) :
      insts.flatMap (·.result.toList) = insts.filterMap Inst.result := by
    induction insts with
    | nil => rfl
    | cons inst rest ih =>
      rw [List.flatMap_cons, ih, List.filterMap_cons]
      cases inst.result <;> rfl
  refine mapZipIdx (fun bb b => ?_) f.blocks
  rw [List.map_append, List.map_map, Block.definedIds, ← results]
  refine congrArg _ (mapZipIdx (fun inst i => ?_) bb.insts)
  dsimp only
  cases inst.result <;> rfl

theorem memDefinitions {d : Definition} : d ∈ definitions f ↔ ∃ b bb, f.blocks[b]? = some bb ∧
    ((∃ p ∈ bb.params, d = ⟨p.id, p.ty, b, none, bb.label⟩) ∨
      ∃ i inst id, bb.insts[i]? = some inst ∧ inst.result = some id ∧
        d = ⟨id, inst.ty, b, some i, instPlace bb.label i⟩) := by
  simp only [definitions, List.mem_flatMap, Prod.exists, List.mem_zipIdx_iff_getElem?,
    List.mem_append, List.mem_map]
  constructor
  · rintro ⟨bb, b, located, ⟨p, listed, rfl⟩ | ⟨inst, i, there, found⟩⟩
    · exact ⟨b, bb, located, .inl ⟨p, listed, rfl⟩⟩
    · refine ⟨b, bb, located, .inr ⟨i, inst, ?_⟩⟩
      cases result : inst.result with
      | none => simp [result] at found
      | some id =>
        simp only [result, List.mem_singleton] at found
        exact ⟨id, there, rfl, found⟩
  · rintro ⟨b, bb, located, ⟨p, listed, rfl⟩ | ⟨i, inst, id, there, result, rfl⟩⟩
    · exact ⟨bb, b, located, .inl ⟨p, listed, rfl⟩⟩
    · exact ⟨bb, b, located, .inr ⟨inst, i, there, by simp [result]⟩⟩

theorem definedClean : definitionViolations f [] (definitions f) = [] ↔
    f.definedIds.Nodup ∧ ∀ bb ∈ f.blocks, Declared f.valueTypes bb := by
  rw [definitionsClean, definitionValues]
  simp only [List.not_mem_nil, not_false_eq_true, implies_true, and_true]
  refine and_congr_right fun _ => ⟨fun typed bb inside => ?_, fun declared d listed => ?_⟩
  · obtain ⟨b, located⟩ := List.getElem?_of_mem inside
    constructor
    · intro p listed
      exact typed _ (memDefinitions.mpr ⟨b, bb, located, .inl ⟨p, listed, rfl⟩⟩)
    · intro inst there id result
      obtain ⟨i, there⟩ := List.getElem?_of_mem there
      exact typed _ (memDefinitions.mpr ⟨b, bb, located, .inr ⟨i, inst, id, there, result, rfl⟩⟩)
  · obtain ⟨b, bb, located, ⟨p, there, rfl⟩ | ⟨i, inst, id, there, result, rfl⟩⟩ :=
      memDefinitions.mp listed
    · exact (declared bb (List.mem_of_getElem? located)).params p there
    · exact (declared bb (List.mem_of_getElem? located)).results inst (List.mem_of_getElem? there) id
        result

theorem argumentsClean {f : Func} {label : String} {args : List Value} {params : List Param} :
    (if args.length ≠ params.length then
      ["passes " ++ toString args.length ++ " arguments to " ++ label ++ " which takes " ++
        toString params.length]
    else (args.zip params).flatMap fun (v, p) => expectTy f v p.ty "branch argument") = [] ↔
      args.length = params.length ∧ ∀ e ∈ args.zip params, typeOf f e.1 e.2.ty = e.2.ty := by
  split
  · rename_i differ
    exact iff_of_false (List.cons_ne_nil _ _) fun fits => differ fits.1
  · rename_i length
    simp only [List.flatMap_eq_nil_iff, expectTy, complainUnlessIff, beq_iff_eq]
    exact ⟨fun types => ⟨Classical.not_not.mp length, types⟩, fun fits => fits.2⟩

theorem edgeClean (labels : f.labels.Nodup) {label : String} {args : List Value} :
    edgeMessages f label args = [] ↔ EdgeFits f label args := by
  unfold edgeMessages
  cases found : f.findBlock? label with
  | none =>
    refine iff_of_false (List.cons_ne_nil _ _) fun fits => ?_
    obtain ⟨bb, inside, named, -⟩ := fits
    obtain ⟨i, located⟩ := Func.atOfMem (List.mem_of_mem_tail inside)
    rw [← named, Func.findBlockAt labels located] at found
    cases found
  | some t =>
    obtain ⟨bb, located, named⟩ := Func.findBlockSound found
    simp only [List.append_eq_nil_iff, complainUnlessIff, Func.blockAt located, argumentsClean,
      bne_iff_ne]
    constructor
    · rintro ⟨later, fits⟩
      obtain ⟨k, rfl⟩ := Nat.exists_eq_succ_of_ne_zero later
      refine ⟨bb, List.mem_of_getElem? (i := k) ?_, named, fits⟩
      rw [List.getElem?_tail]
      exact located
    · rintro ⟨other, inside, same, fits⟩
      obtain ⟨k, there⟩ := List.getElem?_of_mem inside
      rw [List.getElem?_tail] at there
      have index : t = k + 1 := Func.indexUnique labels located there (named.trans same.symm)
      subst index
      cases Option.some.inj (located.symm.trans there)
      exact ⟨Nat.succ_ne_zero k, fits⟩

theorem branchClean (labels : f.labels.Nodup) {inst : Inst} (shape : shapeMessages inst = []) :
    branchMessages f inst = [] ↔
      (inst.targets ≠ [] → inst.targetArgs.length = inst.targets.length) ∧
        ∀ e ∈ inst.targets.zip inst.targetArgs, EdgeFits f e.1 e.2 := by
  have count : inst.targets.length = inst.op.info.successors := by
    simp only [shapeMessages, List.append_eq_nil_iff, complainUnlessIff, beq_iff_eq] at shape
    exact shape.2
  unfold branchMessages
  cases targets : inst.targets with
  | nil =>
    rw [targets, List.length_nil] at count
    simp [← count]
  | cons label rest =>
    simp only [List.isEmpty_cons, Bool.and_false, Bool.false_eq_true, if_false]
    split
    · rename_i differ
      exact iff_of_false (List.cons_ne_nil _ _) fun fits => differ (fits.1 (List.cons_ne_nil _ _))
    · rename_i length
      simp only [List.flatMap_eq_nil_iff, edgeClean labels]
      exact ⟨fun fits => ⟨fun _ => Classical.not_not.mp length, fits⟩, fun fits => fits.2⟩

theorem placesClean {b : Nat} {bb : Block} : bb.insts ≠ [] ∧ (∀ i inst, bb.insts[i]? = some inst →
      placeMessages b i (i + 1 == bb.insts.length) inst = []) ↔
    Ended bb.insts ∧ ∀ i inst, bb.insts[i]? = some inst → inst.op = .prologue → b = 0 ∧ i = 0 := by
  have located (i : Nat) (inst : Inst) :
      placeMessages b i (i + 1 == bb.insts.length) inst = [] ↔
        (inst.isTerminator = true ↔ i + 1 = bb.insts.length) ∧
          (inst.op = .prologue → b = 0 ∧ i = 0) := by
    simp only [placeMessages, List.append_eq_nil_iff, complainUnlessIff, Bool.or_eq_true,
      Bool.not_eq_true', Bool.and_eq_true, bne_iff_ne, beq_iff_eq, beq_eq_false_iff_ne]
    by_cases ends : inst.isTerminator = true <;> by_cases last : i + 1 = bb.insts.length <;>
      by_cases opens : inst.op = .prologue <;> simp [ends, last, opens]
  simp only [located]
  constructor
  · rintro ⟨present, all⟩
    refine ⟨⟨bb.insts.dropLast, bb.insts.getLast present, ?_, ?_, ?_⟩, fun i inst there =>
      (all i inst there).2⟩
    · exact (List.dropLast_concat_getLast present).symm
    · have positive := List.length_pos_iff.mpr present
      refine (all (bb.insts.length - 1) _ ?_).1.mpr (by omega)
      rw [← List.getLast?_eq_getElem?, List.getLast?_eq_some_getLast present]
    · intro inst inside
      obtain ⟨i, there⟩ := List.getElem?_of_mem inside
      obtain ⟨below, same⟩ := List.getElem?_eq_some_iff.mp there
      rw [List.length_dropLast] at below
      rw [List.getElem_dropLast] at same
      have here : bb.insts[i]? = some inst := List.getElem?_eq_some_iff.mpr ⟨by omega, same⟩
      exact Bool.eq_false_iff.mpr (mt (all i inst here).1.mp (by omega))
  · rintro ⟨⟨body, last, same, ends, inner⟩, opening⟩
    refine ⟨by simp [same], fun i inst there => ⟨?_, opening i inst there⟩⟩
    rw [same, List.length_append, List.length_singleton]
    rw [same] at there
    by_cases below : i < body.length
    · rw [List.getElem?_append_left below] at there
      rw [inner inst (List.mem_of_getElem? there)]
      simp only [Bool.false_eq_true, false_iff]
      omega
    · have inside := (List.getElem?_eq_some_iff.mp there).1
      rw [List.length_append, List.length_singleton] at inside
      have index : i = body.length := by omega
      subst index
      rw [List.getElem?_append_right (Nat.le_refl _)] at there
      simp only [Nat.sub_self, List.getElem?_cons_zero, Option.some.injEq] at there
      simp [← there, ends]

section Uses
variable {t : DomTree} {defs : List Definition}

theorem findDefinition (once : (defs.map Definition.value).Nodup) {id : Nat} {d : Definition} :
    defs.find? (·.value == id) = some d ↔ d ∈ defs ∧ d.value = id := by
  constructor
  · intro found
    exact ⟨List.mem_of_find?_eq_some found, by simpa using List.find?_some found⟩
  · rintro ⟨inside, rfl⟩
    induction defs with
    | nil => cases inside
    | cons e rest ih =>
      obtain ⟨fresh, once⟩ := List.nodup_cons.mp once
      rcases List.mem_cons.mp inside with rfl | later
      · simp
      · have differ : e.value ≠ d.value := fun same =>
          fresh (same ▸ List.mem_map_of_mem later)
        rw [List.find?_cons_of_neg (by simpa using differ)]
        exact ih once later

theorem usesClean (once : (defs.map Definition.value).Nodup)
    (allocated : ∀ d ∈ defs, d.value < f.numValues) {b i : Nat} {inst : Inst} :
    inst.uses.flatMap (useMessages f t defs b i) = [] ↔ ∀ id ∈ inst.usedTemps,
      ∃ d ∈ defs, d.value = id ∧ (t.isReachable b = true → reachesUse t d b i = true) := by
  have temp (id : Nat) : useMessages f t defs b i (.temp id) = [] ↔
      ∃ d ∈ defs, d.value = id ∧ (t.isReachable b = true → reachesUse t d b i = true) := by
    simp only [useMessages]
    split
    · rename_i missing
      refine iff_of_false (List.cons_ne_nil _ _) fun ⟨d, inside, same, _⟩ => ?_
      have below := allocated d inside
      rw [if_pos (same ▸ below), (findDefinition once).mpr ⟨inside, same⟩] at missing
      cases missing
    · rename_i d found
      split at found
      · obtain ⟨inside, same⟩ := (findDefinition once).mp found
        rw [complainUnlessIff]
        constructor
        · intro reaches
          refine ⟨d, inside, same, fun reachable => ?_⟩
          simpa [reachable] using reaches
        · rintro ⟨e, also, value, reaches⟩
          have both := (findDefinition once).mpr ⟨also, value⟩
          cases Option.some.inj (found.symm.trans both)
          cases reachable : t.isReachable b <;> simp [reachable, reaches]
      · cases found
  simp only [List.flatMap_eq_nil_iff, Inst.usedTemps, List.mem_filterMap]
  constructor
  · rintro clean id ⟨v, used, isTemp⟩
    cases v with
    | temp id' =>
      cases isTemp
      exact (temp id).mp (clean _ used)
    | _ => cases isTemp
  · intro ok v used
    cases v with
    | temp id => exact (temp id).mpr (ok id ⟨_, used, rfl⟩)
    | _ => rfl

end Uses

theorem reachesUseIff (labels : f.labels.Nodup) (once : f.definedIds.Nodup) {b i : Nat}
    {bb : Block} (located : f.blocks[b]? = some bb) (reaches : Reaches f bb.label) {d : Definition}
    (listed : d ∈ definitions f) :
    reachesUse (DomTree.ofFunc f (ofFunc f)) d b i = true ↔
      KnownAt f bb d.value ∨ ∃ j ∈ bb.insts.take i, j.result = some d.value := by
  obtain ⟨a, definer, home, here⟩ := memDefinitions.mp listed
  have defines : d.value ∈ definer.definedIds := by
    rw [Block.memDefinedIds]
    rcases here with ⟨p, param, rfl⟩ | ⟨k, inst, id, there, result, rfl⟩
    · exact .inl (List.mem_map_of_mem param)
    · exact .inr ⟨inst, List.mem_of_getElem? there, result⟩
  have block : d.block = a := by
    rcases here with ⟨_, _, rfl⟩ | ⟨_, _, _, _, _, rfl⟩ <;> rfl
  have only (j : Nat) (c : Block) (there : f.blocks[j]? = some c) :
      d.value ∈ c.definedIds ↔ j = a := by
    constructor
    · exact fun inside => Func.definedInOneBlock once there home inside defines
    · rintro rfl
      cases Option.some.inj (home.symm.trans there)
      exact defines
  by_cases same : a = b
  · subst same
    cases Option.some.inj (home.symm.trans located)
    have blockOnce := Func.definedOnceIn once (List.mem_of_getElem? home)
    have missing : Missing f d.value bb.label := by
      have sole (c : Block) (inside : c ∈ f.blocks) (also : d.value ∈ c.definedIds) : c = bb :=
        Func.oneHome once inside (List.mem_of_getElem? home) also defines
      exact (missingAtDefinition sole reaches).elim id id
    simp only [reachesUse, block, beq_self_eq_true, if_true, KnownAt, missing, not_true_eq_false,
      false_or]
    rcases here with ⟨p, param, rfl⟩ | ⟨k, inst, id, there, result, rfl⟩
    · exact iff_of_true rfl (.inl (List.mem_map_of_mem param))
    · simp only [decide_eq_true_eq]
      constructor
      · intro before
        exact .inr ⟨inst, List.mem_of_getElem? ((List.getElem?_take_of_lt before).trans there), result⟩
      · rintro (param | ⟨j, inside, also⟩)
        · exact absurd result (Block.paramNotResult blockOnce param (List.mem_of_getElem? there))
        · obtain ⟨m, there'⟩ := List.getElem?_of_mem inside
          rw [List.getElem?_take] at there'
          split at there'
          · rename_i below
            rwa [Block.resultIndex blockOnce there there' result also]
          · cases there'
  · have other : d.value ∉ bb.definedIds := fun inside => same ((only b bb located).mp inside).symm
    have reached := (reachesIff labels located).mpr reaches
    have positive : 0 < f.blocks.length := List.length_pos_of_mem (List.mem_of_getElem? located)
    simp only [reachesUse, block, beq_eq_false_iff_ne.mpr same, Bool.false_eq_true, if_false]
    rw [DomTree.ofFunc, DomTree.dominatesIff (proper f positive), Passes,
      missingIff labels located (Ne.symm same) only]
    constructor
    · exact fun known => .inl (.inl known.2)
    · rintro ((known | param) | ⟨j, inside, also⟩)
      · exact ⟨reached, known⟩
      · exact absurd (Block.memDefinedIds.mpr (.inl param)) other
      · exact absurd (Block.memDefinedIds.mpr (.inr ⟨j, List.mem_of_mem_take inside, also⟩)) other

theorem blockClean {t : DomTree} {defs : List Definition} {b : Nat} {bb : Block} :
    blockViolations f t defs b bb = [] ↔ bb.insts ≠ [] ∧ ∀ i inst, bb.insts[i]? = some inst →
      instMessages f t defs b i (i + 1 == bb.insts.length) inst = [] := by
  unfold blockViolations
  split
  · rename_i empty
    exact iff_of_false (List.cons_ne_nil _ _) fun clean => clean.1 (List.isEmpty_iff.mp empty)
  · rename_i present
    rw [zipIdxClean]
    simp only [List.map_eq_nil_iff]
    exact ⟨fun clean => ⟨mt List.isEmpty_iff.mpr present, clean⟩, fun clean => clean.2⟩

structure BlockFits (f : Func) (b : Nat) (bb : Block) : Prop where
  ended : Ended bb.insts
  opening : ∀ i inst, bb.insts[i]? = some inst → inst.op = .prologue → b = 0 ∧ i = 0
  sound : ∀ inst ∈ bb.insts, SoundInst f inst
  available : Reaches f bb.label → Available (KnownAt f bb) bb.insts

theorem blockFits (labels : f.labels.Nodup) (once : f.definedIds.Nodup)
    (declared : ∀ bb ∈ f.blocks, Declared f.valueTypes bb) {b : Nat} {bb : Block}
    (located : f.blocks[b]? = some bb) :
    blockViolations f (DomTree.ofFunc f (ofFunc f)) (definitions f) b bb = [] ↔
      BlockFits f b bb := by
  have values : ((definitions f).map Definition.value).Nodup := by rwa [definitionValues]
  have typed : ∀ d ∈ definitions f, f.valueTypes[d.value]? = some d.ty :=
    (definitionsClean.mp (definedClean.mpr ⟨once, declared⟩)).2
  have allocated : ∀ d ∈ definitions f, d.value < f.numValues := fun d listed =>
    (List.getElem?_eq_some_iff.mp (typed d listed)).1
  have positive : 0 < f.blocks.length := List.length_pos_of_mem (List.mem_of_getElem? located)
  have reachable : (DomTree.ofFunc f (ofFunc f)).isReachable b = true ↔ Reaches f bb.label := by
    rw [DomTree.ofFunc, DomTree.isReachableIff (proper f positive),
      reachesIff labels located]
  have definer {id : Nat} : id ∈ f.definedIds ↔ ∃ d ∈ definitions f, d.value = id := by
    rw [← definitionValues, List.mem_map]
  rw [blockClean]
  simp only [instMessages, List.append_eq_nil_iff, usesClean values allocated]
  constructor
  · rintro ⟨present, all⟩
    obtain ⟨ended, opening⟩ := placesClean.mp ⟨present, fun i inst there => (all i inst there).1.1.1.1⟩
    refine ⟨ended, opening, fun inst inside => ?_, fun reaches => ?_⟩
    · obtain ⟨i, there⟩ := List.getElem?_of_mem inside
      obtain ⟨⟨⟨⟨-, shape⟩, types⟩, branch⟩, uses⟩ := all i inst there
      obtain ⟨lists, edges⟩ := (branchClean labels shape).mp branch
      refine ⟨⟨shape, types, lists, edges⟩, fun id used => ?_⟩
      obtain ⟨d, listed, value, -⟩ := uses id used
      exact definer.mpr ⟨d, listed, value⟩
    · refine Available.iffAt.mpr fun i inst there id used => ?_
      obtain ⟨d, listed, rfl, reach⟩ := (all i inst there).2 id used
      exact (reachesUseIff labels once located reaches listed).mp (reach (reachable.mpr reaches))
  · rintro ⟨ended, opening, sound, available⟩
    obtain ⟨present, places⟩ := placesClean.mpr ⟨ended, opening⟩
    refine ⟨present, fun i inst there => ?_⟩
    have fits := sound inst (List.mem_of_getElem? there)
    refine ⟨⟨⟨⟨places i inst there, fits.shape⟩, fits.types⟩,
      (branchClean labels fits.shape).mpr ⟨fits.lists, fits.edges⟩⟩, fun id used => ?_⟩
    obtain ⟨d, listed, rfl⟩ := definer.mp (fits.defined id used)
    refine ⟨d, listed, rfl, fun reach => ?_⟩
    have reaches := reachable.mp reach
    exact (reachesUseIff labels once located reaches listed).mpr
      (Available.iffAt.mp (available reaches) i inst there d.value used)

theorem openingIff {entry : Block} {rest : List Block} (blocks : f.blocks = entry :: rest) :
    (∀ b bb, f.blocks[b]? = some bb → ∀ i inst, bb.insts[i]? = some inst →
      inst.op = .prologue → b = 0 ∧ i = 0) ↔
    (∀ inst ∈ entry.insts.tail, inst.op ≠ .prologue) ∧
      ∀ bb ∈ rest, ∀ inst ∈ bb.insts, inst.op ≠ .prologue := by
  rw [blocks]
  constructor
  · intro places
    refine ⟨fun inst inside opens => ?_, fun bb listed inst inside opens => ?_⟩
    · obtain ⟨i, there⟩ := List.getElem?_of_mem inside
      rw [List.getElem?_tail] at there
      cases (places 0 entry rfl (i + 1) inst there opens).2
    · obtain ⟨b, located⟩ := List.getElem?_of_mem listed
      obtain ⟨i, there⟩ := List.getElem?_of_mem inside
      cases (places (b + 1) bb located i inst there opens).1
  · rintro ⟨first, others⟩ b bb located i inst there opens
    cases b with
    | zero =>
      cases Option.some.inj located
      refine ⟨rfl, ?_⟩
      cases i with
      | zero => rfl
      | succ i =>
        rw [← List.getElem?_tail] at there
        exact absurd opens (first inst (List.mem_of_getElem? there))
    | succ b =>
      exact absurd opens (others bb (List.mem_of_getElem? located) inst (List.mem_of_getElem? there))

end Structure

open Structure in
theorem verifiedIff {f : Func} : verifyFunction f = [] ↔ WellFormed f := by
  unfold verifyFunction
  split
  · rename_i blocks
    refine iff_of_false (List.cons_ne_nil _ _) fun ok => ?_
    obtain ⟨entry, rest, fits⟩ := ok.entry
    cases blocks.symm.trans fits.blocks
  · rename_i entry rest blocks
    simp only [List.append_eq_nil_iff, entryClean, definedClean, zipIdxClean]
    rw [labelsClean]
    simp only [List.not_mem_nil, not_false_eq_true, implies_true, and_true]
    constructor
    · rintro ⟨⟨⟨params, labels⟩, once, declared⟩, all⟩
      have fits (b : Nat) (bb : Block) (located : f.blocks[b]? = some bb) : BlockFits f b bb :=
        (blockFits labels once declared located).mp (all b bb located)
      have each (bb : Block) (inside : bb ∈ f.blocks) : ∃ b, BlockFits f b bb := by
        obtain ⟨b, located⟩ := Func.atOfMem inside
        exact ⟨b, fits b bb located⟩
      obtain ⟨first, others⟩ := (openingIff blocks).mp fun b bb located => (fits b bb located).opening
      exact {
        entry := ⟨entry, rest, blocks, params, first, others⟩
        labels := labels
        once := once
        declared := declared
        ended := fun bb inside => (each bb inside).elim fun _ fits => fits.ended
        sound := fun bb inside => (each bb inside).elim fun _ fits => fits.sound
        available := fun bb inside => (each bb inside).elim fun _ fits => fits.available }
    · intro ok
      obtain ⟨first, others, entry⟩ := ok.entry
      cases blocks.symm.trans entry.blocks
      refine ⟨⟨⟨entry.params, ok.labels⟩, ok.once, ok.declared⟩, fun b bb located => ?_⟩
      have inside := List.mem_of_getElem? located
      refine (blockFits ok.labels ok.once ok.declared located).mpr ?_
      exact ⟨ok.ended bb inside, (openingIff blocks).mpr ⟨entry.opening, entry.others⟩ b bb located,
        ok.sound bb inside, ok.available bb inside⟩

end SsaCodegen
