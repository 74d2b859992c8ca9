import SsaCodegen.Proofs.LabelRanges.Joined
import SsaCodegen.Proofs.Layout.Emission
import SsaCodegen.Proofs.Layout.Least
/-! The range of a value in a block, counted in instructions. It begins where the value is there first and ends with
its last use or with the block, and a layout gives every count of instructions a place in the code. -/
namespace SsaCodegen.X64.LabelRanges

def usedUpTo (v : Nat) : List Inst → Nat
  | [] => 0
  | inst :: rest => if inst.usesTemp v || 0 < usedUpTo v rest then usedUpTo v rest + 1 else 0

theorem usedUpToIff {v k : Nat} {insts : List Inst} :
    k < usedUpTo v insts ↔ ∃ (j : Nat) (inst : Inst), k ≤ j ∧ insts[j]? = some inst ∧ inst.usesTemp v = true := by
  induction insts generalizing k with
  | nil => simp [usedUpTo]
  | cons first rest ih =>
    have later : 0 < usedUpTo v rest ↔ ∃ (j : Nat) (inst : Inst), rest[j]? = some inst ∧ inst.usesTemp v = true := by
      simpa using @ih 0
    simp only [usedUpTo, Bool.or_eq_true, decide_eq_true_eq]
    constructor
    · intro below
      split at below
      · rename_i present
        cases k with
        | zero =>
          rcases present with here | there
          · exact ⟨0, first, Nat.le_refl _, rfl, here⟩
          · obtain ⟨j, inst, located, uses⟩ := later.mp there
            exact ⟨j + 1, inst, Nat.zero_le _, located, uses⟩
        | succ k =>
          obtain ⟨j, inst, after, located, uses⟩ := ih.mp (Nat.lt_of_succ_lt_succ below)
          exact ⟨j + 1, inst, Nat.succ_le_succ after, located, uses⟩
      · cases below
    · rintro ⟨j, inst, after, located, uses⟩
      cases j with
      | zero =>
        cases Option.some.inj located
        rw [if_pos (.inl uses)]
        omega
      | succ j =>
        rw [if_pos (.inr (later.mpr ⟨j, inst, located, uses⟩))]
        cases k with
        | zero => exact Nat.succ_pos _
        | succ k => exact Nat.succ_lt_succ (ih.mpr ⟨j, inst, Nat.le_of_succ_le_succ after, located, uses⟩)

def beginsAt (live : Liveness) (b : Nat) (bb : Block) (v : Nat) : Option Nat :=
  if live.isLiveIn b v then some 0
  else if bb.paramIds.contains v then
    some (if b = 0 && (bb.insts.head?.map Inst.op) == some .prologue then 1 else 0)
  else (bb.insts.findIdx? (·.defines v)).map (· + 1)

def endsAt (live : Liveness) (b : Nat) (bb : Block) (v first : Nat) : Nat :=
  if live.isLiveOut b v then bb.insts.length else first + usedUpTo v (bb.insts.drop first)

section Following
variable {f : Func} {v : Nat}

theorem codeSizeCons (f : Func) (inst : Inst) (rest : List Inst) :
    codeSize f (inst :: rest) = instructionSize f inst + codeSize f rest := rfl

theorem endsLast (offset : Nat) (insts : List Inst) :
    (ends f offset insts).getLastD offset = offset + codeSize f insts := by
  induction insts generalizing offset with
  | nil => rfl
  | cons inst rest ih => rw [ends, List.getLastD_cons, ih, codeSizeCons, Nat.add_assoc]

theorem followStops (start stop offset : Nat) (insts : List Inst) :
    follow v (some ⟨start, stop⟩) (insts.zip (ends f offset insts)) = some ⟨start,
      if usedUpTo v insts = 0 then stop else offset + codeSize f (insts.take (usedUpTo v insts))⟩ := by
  induction insts generalizing stop offset with
  | nil => rfl
  | cons inst rest ih =>
    simp only [ends, List.zip_cons_cons, follow, usedUpTo]
    by_cases more : usedUpTo v rest = 0
    · by_cases uses : inst.usesTemp v = true
      · simp [ih, more, uses, codeSize]
      · simp [ih, more, uses]
    · by_cases uses : inst.usesTemp v = true
      · simp [ih, more, uses, codeSizeCons, Nat.add_assoc]
      · simp [ih, more, uses, Nat.pos_of_ne_zero more, codeSizeCons, Nat.add_assoc]

theorem followStart (offset : Nat) (insts : List Inst) :
    follow v (some ⟨offset, offset⟩) (insts.zip (ends f offset insts)) =
      some ⟨offset, offset + codeSize f (insts.take (usedUpTo v insts))⟩ := by
  rw [followStops]
  split
  · rename_i absent
    rw [absent]
    rfl
  · rfl

theorem followSecond (offset : Nat) (first : Inst) (rest : List Inst) :
    let start := offset + instructionSize f first
    follow v (some ⟨start, start⟩) ((first :: rest).zip (ends f offset (first :: rest))) =
      some ⟨start, start + codeSize f (rest.take (usedUpTo v rest))⟩ := by
  simp only [ends, List.zip_cons_cons, follow, ite_self]
  exact followStart _ rest

theorem followDefined (offset : Nat) (insts : List Inst) :
    follow v none (insts.zip (ends f offset insts)) =
      (insts.findIdx? (·.defines v)).map fun k => ⟨offset + codeSize f (insts.take (k + 1)),
        offset + codeSize f (insts.take (k + 1 + usedUpTo v (insts.drop (k + 1))))⟩ := by
  induction insts generalizing offset with
  | nil => rfl
  | cons inst rest ih =>
    simp only [ends, List.zip_cons_cons, follow, List.findIdx?_cons]
    cases defines : inst.defines v with
    | true =>
      simp only [if_true, Option.map_some, followStart]
      rw [Nat.zero_add, Nat.add_comm 1, List.take_succ_cons, List.take_succ_cons, List.drop_succ_cons]
      simp [codeSize, Nat.add_assoc]
    | false =>
      simp only [Bool.false_eq_true, if_false, ih, Option.map_map]
      congr 1
      funext k
      rw [Function.comp, Nat.add_right_comm (k + 1), List.take_succ_cons, List.take_succ_cons, List.drop_succ_cons]
      simp [codeSizeCons, Nat.add_assoc]

theorem followedSpan (live : Liveness) (b : Nat) (bb : Block) (offset : Nat) :
    follow v (if live.isLiveIn b v then some ⟨offset, offset⟩
        else if bb.paramIds.contains v then
          some ⟨paramStart b bb offset (ends f offset bb.insts), paramStart b bb offset (ends f offset bb.insts)⟩
        else none) (bb.insts.zip (ends f offset bb.insts)) =
      (beginsAt live b bb v).map fun first => ⟨offset + codeSize f (bb.insts.take first),
        offset + codeSize f (bb.insts.take (first + usedUpTo v (bb.insts.drop first)))⟩ := by
  have fromStart : follow v (some ⟨offset, offset⟩) (bb.insts.zip (ends f offset bb.insts)) =
      some ⟨offset + codeSize f (bb.insts.take 0),
        offset + codeSize f (bb.insts.take (0 + usedUpTo v (bb.insts.drop 0)))⟩ := by
    rw [followStart, Nat.zero_add]
    rfl
  unfold beginsAt
  split
  · exact fromStart
  · split
    · unfold paramStart
      split
      · -- a parameter of the entry, which is there behind the prologue
        rename_i entry
        obtain ⟨-, opens⟩ := Bool.and_eq_true_iff.mp entry
        cases insts : bb.insts with
        | nil =>
          rw [insts] at opens
          cases opens
        | cons prologue rest =>
          refine (followSecond offset prologue rest).trans ?_
          rw [Option.map_some, Nat.add_comm 1, List.take_succ_cons, List.take_succ_cons, List.drop_succ_cons]
          simp [codeSize, Nat.add_assoc]
      · exact fromStart
    · rw [followDefined, Option.map_map]
      rfl

def between (f : Func) (b : Nat) (bb : Block) (v first last : Nat) : LocationRange :=
  let start := f.blockOffsets.getD b 0
  ⟨f.location v, start + codeSize f (bb.insts.take first), start + codeSize f (bb.insts.take last)⟩

theorem blockRangeBetween (live : Liveness) (b : Nat) (bb : Block) :
    blockRange? f live b bb v = (beginsAt live b bb v).bind fun first =>
      let range := between f b bb v first (endsAt live b bb v first)
      if range.start < range.stop then some range else none := by
  have followed := followedSpan (f := f) (v := v) live b bb (f.blockOffsets.getD b 0)
  unfold blockRange?
  dsimp only
  rw [followed]
  cases beginsAt live b bb v with
  | none => rfl
  | some first =>
    dsimp only [Option.map_some, Option.bind_some]
    have stop : (if live.isLiveOut b v then
          (ends f (f.blockOffsets.getD b 0) bb.insts).getLastD (f.blockOffsets.getD b 0)
        else f.blockOffsets.getD b 0 + codeSize f (bb.insts.take (first + usedUpTo v (bb.insts.drop first)))) =
        (between f b bb v first (endsAt live b bb v first)).stop := by
      unfold between endsAt
      split
      · rw [endsLast, List.take_length]
      · rfl
    rw [stop]
    by_cases proper : (between f b bb v first (endsAt live b bb v first)).start <
        (between f b bb v first (endsAt live b bb v first)).stop
    · exact (if_neg (Nat.not_le.mpr proper)).trans (if_pos proper).symm
    · exact (if_pos (Nat.not_lt.mp proper)).trans (if_neg proper).symm

theorem blockRangeIff {live : Liveness} {b : Nat} {bb : Block} {r : LocationRange} :
    blockRange? f live b bb v = some r ↔ ∃ first, beginsAt live b bb v = some first ∧
      r = between f b bb v first (endsAt live b bb v first) ∧ r.start < r.stop := by
  rw [blockRangeBetween, Option.bind_eq_some_iff]
  refine exists_congr fun first => and_congr_right fun _ => ?_
  dsimp only
  rw [Option.ite_none_right_eq_some, Option.some.injEq]
  constructor
  · rintro ⟨proper, rfl⟩
    exact ⟨rfl, proper⟩
  · rintro ⟨rfl, proper⟩
    exact ⟨proper, rfl⟩

end Following

def carriers (f : Func) (label : Nat) : List Nat :=
  (labelledValues f).filter fun v => f.valueLabels.contains ⟨v, label⟩

def rangesOf (f : Func) (live : Liveness) (label : Nat) : List LocationRange :=
  f.blocks.zipIdx.flatMap fun (bb, b) => (carriers f label).filterMap (blockRange? f live b bb)

section Lists
variable {f : Func} {live : Liveness} {label : Nat}

theorem ofLabelJoined : ofLabel f (valueRanges f live) label = joined (rangesOf f live label) := by
  have each (b : Nat) (bb : Block) (values : List Nat) :
      ((values.filterMap fun v => (blockRange? f live b bb v).map (v, ·)).filter
        fun own => f.valueLabels.contains ⟨own.1, label⟩).map Prod.snd =
      (values.filter fun v => f.valueLabels.contains ⟨v, label⟩).filterMap (blockRange? f live b bb) := by
    rw [List.filter_filterMap, List.map_filterMap, List.filterMap_filter]
    congr 1
    funext v
    cases range : blockRange? f live b bb v <;> cases carries : f.valueLabels.contains ⟨v, label⟩ <;>
      simp only [Option.map_none, Option.map_some, Option.filter_none, Option.filter_some, carries, if_true, if_false,
        Bool.false_eq_true]
  have listed : ((valueRanges f live).filter fun own => f.valueLabels.contains ⟨own.1, label⟩).map Prod.snd =
      rangesOf f live label := by
    rw [valueRanges, List.filter_flatMap, List.map_flatMap, rangesOf]
    exact congrArg (List.flatMap · _) (funext fun placed => each placed.2 placed.1 (labelledValues f))
  rw [ofLabel, joined, ← listed, List.foldl_map]

theorem memRangesOf {r : LocationRange} : r ∈ rangesOf f live label ↔
    ∃ b bb, f.blocks[b]? = some bb ∧ ∃ v ∈ carriers f label, blockRange? f live b bb v = some r := by
  simp only [rangesOf, List.mem_flatMap, Prod.exists, List.mem_zipIdx_iff_getElem?, List.mem_filterMap]
  exact ⟨fun ⟨bb, b, located, v, carries, found⟩ => ⟨b, bb, located, v, carries, found⟩,
    fun ⟨b, bb, located, v, carries, found⟩ => ⟨bb, b, located, v, carries, found⟩⟩

theorem rangesProper : ∀ r ∈ rangesOf f live label, r.start < r.stop := by
  intro r listed
  obtain ⟨b, bb, -, v, -, found⟩ := memRangesOf.mp listed
  obtain ⟨first, -, -, proper⟩ := blockRangeIff.mp found
  exact proper

theorem rangesJoined : Joins (rangesOf f live label) (joined (rangesOf f live label)) := joins rangesProper

theorem memCarriers {v : Nat} : v ∈ carriers f label ↔
    (f.location v).isAssigned = true ∧ ⟨v, label⟩ ∈ f.valueLabels := by
  have inside : (f.location v).isAssigned = true → v < f.locations.length := by
    intro assigned
    by_contra beyond
    rw [Func.location, List.getD_eq_getElem?_getD, List.getElem?_eq_none (Nat.not_lt.mp beyond)] at assigned
    cases assigned
  simp only [carriers, labelledValues, List.mem_filter, List.mem_range, Bool.and_eq_true, List.any_eq_true, beq_iff_eq,
    List.contains_iff_mem]
  constructor
  · rintro ⟨⟨-, assigned, -⟩, carries⟩
    exact ⟨assigned, carries⟩
  · rintro ⟨assigned, carries⟩
    exact ⟨⟨inside assigned, assigned, _, carries, rfl⟩, carries⟩

theorem carriersAscend : (carriers f label).Pairwise (· < ·) :=
  (List.pairwise_lt_range.filter _).filter _

end Lists

section Given
variable {f : Func} {ranges : List (Nat × List LocationRange)}

theorem memLabels {label : Nat} : label ∈ labels f ↔ ∃ v, ⟨v, label⟩ ∈ f.valueLabels := by
  rw [labels, List.mem_eraseDups, List.mem_mergeSort, List.mem_map]
  constructor
  · rintro ⟨⟨v, _⟩, carries, rfl⟩
    exact ⟨v, carries⟩
  · rintro ⟨v, carries⟩
    exact ⟨_, carries, rfl⟩

theorem labelRangesAre (given : labelRanges f = .ok ranges) :
    ranges = (labels f).filterMap fun label =>
      let found := joined (rangesOf f (Liveness.ofFunc f (FlowGraph.ofFunc f)) label)
      if found.isEmpty then none else some (label, found) := by
  unfold labelRanges at given
  split at given
  · rename_i absent
    cases given
    simp [labels, List.isEmpty_iff.mp absent]
  · split at given
    · cases given
    · simp only [Except.ok.injEq, ofLabelJoined] at given
      exact given.symm

theorem memLabelRanges (given : labelRanges f = .ok ranges) {label : Nat} {found : List LocationRange}
    (listed : (label, found) ∈ ranges) :
    found = joined (rangesOf f (Liveness.ofFunc f (FlowGraph.ofFunc f)) label) ∧ found ≠ [] := by
  rw [labelRangesAre given, List.mem_filterMap] at listed
  obtain ⟨l, -, kept⟩ := listed
  dsimp only at kept
  split at kept
  · cases kept
  · rename_i present
    cases kept
    exact ⟨rfl, fun absent => present (List.isEmpty_iff.mpr absent)⟩

theorem lookupLabelRanges (given : labelRanges f = .ok ranges) (label : Nat) :
    (ranges.lookup label).getD [] = joined (rangesOf f (Liveness.ofFunc f (FlowGraph.ofFunc f)) label) := by
  have absent (h : Nat → List LocationRange) (ls : List Nat) : ((ls.filterMap fun l =>
      if (h l).isEmpty then none else some (l, h l)).lookup label).getD [] = if label ∈ ls then h label else [] := by
    induction ls with
    | nil => rfl
    | cons l rest ih =>
      rw [List.filterMap_cons]
      cases found : h l with
      | nil =>
        refine ih.trans ?_
        by_cases same : label = l
        · subst same
          simp [found]
        · simp [same]
      | cons r more =>
        by_cases same : label = l
        · subst same
          simp [found]
        · simp only [List.isEmpty_cons, Bool.false_eq_true, if_false, List.lookup_cons, beq_false_of_ne same]
          refine ih.trans ?_
          simp [same]
  rw [labelRangesAre given, absent]
  split
  · rfl
  · rename_i unnamed
    have nobody : carriers f label = [] := List.eq_nil_iff_forall_not_mem.mpr fun v carries =>
      unnamed (memLabels.mpr ⟨v, (memCarriers.mp carries).2⟩)
    have empty : rangesOf f (Liveness.ofFunc f (FlowGraph.ofFunc f)) label = [] :=
      List.flatMap_eq_nil_iff.mpr fun _ _ => by rw [nobody]; rfl
    rw [empty]
    rfl

end Given

section Laid
variable {f : Func} (laid : f.blockOffsets = startsFrom 0 (f.blocks.map (Layout.blockSize f)))
include laid

theorem offsetAt {b : Nat} {bb : Block} (located : f.blocks[b]? = some bb) :
    f.blockOffsets[b]? = some (startOf f f.blocks b) := by
  rw [laid]
  exact startsAt (List.getElem?_eq_some_iff.mp located).1

theorem rangeInside {live : Liveness} {b v : Nat} {bb : Block} (located : f.blocks[b]? = some bb) {r : LocationRange}
    (found : blockRange? f live b bb v = some r) :
    startOf f f.blocks b ≤ r.start ∧ r.start < r.stop ∧ r.stop ≤ startOf f f.blocks (b + 1) := by
  obtain ⟨first, -, same, proper⟩ := blockRangeIff.mp found
  have start : f.blockOffsets.getD b 0 = startOf f f.blocks b := by
    rw [List.getD_eq_getElem?_getD, offsetAt laid located, Option.getD_some]
  have rest := codeSizeSplit (f := f) bb.insts (endsAt live b bb v first)
  rw [startOfNext located]
  refine ⟨?_, proper, ?_⟩
  · rw [same, between, start]
    exact Nat.le_add_right ..
  · rw [same, between, start]
    dsimp only
    omega

theorem rangesPairwise {live : Liveness} {label : Nat} {rel : LocationRange → LocationRange → Prop}
    (within : ∀ b bb, f.blocks[b]? = some bb → ((carriers f label).filterMap (blockRange? f live b bb)).Pairwise rel)
    (behind : ∀ a b, a.start < a.stop → a.stop ≤ b.start → rel a b) : (rangesOf f live label).Pairwise rel := by
  refine List.pairwise_flatMap.mpr ⟨fun (bb, b) listed => within b bb (List.mem_zipIdx_iff_getElem?.mp listed), ?_⟩
  rw [List.pairwise_iff_getElem]
  intro i j short long before r first s second
  rw [List.getElem_zipIdx, List.mem_filterMap] at first second
  obtain ⟨v, -, first⟩ := first
  obtain ⟨w, -, second⟩ := second
  rw [List.length_zipIdx] at short long
  have left := rangeInside laid (List.getElem?_eq_getElem short) (by simpa using first)
  have right := rangeInside laid (List.getElem?_eq_getElem long) (by simpa using second)
  have spread : startOf f f.blocks j = startOf f f.blocks (i + 1) + _ := startOfLater before
  exact behind r s left.2.1 (by omega)

end Laid
end SsaCodegen.X64.LabelRanges
