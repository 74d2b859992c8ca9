import SsaCodegen.Proofs.Verify.Soundness
import SsaCodegen.RegAlloc.Intervals
/-! Intervals cover liveness. A value that is live before some instruction is needed at a
position no later and at one no earlier, so the hull of what it touches contains the
point; across a call it does so strictly. -/
namespace SsaCodegen.Intervals
open FlowGraph

def span : List Block → Nat
  | [] => 0
  | bb :: rest => 2 + 2 * bb.insts.length + span rest

def blockStart (f : Func) (b : Nat) : Nat := span (f.blocks.take b)

variable {f : Func}

theorem placedFromAt (blocks : List Block) (b pos k : Nat) : (placedFrom b pos blocks)[k]? =
    blocks[k]?.map fun bb => (bb, b + k, pos + span (blocks.take k)) := by
  induction blocks generalizing b pos k with
  | nil => rfl
  | cons bb rest ih =>
    cases k with
    | zero => simp [placedFrom, span]
    | succ k =>
      rw [placedFrom, List.getElem?_cons_succ, ih, List.getElem?_cons_succ, List.take_succ_cons,
        span]
      congr 1
      funext b'
      simp only [Prod.mk.injEq, true_and]
      omega

theorem memPlaced {bb : Block} {b start : Nat} :
    (bb, b, start) ∈ placed f ↔ f.blocks[b]? = some bb ∧ start = blockStart f b := by
  rw [List.mem_iff_getElem?]
  simp only [placed, placedFromAt, Option.map_eq_some_iff, Prod.mk.injEq, Nat.zero_add]
  constructor
  · rintro ⟨k, bb', located, rfl, rfl, rfl⟩
    exact ⟨located, rfl⟩
  · rintro ⟨located, rfl⟩
    exact ⟨b, bb, located, rfl, rfl, rfl⟩

def Touched (f : Func) (v pos : Nat) : Prop :=
  ⟨v, pos⟩ ∈ touches f (Liveness.ofFunc f (FlowGraph.ofFunc f))

theorem touchedIff {v pos : Nat} : Touched f v pos ↔ ∃ b bb, f.blocks[b]? = some bb ∧
    ((pos = blockStart f b ∧ (v ∈ bb.paramIds ∨
        v ∈ (Liveness.ofFunc f (FlowGraph.ofFunc f)).liveIn b)) ∨
      (∃ (k : Nat) (inst : Inst), bb.insts[k]? = some inst ∧ pos = instPos (blockStart f b) k ∧
        (v ∈ inst.usedTemps ∨ inst.result = some v)) ∨
      (pos = lastPos (blockStart f b) bb ∧
        v ∈ (Liveness.ofFunc f (FlowGraph.ofFunc f)).liveOut b)) := by
  have made {values : List Nat} {own : Nat} :
      (⟨v, pos⟩ : Touch) ∈ values.map (⟨·, own⟩) ↔ pos = own ∧ v ∈ values := by
    rw [List.mem_map]
    constructor
    · rintro ⟨w, inside, same⟩
      cases same
      exact ⟨rfl, inside⟩
    · rintro ⟨rfl, inside⟩
      exact ⟨v, inside, rfl⟩
  simp only [Touched, touches, blockTouches, instTouches, List.mem_flatMap, Prod.exists, memPlaced,
    List.mem_append, made, List.mem_zipIdx_iff_getElem?, Option.mem_toList]
  constructor
  · rintro ⟨bb, b, start, ⟨located, rfl⟩, ((first | ⟨inst, k, there, here, need⟩) | last)⟩
    · exact ⟨b, bb, located, .inl first⟩
    · exact ⟨b, bb, located, .inr (.inl ⟨k, inst, there, here, need⟩)⟩
    · exact ⟨b, bb, located, .inr (.inr last)⟩
  · rintro ⟨b, bb, located, first | ⟨k, inst, there, here, need⟩ | last⟩
    · exact ⟨bb, b, _, ⟨located, rfl⟩, .inl (.inl first)⟩
    · exact ⟨bb, b, _, ⟨located, rfl⟩, .inl (.inr ⟨inst, k, there, here, need⟩)⟩
    · exact ⟨bb, b, _, ⟨located, rfl⟩, .inr last⟩

theorem paramTouched {b v : Nat} {bb : Block} (located : f.blocks[b]? = some bb) (param : v ∈ bb.paramIds) :
    Touched f v (blockStart f b) := touchedIff.mpr ⟨b, bb, located, .inl ⟨rfl, .inl param⟩⟩

theorem memCallSites {c : CallSite} : c ∈ callSites f ↔ ∃ bb inst, f.blocks[c.block]? = some bb ∧
    bb.insts[c.index]? = some inst ∧ inst.op = .call ∧
      c.pos = instPos (blockStart f c.block) c.index := by
  simp only [callSites, List.mem_flatMap, Prod.exists, memPlaced, List.mem_filterMap,
    List.mem_zipIdx_iff_getElem?, Option.ite_none_right_eq_some, beq_iff_eq]
  constructor
  · rintro ⟨bb, b, start, ⟨located, rfl⟩, inst, k, there, called, same⟩
    cases same
    exact ⟨bb, inst, located, there, called, rfl⟩
  · rintro ⟨bb, inst, located, there, called, here⟩
    exact ⟨bb, c.block, _, ⟨located, rfl⟩, inst, c.index, there, called, by rw [← here]⟩

/-! What is live was needed before and is needed after. -/

section
variable {b : Nat} {bb : Block} (located : f.blocks[b]? = some bb)
include located

theorem liveSince {i v : Nat} (below : i ≤ bb.insts.length) (live : v ∈ f.liveAt b i) :
    ∃ pos, Touched f v pos ∧ pos ≤ blockStart f b + 2 * i := by
  induction i with
  | zero =>
    have start : v ∈ bb.paramIds ∨ (v < f.numValues ∧ LiveInto f v b) := by
      refine Liveness.liveAtStart located ?_
      simpa only [Func.liveAt, Func.blockAt located, List.drop_zero] using live
    refine ⟨blockStart f b, touchedIff.mpr ⟨b, bb, located, .inl ⟨rfl, start.imp_right fun into => ?_⟩⟩,
      Nat.le_add_right ..⟩
    exact Liveness.listedIn.mpr (Liveness.isLiveInIff.mpr into)
  | succ i ih =>
    obtain ⟨inst, there⟩ : ∃ inst, bb.insts[i]? = some inst :=
      ⟨_, List.getElem?_eq_getElem (by omega)⟩
    by_cases result : inst.result = some v
    · refine ⟨instPos (blockStart f b) i, touchedIff.mpr ⟨b, bb, located, .inr (.inl ?_)⟩, ?_⟩
      · exact ⟨i, inst, there, rfl, .inr result⟩
      · simp only [instPos]
        omega
    · have there : (f.block b).insts[i]? = some inst := by rwa [Func.blockAt located]
      obtain ⟨pos, touched, before⟩ := ih (by omega) ((memLiveAt there).mpr (.inr ⟨live, result⟩))
      exact ⟨pos, touched, by omega⟩

theorem liveUntil {i v : Nat} (live : v ∈ f.liveAt b i) :
    (∃ (k : Nat) (inst : Inst), i ≤ k ∧ bb.insts[k]? = some inst ∧ v ∈ inst.usedTemps) ∨
      v ∈ (Liveness.ofFunc f (FlowGraph.ofFunc f)).liveOut b := by
  unfold Func.liveAt at live
  rw [Func.blockAt located] at live
  rcases (memLiveFrom (Liveness.ascendingOut _ b)).mp live with ⟨-, reads⟩ | ⟨leaves, -⟩
  · obtain ⟨inst, inside, used⟩ := readerAmong reads
    obtain ⟨k, there⟩ := List.getElem?_of_mem inside
    rw [List.getElem?_drop] at there
    exact .inl ⟨i + k, inst, Nat.le_add_right .., there, used⟩
  · exact .inr leaves

theorem liveStill {i v : Nat} (below : i ≤ bb.insts.length) (live : v ∈ f.liveAt b i) :
    ∃ pos, Touched f v pos ∧ blockStart f b + 2 * i ≤ pos := by
  rcases liveUntil located live with ⟨k, inst, after, there, used⟩ | leaves
  · refine ⟨instPos (blockStart f b) k, touchedIff.mpr ⟨b, bb, located, .inr (.inl ?_)⟩, ?_⟩
    · exact ⟨k, inst, there, rfl, .inl used⟩
    · simp only [instPos]
      omega
  · refine ⟨lastPos (blockStart f b) bb, touchedIff.mpr ⟨b, bb, located, .inr (.inr ⟨rfl, leaves⟩)⟩, ?_⟩
    simp only [lastPos]
    omega

theorem liveOnward {k v : Nat} {inst : Inst} (there : bb.insts[k]? = some inst) (live : v ∈ f.liveAt b k) :
    ∃ pos, Touched f v pos ∧ instPos (blockStart f b) k ≤ pos := by
  have inside : k + 1 ≤ bb.insts.length := (List.getElem?_eq_some_iff.mp there).1
  rcases (memLiveAt (by rwa [Func.blockAt located])).mp live with ⟨used, -⟩ | ⟨later, -⟩
  · exact ⟨_, touchedIff.mpr ⟨b, bb, located, .inr (.inl ⟨k, inst, there, rfl, .inl used⟩)⟩, Nat.le_refl _⟩
  · obtain ⟨pos, touched, after⟩ := liveStill located inside later
    exact ⟨pos, touched, by simp only [instPos]; omega⟩

theorem liveBehind {i v : Nat} (inner : i + 1 < bb.insts.length) (live : v ∈ f.liveAt b (i + 1)) :
    ∃ pos, Touched f v pos ∧ instPos (blockStart f b) i < pos := by
  obtain ⟨pos, touched, after⟩ := liveOnward located (List.getElem?_eq_getElem inner) live
  exact ⟨pos, touched, Nat.lt_of_lt_of_le (by simp only [instPos]; omega) after⟩

theorem liveAcross {i v : Nat} {call : Inst} (there : bb.insts[i]? = some call)
    (inner : i + 1 < bb.insts.length) (live : v ∈ f.liveAt b (i + 1)) (other : call.result ≠ some v) :
    (∃ pos, Touched f v pos ∧ pos < instPos (blockStart f b) i) ∧
      ∃ pos, Touched f v pos ∧ instPos (blockStart f b) i < pos := by
  have here : (f.block b).insts[i]? = some call := by rwa [Func.blockAt located]
  obtain ⟨pos, touched, before⟩ :=
    liveSince located (by omega) ((memLiveAt here).mpr (.inr ⟨live, other⟩))
  exact ⟨⟨pos, touched, by simp only [instPos]; omega⟩, liveBehind located inner live⟩

end

/-! The intervals of a function. -/

structure Hull (f : Func) (iv : Interval) : Prop where
  allocated : iv.value < f.numValues
  cls : iv.cls = (f.valueType iv.value).regClass
  isRef : iv.isRef = (f.valueType iv.value).isRef
  crosses : iv.crossesCall = true ↔ ∃ c ∈ callSites f, iv.start < c.pos ∧ c.pos < iv.stop
  covers : ∀ pos, Touched f iv.value pos → iv.start ≤ pos ∧ pos ≤ iv.stop
  starts : Touched f iv.value iv.start
  stops : Touched f iv.value iv.stop

theorem extremeOf {pick : Nat → Nat → Nat} (le : Nat → Nat → Prop) (refl : ∀ p, le p p)
    (trans : ∀ p q r, le p q → le q r → le p r) (picks : ∀ p q, pick p q = p ∨ pick p q = q)
    (left : ∀ p q, le (pick p q) p) (right : ∀ p q, le (pick p q) q) (p : Nat) (rest : List Nat) :
    rest.foldl pick p ∈ p :: rest ∧ ∀ q ∈ p :: rest, le (rest.foldl pick p) q := by
  induction rest generalizing p with
  | nil => exact ⟨List.mem_cons_self, fun q same => List.mem_singleton.mp same ▸ refl _⟩
  | cons q rest ih =>
    obtain ⟨inside, extreme⟩ := ih (pick p q)
    have first := extreme _ List.mem_cons_self
    refine ⟨?_, fun r listed => ?_⟩
    · rcases List.mem_cons.mp inside with same | later
      · rw [List.foldl_cons, same]
        rcases picks p q with same | same <;> simp [same]
      · exact List.mem_cons_of_mem _ (List.mem_cons_of_mem _ later)
    · rw [List.foldl_cons]
      rcases List.mem_cons.mp listed with rfl | listed
      · exact trans _ _ _ first (left _ q)
      · rcases List.mem_cons.mp listed with rfl | listed
        · exact trans _ _ _ first (right p _)
        · exact extreme r (List.mem_cons_of_mem _ listed)

theorem minOf (p : Nat) (rest : List Nat) :
    rest.foldl min p ∈ p :: rest ∧ ∀ q ∈ p :: rest, rest.foldl min p ≤ q :=
  extremeOf (· ≤ ·) Nat.le_refl (fun _ _ _ => Nat.le_trans) (fun p q => by omega)
    Nat.min_le_left Nat.min_le_right p rest

theorem maxOf (p : Nat) (rest : List Nat) :
    rest.foldl max p ∈ p :: rest ∧ ∀ q ∈ p :: rest, q ≤ rest.foldl max p :=
  extremeOf (· ≥ ·) Nat.le_refl (fun _ _ _ pq qr => Nat.le_trans qr pq)
    (fun p q => by omega) Nat.le_max_left Nat.le_max_right p rest

theorem memPositions {ts : List Touch} {v pos : Nat} : pos ∈ positions ts v ↔ ⟨v, pos⟩ ∈ ts := by
  simp only [positions, List.mem_filterMap, Option.ite_none_right_eq_some, beq_iff_eq,
    Option.some.injEq]
  constructor
  · rintro ⟨t, inside, rfl, rfl⟩
    exact inside
  · intro inside
    exact ⟨_, inside, rfl, rfl⟩

theorem hullOfInterval {v : Nat} {iv : Interval} (below : v < f.numValues)
    (found : intervalOf f (callSites f) v
      (positions (touches f (Liveness.ofFunc f (FlowGraph.ofFunc f))) v) = some iv) :
    iv.value = v ∧ Hull f iv := by
  have touched (pos : Nat) : pos ∈ positions (touches f _) v ↔ Touched f v pos := memPositions
  unfold intervalOf at found
  split at found
  · cases found
  · rename_i p rest shape
    rw [shape] at touched
    cases found
    refine ⟨rfl, below, rfl, rfl, ?_, fun pos listed => ?_, (touched _).mp (minOf p rest).1,
      (touched _).mp (maxOf p rest).1⟩
    · simp only [hull, List.any_eq_true, Bool.and_eq_true, decide_eq_true_eq]
    · exact ⟨(minOf p rest).2 pos ((touched pos).mpr listed),
        (maxOf p rest).2 pos ((touched pos).mpr listed)⟩

structure Lists (f : Func) (ivs : Intervals) : Prop where
  calls : ivs.calls = callSites f
  hull : ∀ iv ∈ ivs.intervals, Hull f iv
  all : ∀ v pos, Touched f v pos → ∃ iv ∈ ivs.intervals, iv.value = v
  once : (ivs.intervals.map Interval.value).Nodup
  ordered : ivs.intervals.Pairwise fun a b =>
    a.start < b.start ∨ (a.start = b.start ∧ a.value ≤ b.value)

theorem beforeIff {a b : Interval} : before a b = true ↔
    a.start < b.start ∨ (a.start = b.start ∧ a.value ≤ b.value) := by
  simp [before]

theorem touchedBelow (ok : WellFormed f) {v pos : Nat} (touched : Touched f v pos) :
    v ∈ f.definedIds := by
  have read {b : Nat} (live : LiveInto f v b) : v ∈ f.definedIds := by
    induction live with
    | @reads b bb located reads =>
      simp only [Block.readsOnEntry, Bool.and_eq_true] at reads
      obtain ⟨inst, inside, used⟩ := readerAmong reads.2
      exact (ok.sound bb (List.mem_of_getElem? located) inst inside).defined v used
    | through located edge later pass ih => exact ih
  obtain ⟨b, bb, located, ⟨-, start⟩ | ⟨k, inst, there, -, need⟩ | ⟨-, leaves⟩⟩ := touchedIff.mp touched
  · rcases start with param | live
    · exact Func.memDefinedIds.mpr
        ⟨bb, List.mem_of_getElem? located, Block.memDefinedIds.mpr (.inl param)⟩
    · exact read (Liveness.isLiveInIff.mp (Liveness.listedIn.mp live)).2
  · have inside := List.mem_of_getElem? located
    rcases need with used | result
    · exact (ok.sound bb inside inst (List.mem_of_getElem? there)).defined v used
    · exact Func.memDefinedIds.mpr
        ⟨bb, inside, Block.memDefinedIds.mpr (.inr ⟨inst, List.mem_of_getElem? there, result⟩)⟩
  · obtain ⟨-, s, -, into⟩ := (Liveness.memLiveOut located).mp leaves
    exact read into

theorem definedTouched {v : Nat} (defined : v ∈ f.definedIds) : ∃ pos, Touched f v pos := by
  obtain ⟨bb, inside, defines⟩ := Func.memDefinedIds.mp defined
  obtain ⟨b, located⟩ := List.getElem?_of_mem inside
  rcases Block.memDefinedIds.mp defines with param | ⟨inst, there, result⟩
  · exact ⟨_, paramTouched located param⟩
  · obtain ⟨k, there⟩ := List.getElem?_of_mem there
    exact ⟨_, touchedIff.mpr ⟨b, bb, located, .inr (.inl ⟨k, inst, there, rfl, .inr result⟩)⟩⟩

/-! What comes of any function: a value in use that nothing defines, or the intervals of the values that it
has a type for. -/

theorem refusedUndefined {v : Nat}
    (refused : Intervals.ofFunc f (Liveness.ofFunc f (FlowGraph.ofFunc f)) = .error v) :
    (∃ pos, Touched f v pos) ∧ v ∉ f.definedIds := by
  unfold Intervals.ofFunc at refused
  dsimp only at refused
  split at refused
  · rename_i w positions missing
    cases refused
    obtain ⟨_, -, same⟩ := List.mem_map.mp (List.mem_of_find?_eq_some missing)
    cases same
    have faulty := List.find?_some missing
    simp only [Bool.and_eq_true, Bool.not_eq_true', List.contains_eq_mem,
      decide_eq_false_iff_not] at faulty
    obtain ⟨pos, rest, shape⟩ := List.exists_cons_of_ne_nil
      (mt List.isEmpty_iff.mpr (Bool.eq_false_iff.mp faulty.1))
    exact ⟨⟨pos, memPositions.mp (shape ▸ List.mem_cons_self)⟩, faulty.2⟩
  · cases refused

structure Listing (f : Func) (ivs : Intervals) : Prop where
  calls : ivs.calls = callSites f
  hull : ∀ iv ∈ ivs.intervals, Hull f iv
  all : ∀ v pos, v < f.numValues → Touched f v pos → ∃ iv ∈ ivs.intervals, iv.value = v
  once : (ivs.intervals.map Interval.value).Nodup
  ordered : ivs.intervals.Pairwise fun a b =>
    a.start < b.start ∨ (a.start = b.start ∧ a.value ≤ b.value)
  defined : ∀ iv ∈ ivs.intervals, iv.value ∈ f.definedIds

theorem listed {ivs : Intervals}
    (made : Intervals.ofFunc f (Liveness.ofFunc f (FlowGraph.ofFunc f)) = .ok ivs) : Listing f ivs := by
  unfold Intervals.ofFunc at made
  dsimp only at made
  split at made
  · cases made
  rename_i complete
  cases made
  generalize shape : List.filterMap _ _ = found
  have mem (iv : Interval) : iv ∈ found ↔ ∃ v < f.numValues, intervalOf f (callSites f) v
      (positions (touches f (Liveness.ofFunc f (FlowGraph.ofFunc f))) v) = some iv := by
    rw [← shape, List.mem_filterMap]
    simp only [List.mem_map, List.mem_range]
    constructor
    · rintro ⟨_, ⟨v, below, rfl⟩, made⟩
      exact ⟨v, below, made⟩
    · rintro ⟨v, below, made⟩
      exact ⟨_, ⟨v, below, rfl⟩, made⟩
  have perm := List.mergeSort_perm found before
  have hulls (iv : Interval) (inside : iv ∈ found.mergeSort before) : Hull f iv := by
    obtain ⟨v, below, made⟩ := (mem iv).mp (perm.mem_iff.mp inside)
    exact (hullOfInterval below made).2
  refine ⟨rfl, hulls, fun v pos below touched => ?_, ?_, ?_, fun iv inside => ?_⟩
  · have present := memPositions.mpr touched
    obtain ⟨p, rest, shape⟩ := List.exists_cons_of_ne_nil (List.ne_nil_of_mem present)
    obtain ⟨iv, made⟩ : ∃ iv, intervalOf f (callSites f) v (positions (touches f _) v) = some iv :=
      ⟨_, by rw [shape, intervalOf]⟩
    exact ⟨iv, perm.mem_iff.mpr ((mem iv).mpr ⟨v, below, made⟩), (hullOfInterval below made).1⟩
  · refine (perm.map Interval.value).nodup_iff.mpr ?_
    rw [← shape, List.map_filterMap, List.filterMap_map]
    refine List.pairwise_filterMap.mpr (List.nodup_range.imp_of_mem ?_)
    intro v w first second differ x hx y hy same
    obtain ⟨iv, made, rfl⟩ := Option.map_eq_some_iff.mp hx
    obtain ⟨jv, made', rfl⟩ := Option.map_eq_some_iff.mp hy
    rw [(hullOfInterval (List.mem_range.mp first) made).1,
      (hullOfInterval (List.mem_range.mp second) made').1] at same
    exact differ same
  · refine (List.pairwise_mergeSort (fun a b c => ?_) (fun a b => ?_) found).imp beforeIff.mp
    · simp only [beforeIff]
      omega
    · simp only [Bool.or_eq_true, beforeIff]
      omega
  -- a value that touches something and is not defined would have been refused
  · refine Classical.byContradiction fun undefined => ?_
    have present := List.ne_nil_of_mem (memPositions.mpr (hulls iv inside).starts)
    have free := List.find?_eq_none.mp complete _
      (List.mem_map.mpr ⟨iv.value, List.mem_range.mpr (hulls iv inside).allocated, rfl⟩)
    refine free ?_
    simp only [Bool.and_eq_true, Bool.not_eq_true', List.isEmpty_eq_false_iff, List.contains_eq_mem,
      decide_eq_false_iff_not]
    exact ⟨present, undefined⟩

theorem ofWellFormed (ok : WellFormed f) : ∃ ivs,
    Intervals.ofFunc f (Liveness.ofFunc f (FlowGraph.ofFunc f)) = .ok ivs ∧ Lists f ivs := by
  cases made : Intervals.ofFunc f (Liveness.ofFunc f (FlowGraph.ofFunc f)) with
  | error v =>
    obtain ⟨⟨pos, touched⟩, undefined⟩ := refusedUndefined made
    exact absurd (touchedBelow ok touched) undefined
  | ok ivs =>
    have all := listed made
    exact ⟨ivs, rfl, all.calls, all.hull,
      fun v pos touched => all.all v pos (ok.allocated (touchedBelow ok touched)) touched,
      all.once, all.ordered⟩

theorem callInner (ok : WellFormed f) {b k : Nat} {bb : Block} {call : Inst} (located : f.blocks[b]? = some bb)
    (there : bb.insts[k]? = some call) (called : call.op = .call) : k + 1 < bb.insts.length := by
  have inside : k < bb.insts.length := (List.getElem?_eq_some_iff.mp there).1
  refine Nat.lt_of_le_of_ne (Nat.succ_le_of_lt inside) fun final => ?_
  obtain ⟨body, last, split, ends, -⟩ := ok.ended bb (List.mem_of_getElem? located)
  have index : k = body.length := by
    rw [split, List.length_append, List.length_singleton] at final
    omega
  subst index
  rw [split, List.getElem?_append_right (Nat.le_refl _), Nat.sub_self] at there
  cases Option.some.inj there
  rw [Inst.isTerminator, called] at ends
  cases ends

end SsaCodegen.Intervals
