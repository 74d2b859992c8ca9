import SsaCodegen.Proofs.Flow.LiveSets
/-! The rounds of liveness. Nothing gets into a set that is not live, and a round that changes
nothing shows the sets closed under the equations, so they are the least solution. The rounds
end because each one before the last adds a bit. What the storage held makes no difference. -/
namespace SsaCodegen

/-- A way along the edges leads to a block that reads the value as it was at its start, and no
block before that one defines the value. -/
inductive LiveAlong (f : Func) (g : FlowGraph) (v : Nat) : Nat → Prop where
  | reads {b bb} (found : f.blocks[b]? = some bb) (reads : bb.readsOnEntry v = true) :
      LiveAlong f g v b
  | through {b s bb} (found : f.blocks[b]? = some bb) (edge : s ∈ g.successors b)
      (later : LiveAlong f g v s) (pass : v ∉ bb.definedIds) : LiveAlong f g v b

theorem LiveAlong.inside {f : Func} {g : FlowGraph} {v b : Nat} (live : LiveAlong f g v b) :
    b < f.blocks.length := by
  cases live with
  | reads found | through found => exact (List.getElem?_eq_some_iff.mp found).1

def FlowGraph.Within (f : Func) (g : FlowGraph) : Prop :=
  ∀ b < f.blocks.length, ∀ s ∈ g.successors b, s < f.blocks.length

namespace Liveness
open Rows

theorem roomFor (f : Func) : f.numValues ≤ 64 * wordsFor f := by
  unfold wordsFor
  omega

structure Solving (f : Func) (g : FlowGraph) (l : Liveness) : Prop where
  numBlocks : l.numBlocks = f.blocks.length
  numWords : l.numWords = wordsFor f
  ins : Fit f.blocks.length (wordsFor f) l.ins
  outs : Fit f.blocks.length (wordsFor f) l.outs
  uses : Fit f.blocks.length (wordsFor f) l.uses
  defs : Fit f.blocks.length (wordsFor f) l.defs
  notes : ∀ b bb, f.blocks[b]? = some bb → Notes f.numValues l.uses l.defs b bb
  live : ∀ b < f.blocks.length, ∀ v, holds l.ins b v = true → v < f.numValues ∧ LiveAlong f g v b
  backed : ∀ b < f.blocks.length, ∀ v, holds l.ins b v = true →
    holds l.uses b v = true ∨ holds l.outs b v = true ∧ holds l.defs b v = false
  fed : ∀ b < f.blocks.length, ∀ v, holds l.outs b v = true →
    ∃ s ∈ g.successors b, holds l.ins s v = true

structure Full (g : FlowGraph) (l : Liveness) (b : Nat) : Prop where
  reads : ∀ v, holds l.uses b v = true → holds l.ins b v = true
  leaves : ∀ s ∈ g.successors b, ∀ v, holds l.ins s v = true → holds l.outs b v = true
  passes : ∀ v, holds l.outs b v = true → holds l.defs b v = false → holds l.ins b v = true

structure Swept (f : Func) (g : FlowGraph) (visited : Nat → Prop) (l m : Liveness) (changed : Bool) :
    Prop where
  solving : Solving f g m
  uses : m.uses = l.uses
  defs : m.defs = l.defs
  grows : ∀ b < f.blocks.length, ∀ v, holds l.ins b v = true → holds m.ins b v = true
  outsSame : ∀ b, ¬ visited b → m.outs.getD b [] = l.outs.getD b []
  more : changed = true →
    ∃ b < f.blocks.length, ∃ v, holds m.ins b v = true ∧ holds l.ins b v = false
  same : changed = false → m.ins = l.ins
  full : changed = false → ∀ b, visited b → Full g m b

variable {f : Func} {g : FlowGraph} {l m n : Liveness} {b v : Nat}

theorem gatherAll (fit : Fit l.numBlocks (wordsFor f) l.ins) {ss : List Nat} {out : Words}
    (length : out.length = wordsFor f) (within : ∀ s ∈ ss, s < l.numBlocks) :
    ∃ all : Words, l.gather ss out = some all ∧ all.length = wordsFor f ∧ ∀ v,
      all.test v = true ↔ out.test v = true ∨ ∃ s ∈ ss, holds l.ins s v = true := by
  induction ss generalizing out with
  | nil => exact ⟨out, rfl, length, by simp⟩
  | cons s rest ih =>
    obtain ⟨inside, within⟩ := List.forall_mem_cons.mp within
    have row : (l.ins.getD s []).length = wordsFor f := fit.row s inside
    obtain ⟨all, made, length', told⟩ := ih (Words.lengthUnion length row) within
    refine ⟨all, by rw [gather, if_pos inside, made], length', fun v => (told v).trans ?_⟩
    rw [Words.testUnion (length.trans row.symm), Bool.or_eq_true, or_assoc]
    simp only [List.mem_cons, exists_eq_or_imp, holds]

theorem Full.kept (full : Full g m b) (uses : n.uses = m.uses) (defs : n.defs = m.defs)
    (ins : n.ins = m.ins) (outs : n.outs.getD b [] = m.outs.getD b []) : Full g n b where
  reads v := by rw [uses, ins]; exact full.reads v
  leaves s edge v := by rw [ins, holds, holds, outs]; exact full.leaves s edge v
  passes v := by rw [defs, ins, holds, outs]; exact full.passes v

structure Revised (f : Func) (g : FlowGraph) (l : Liveness) (b : Nat) (out next : Words) : Prop where
  inside : b < f.blocks.length
  outLength : out.length = wordsFor f
  nextLength : next.length = wordsFor f
  leaves : ∀ v, out.test v = true ↔ ∃ s ∈ g.successors b, holds l.ins s v = true
  enters : ∀ v, next.test v = true ↔
    holds l.uses b v = true ∨ out.test v = true ∧ holds l.defs b v = false

theorem visitRevises (ok : Solving f g l) (within : g.Within f) (inside : b < f.blocks.length) :
    ∃ out next, visit g l b = some (l.revise b out next, next != l.ins.getD b []) ∧
      Revised f g l b out next := by
  obtain ⟨out, made, outLength, gathered⟩ := gatherAll (f := f) (ok.numBlocks ▸ ok.ins) (ok.outs.row b inside)
    fun s edge => ok.numBlocks ▸ within b inside s edge
  have minusLength := Words.lengthMinus outLength (ok.defs.row b inside)
  have usesRow := ok.uses.row b inside
  refine ⟨out, (l.uses.getD b []).union (out.minus (l.defs.getD b [])), ?_, inside, outLength,
    Words.lengthUnion usesRow minusLength, fun v => ?_, fun v => ?_⟩
  · rw [visit, made, Option.map_some]
  · exact (gathered v).trans (or_iff_right_of_imp (ok.fed b inside v))
  · rw [Words.testUnion (usesRow.trans minusLength.symm),
      Words.testMinus (outLength.trans (ok.defs.row b inside).symm), Bool.or_eq_true, Bool.and_eq_true,
      Bool.not_eq_true']
    rfl

namespace Revised
variable {out next : Words} (r : Revised f g l b out next) (ok : Solving f g l)
include r ok

theorem insHold (c v : Nat) :
    holds (l.revise b out next).ins c v = if c = b then next.test v else holds l.ins c v :=
  holdsSet (Nat.lt_of_lt_of_le r.inside ok.ins.length)

theorem outsHold (c v : Nat) :
    holds (l.revise b out next).outs c v = if c = b then out.test v else holds l.outs c v :=
  holdsSet (Nat.lt_of_lt_of_le r.inside ok.outs.length)

theorem outGrows (held : holds l.outs b v = true) : out.test v = true :=
  (r.leaves v).mpr (ok.fed b r.inside v held)

theorem nextGrows (held : holds l.ins b v = true) : next.test v = true :=
  (r.enters v).mpr ((ok.backed b r.inside v held).imp_right fun ⟨leaves, passes⟩ =>
    ⟨r.outGrows ok leaves, passes⟩)

theorem insGrow {c : Nat} (held : holds l.ins c v = true) :
    holds (l.revise b out next).ins c v = true := by
  rw [r.insHold ok]
  split
  · rename_i same
    exact r.nextGrows ok (same ▸ held)
  · exact held

theorem nextLive (within : g.Within f) (held : next.test v = true) : v < f.numValues ∧ LiveAlong f g v b := by
  have found := List.getElem?_eq_getElem r.inside
  have notes := ok.notes b _ found
  rcases (r.enters v).mp held with reads | ⟨leaves, passes⟩
  · obtain ⟨low, reads⟩ := (notes.uses v).mp reads
    exact ⟨low, .reads found reads⟩
  · obtain ⟨s, edge, into⟩ := (r.leaves v).mp leaves
    obtain ⟨low, live⟩ := ok.live s (within b r.inside s edge) v into
    refine ⟨low, .through found edge live fun defines => ?_⟩
    exact Bool.noConfusion (passes.symm.trans ((notes.defs v).mpr ⟨low, defines⟩))

theorem solving (within : g.Within f) : Solving f g (l.revise b out next) where
  numBlocks := ok.numBlocks
  numWords := ok.numWords
  ins := ok.ins.set r.inside r.nextLength
  outs := ok.outs.set r.inside r.outLength
  uses := ok.uses
  defs := ok.defs
  notes := ok.notes
  live c below v held := by
    rw [r.insHold ok] at held
    split at held
    · rename_i same
      exact same ▸ r.nextLive ok within held
    · exact ok.live c below v held
  backed c below v held := by
    rw [r.insHold ok] at held
    rw [r.outsHold ok]
    split at held
    · rename_i same
      rw [if_pos same, same]
      exact (r.enters v).mp held
    · rename_i other
      rw [if_neg other]
      exact ok.backed c below v held
  fed c below v held := by
    rw [r.outsHold ok] at held
    split at held
    · rename_i same
      obtain ⟨s, edge, into⟩ := (r.leaves v).mp held
      exact ⟨s, same ▸ edge, r.insGrow ok into⟩
    · obtain ⟨s, edge, into⟩ := ok.fed c below v held
      exact ⟨s, edge, r.insGrow ok into⟩

theorem still (same : next = l.ins.getD b []) : (l.revise b out next).ins = l.ins := by
  refine List.ext_getElem? fun c => ?_
  rw [revise, List.getElem?_set]
  split
  · rename_i here
    have below := Nat.lt_of_lt_of_le r.inside ok.ins.length
    rw [same, ← here, if_pos below, List.getD_eq_getElem?_getD, List.getElem?_eq_getElem below, Option.getD_some]
  · rfl

theorem full (same : next = l.ins.getD b []) : Full g (l.revise b out next) b where
  reads v reads := by
    rw [r.insHold ok, if_pos rfl]
    exact (r.enters v).mpr (.inl reads)
  leaves s edge v into := by
    rw [r.still ok same] at into
    rw [r.outsHold ok, if_pos rfl]
    exact (r.leaves v).mpr ⟨s, edge, into⟩
  passes v leaves passes := by
    rw [r.outsHold ok, if_pos rfl] at leaves
    rw [r.insHold ok, if_pos rfl]
    exact (r.enters v).mpr (.inr ⟨leaves, passes⟩)

theorem swept (within : g.Within f) :
    Swept f g (· = b) l (l.revise b out next) (next != l.ins.getD b []) where
  solving := r.solving ok within
  uses := rfl
  defs := rfl
  grows _ _ _ := r.insGrow ok
  outsSame c other := by rw [revise, getDSet (Nat.lt_of_lt_of_le r.inside ok.outs.length), if_neg other]
  more changed := by
    obtain ⟨v, now, before⟩ := Words.memberBeyond ((ok.ins.row b r.inside).trans r.nextLength.symm)
      (fun v => r.nextGrows ok) (bne_iff_ne.mp changed).symm
    exact ⟨b, r.inside, v, by rw [r.insHold ok, if_pos rfl, now], before⟩
  same unchanged := r.still ok (by simpa using unchanged)
  full unchanged c here := here ▸ r.full ok (by simpa using unchanged)

end Revised

theorem Swept.trans {before after : Nat → Prop} {first second : Bool}
    (left : Swept f g before l m first) (right : Swept f g after m n second)
    (apart : ∀ b, before b → ¬ after b) :
    Swept f g (fun b => before b ∨ after b) l n (first || second) where
  solving := right.solving
  uses := right.uses.trans left.uses
  defs := right.defs.trans left.defs
  grows b inside v held := right.grows b inside v (left.grows b inside v held)
  outsSame b other := (right.outsSame b fun late => other (.inr late)).trans
    (left.outsSame b fun early => other (.inl early))
  more changed := by
    rcases (Bool.or_eq_true ..).mp changed with early | late
    · obtain ⟨b, inside, v, now, was⟩ := left.more early
      exact ⟨b, inside, v, right.grows b inside v now, was⟩
    · obtain ⟨b, inside, v, now, was⟩ := right.more late
      refine ⟨b, inside, v, now, ?_⟩
      cases held : holds l.ins b v with
      | false => rfl
      | true => exact absurd (left.grows b inside v held) (by simp [was])
  same unchanged := by
    obtain ⟨early, late⟩ := (Bool.or_eq_false_iff ..).mp unchanged
    exact (right.same late).trans (left.same early)
  full unchanged b visited := by
    obtain ⟨early, late⟩ := (Bool.or_eq_false_iff ..).mp unchanged
    rcases visited with first | second
    · exact (left.full early b first).kept right.uses right.defs (right.same late)
        (right.outsSame b (apart b first))
    · exact right.full late b second

theorem sweepSwept (within : g.Within f) {count : Nat} (inside : count ≤ f.blocks.length)
    (ok : Solving f g l) :
    ∃ m changed, sweep g count l = some (m, changed) ∧ Swept f g (· < count) l m changed := by
  induction count generalizing l with
  | zero =>
    refine ⟨l, false, rfl, ok, rfl, rfl, fun _ _ _ held => held, fun _ _ => rfl, nofun, fun _ => rfl,
      fun _ _ below => absurd below (Nat.not_lt_zero _)⟩
  | succ b ih =>
    obtain ⟨out, next, visited, revised⟩ := visitRevises ok within inside
    have first := revised.swept ok within
    obtain ⟨n, before, swept, rest⟩ := ih (Nat.le_of_succ_le inside) first.solving
    refine ⟨n, (next != l.ins.getD b []) || before, ?_, ?_⟩
    · simp only [sweep, visited, Option.bind_some, swept, Option.map_some]
    have both := first.trans rest fun c here below => Nat.ne_of_lt below here
    have all : (fun c => c = b ∨ c < b) = (· < b + 1) := by
      funext c
      exact propext (by omega)
    rwa [all] at both

def weight (f : Func) (l : Liveness) : Nat :=
  ((List.range f.blocks.length).flatMap fun b =>
    (List.range (64 * wordsFor f)).map (Prod.mk b)).countP fun (b, v) => holds l.ins b v

theorem weightBound (f : Func) (l : Liveness) :
    weight f l ≤ f.blocks.length * (64 * wordsFor f) := by
  refine Nat.le_trans List.countP_le_length ?_
  simp [List.length_flatMap, List.map_const']

theorem Swept.heavier {visited : Nat → Prop} (swept : Swept f g visited l m true) :
    weight f l < weight f m := by
  obtain ⟨b, inside, v, now, was⟩ := swept.more rfl
  have low := swept.solving.ins.holdsBelow inside now
  have listed : (b, v) ∈ (List.range f.blocks.length).flatMap fun b =>
      (List.range (64 * wordsFor f)).map (Prod.mk b) :=
    List.mem_flatMap.mpr ⟨b, List.mem_range.mpr inside,
      List.mem_map.mpr ⟨v, List.mem_range.mpr low, rfl⟩⟩
  have grows : ∀ x ∈ (List.range f.blocks.length).flatMap fun b =>
      (List.range (64 * wordsFor f)).map (Prod.mk b), holds l.ins x.1 x.2 = true → holds m.ins x.1 x.2 = true := by
    intro x there
    obtain ⟨c, below, pair⟩ := List.mem_flatMap.mp there
    obtain ⟨u, -, rfl⟩ := List.mem_map.mp pair
    exact swept.grows c (List.mem_range.mp below) u
  obtain ⟨front, back, split⟩ := List.append_of_mem listed
  unfold weight
  rw [split] at grows ⊢
  rw [List.forall_mem_append, List.forall_mem_cons] at grows
  have left := List.countP_mono_left grows.1
  have right := List.countP_mono_left grows.2.2
  simp only [List.countP_append, List.countP_cons, now, was, if_true, Bool.false_eq_true, if_false]
  omega

theorem solved (within : g.Within f) {rounds : Nat} (ok : Solving f g l)
    (enough : f.blocks.length * (64 * wordsFor f) < weight f l + rounds) :
    ∃ m, solve g rounds l = some m ∧ Solving f g m ∧ ∀ b < f.blocks.length, Full g m b := by
  induction rounds generalizing l with
  | zero => exact absurd (weightBound f l) (Nat.not_le_of_lt enough)
  | succ rounds ih =>
    obtain ⟨m, changed, ran, swept⟩ := sweepSwept within (Nat.le_refl _) ok
    rw [solve, ok.numBlocks, ran, Option.bind_some]
    cases changed with
    | true =>
      have heavier := swept.heavier
      exact ih swept.solving (by omega)
    | false => exact ⟨m, rfl, swept.solving, swept.full rfl⟩

theorem prepared (old : Liveness) (f : Func) (g : FlowGraph) : Solving f g (old.prepare f) := by
  obtain ⟨ins, outs, numBlocks, numWords⟩ := noteBlocksKeeps f.numValues 0 f.blocks (old.emptied f)
  have blank : Noting (wordsFor f) f.blocks.length 0 (old.emptied f) :=
    ⟨fitReset, fitReset, fun c _ below => ⟨getDReset below, getDReset below⟩⟩
  obtain ⟨done, -, notes⟩ := noted (roomFor f) f.blocks blank (Nat.zero_add _)
  have noIns {b v : Nat} (inside : b < f.blocks.length) : holds (old.prepare f).ins b v = false := by
    rw [prepare, ins]
    exact holdsReset inside
  have noOuts {b v : Nat} (inside : b < f.blocks.length) : holds (old.prepare f).outs b v = false := by
    rw [prepare, outs]
    exact holdsReset inside
  exact {
    numBlocks, numWords
    ins := ins ▸ fitReset
    outs := outs ▸ fitReset
    uses := done.uses
    defs := done.defs
    notes b bb found := Nat.zero_add b ▸ notes b bb found
    live b inside v held := Bool.noConfusion ((noIns inside).symm.trans held)
    backed b inside v held := Bool.noConfusion ((noIns inside).symm.trans held)
    fed b inside v held := Bool.noConfusion ((noOuts inside).symm.trans held) }

structure Solution (f : Func) (g : FlowGraph) (l : Liveness) : Prop where
  numBlocks : l.numBlocks = f.blocks.length
  into : ∀ b v, l.isLiveIn b v = true ↔ v < f.numValues ∧ LiveAlong f g v b
  out : ∀ b v, l.isLiveOut b v = true ↔
    b < f.blocks.length ∧ ∃ s ∈ g.successors b, l.isLiveIn s v = true

theorem computes (old : Liveness) (within : g.Within f) :
    ∃ m, old.compute? f g = some m ∧ Solution f g m := by
  have ready := prepared old f g
  obtain ⟨m, made, ok, full⟩ := solved within ready (Nat.lt_of_lt_of_le (Nat.lt_succ_self _) (Nat.le_add_left ..))
  have into (b v : Nat) : m.isLiveIn b v = true ↔ v < f.numValues ∧ LiveAlong f g v b := by
    rw [isLiveIn, Bool.and_eq_true, decide_eq_true_eq, ok.numBlocks]
    constructor
    · rintro ⟨inside, held⟩
      exact ok.live b inside v held
    · rintro ⟨low, live⟩
      refine ⟨live.inside, ?_⟩
      induction live with
      | @reads b bb found reads =>
        have inside := (List.getElem?_eq_some_iff.mp found).1
        exact (full b inside).reads v (((ok.notes b bb found).uses v).mpr ⟨low, reads⟩)
      | @through b s bb found edge later pass ih =>
        have inside := (List.getElem?_eq_some_iff.mp found).1
        refine (full b inside).passes v ((full b inside).leaves s edge v ih) ?_
        rw [← Bool.not_eq_true, (ok.notes b bb found).defs v]
        exact fun defines => pass defines.2
  refine ⟨m, ?_, ok.numBlocks, into, fun b v => ?_⟩
  · rw [compute?, ready.numBlocks, ready.numWords, made]
  · rw [isLiveOut, Bool.and_eq_true, decide_eq_true_eq, ok.numBlocks]
    refine and_congr_right fun inside => ?_
    have here (s : Nat) (edge : s ∈ g.successors b) : m.isLiveIn s v = holds m.ins s v := by
      rw [isLiveIn, ok.numBlocks, decide_eq_true (within b inside s edge), Bool.true_and]
      rfl
    constructor
    · intro held
      obtain ⟨s, edge, live⟩ := ok.fed b inside v held
      exact ⟨s, edge, (here s edge).trans live⟩
    · rintro ⟨s, edge, live⟩
      exact (full b inside).leaves s edge v ((here s edge).symm.trans live)

theorem solution (old : Liveness) (within : g.Within f) : Solution f g (old.compute f g) := by
  obtain ⟨m, made, ok⟩ := computes old within
  rwa [compute, made, Option.getD_some]

theorem listedIn : v ∈ l.liveIn b ↔ l.isLiveIn b v = true := by
  rw [liveIn, isLiveIn, Bool.and_eq_true, decide_eq_true_eq]
  split
  · rename_i inside
    rw [Words.memMembers, and_iff_right inside]
  · rename_i outside
    simp [outside]

theorem listedOut : v ∈ l.liveOut b ↔ l.isLiveOut b v = true := by
  rw [liveOut, isLiveOut, Bool.and_eq_true, decide_eq_true_eq]
  split
  · rename_i inside
    rw [Words.memMembers, and_iff_right inside]
  · rename_i outside
    simp [outside]

theorem ascendingIn (l : Liveness) (b : Nat) : (l.liveIn b).Pairwise (· < ·) := by
  unfold liveIn
  split
  · exact Words.ascendingMembers _
  · exact .nil

theorem ascendingOut (l : Liveness) (b : Nat) : (l.liveOut b).Pairwise (· < ·) := by
  unfold liveOut
  split
  · exact Words.ascendingMembers _
  · exact .nil

end Liveness
end SsaCodegen
