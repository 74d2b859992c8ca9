import Mathlib.Data.List.Nodup
import Mathlib.Data.List.Perm.Subperm
import SsaCodegen.Proofs.Flow.Loops
/-! The nest of loops. Two loops lie one in the other or apart, since a loop is entered at its header only. The
parent of a loop is the smallest around it, so its depth counts the loops that hold its header. -/
namespace SsaCodegen
open Search

theorem Search.Ordered.passesBoth {next : Nat → List Nat} {root : Nat} {order : List Nat}
    (o : Ordered next root order) {a b : Nat} (reached : Reached next [root] [] b)
    (left : Passes next root a b) (right : Passes next root b a) : a = b := by
  rcases o.passes reached left with same | before
  · exact same
  · rcases o.passes (DomTree.reachedOfPasses reached left) right with same | after
    · exact same.symm
    · exact absurd before (Nat.lt_asymm after)

namespace Loop.Exact
variable {f : Func} {l m : Loop} (ok : l.Exact f) (other : m.Exact f)
include ok other

theorem sameHeader (left : l.header ∈ m.blocks) (right : m.header ∈ l.blocks) : l.header = m.header := by
  have nonempty := ok.natural.someBlock
  exact (DomTree.orderedOrder (FlowGraph.proper f nonempty)).passesBoth
    (other.natural.reached _ other.natural.header) (ok.passes _ right) (other.passes _ left)

theorem sameBlocks (same : l.header = m.header) : ∀ b ∈ l.blocks, b ∈ m.blocks := by
  have latches : ∀ p ∈ l.latches, p ∈ m.latches := fun p latch =>
    (other.latch p).mpr (same ▸ (ok.latch p).mp latch)
  intro b inside
  refine (other.member b).mpr (((ok.member b).mp inside).imp (·.trans same) fun body => ?_)
  rw [← same]
  induction body with
  | root start free => exact .root (latches _ start) free
  | step before edge free ih => exact .step (ih ((ok.member _).mpr (.inr before))) edge free

theorem around (outside : l.header ∉ m.blocks) {b : Nat} (left : b ∈ l.blocks) (right : b ∈ m.blocks) :
    m.header ∈ l.blocks ∧ ∀ c ∈ m.blocks, c ∈ l.blocks := by
  have nonempty := ok.natural.someBlock
  have apart {c : Nat} (inside : c ∈ m.blocks) : c ≠ l.header := fun same => outside (same ▸ inside)
  -- the path from the entry came to the block through the header of the inner loop
  have header : m.header ∈ l.blocks := by
    have reached := ok.natural.reached b left
    induction reached with
    | root start free =>
      cases List.mem_singleton.mp start
      by_cases first : m.header = 0
      · exact first ▸ left
      · exact absurd right (other.natural.entry first)
    | step before edge free ih =>
      rename_i a b
      by_cases first : b = m.header
      · exact first ▸ left
      · exact ih (ok.natural.closed a b before edge left (apart right))
          (other.natural.closed a b before edge right first)
  refine ⟨header, fun c inside => ?_⟩
  rcases (other.member c).mp inside with rfl | body
  · exact header
  induction body with
  | root start free =>
    obtain ⟨edge, reached, -⟩ := (other.latch _).mp start
    exact ok.natural.closed _ _ reached edge header (apart other.natural.header)
  | step before edge free ih =>
    have inner := (other.member _).mpr (.inr before)
    obtain ⟨edge, reached⟩ := (LoopForest.memBack nonempty).mp edge
    exact ok.natural.closed _ _ reached (LoopForest.memPredecessors edge).2.2 (ih inner) (apart inner)

theorem holds (header : m.header ∈ l.blocks) : ∀ b ∈ m.blocks, b ∈ l.blocks := by
  by_cases back : l.header ∈ m.blocks
  · exact other.sameBlocks ok (ok.sameHeader other back header).symm
  · exact (ok.around other back header other.natural.header).2

theorem nested {b : Nat} (left : b ∈ l.blocks) (right : b ∈ m.blocks) :
    (∀ c ∈ l.blocks, c ∈ m.blocks) ∨ ∀ c ∈ m.blocks, c ∈ l.blocks := by
  by_cases header : l.header ∈ m.blocks
  · exact .inl (other.holds ok header)
  · exact .inr (ok.around other header left right).2

omit other in
theorem onward {b : Nat} (inside : b ∈ l.blocks) : ∃ s ∈ (FlowGraph.ofFunc f).successors b, s ∈ l.blocks := by
  have nonempty := ok.natural.someBlock
  -- a path to a latch leaves the header for a block of the loop
  have leaves {t : Nat} (reached : Reached (FlowGraph.ofFunc f).successors [0] [] t) (within : t ∈ l.blocks)
      (later : t ≠ l.header) : ∃ s ∈ (FlowGraph.ofFunc f).successors l.header, s ∈ l.blocks := by
    induction reached with
    | root start free =>
      cases List.mem_singleton.mp start
      exact absurd within (ok.natural.entry (Ne.symm later))
    | step before edge free ih =>
      rename_i a t
      by_cases first : a = l.header
      · exact ⟨t, first ▸ edge, within⟩
      · exact ih (ok.natural.closed a t before edge within later) first
  rcases (ok.member b).mp inside with rfl | body
  · obtain ⟨t, latch⟩ := List.exists_mem_of_ne_nil _ ok.looped
    obtain ⟨edge, reached, -⟩ := (ok.latch t).mp latch
    by_cases same : t = l.header
    · exact ⟨l.header, same ▸ edge, inside⟩
    · refine leaves reached ((ok.member t).mpr (.inr (.root latch ?_))) same
      simpa using same
  · cases body with
    | root start free => exact ⟨l.header, ((ok.latch b).mp start).1, ok.natural.header⟩
    | step before edge free =>
      obtain ⟨earlier, -⟩ := (LoopForest.memBack nonempty).mp edge
      exact ⟨_, (LoopForest.memPredecessors earlier).2.2, (ok.member _).mpr (.inr before)⟩

end Loop.Exact

namespace LoopForest

section Bare
variable {f : Func} (nonempty : 0 < f.blocks.length)
include nonempty

theorem bareHeaders : (bare f).map Loop.header = (DomTree.ofFunc f (FlowGraph.ofFunc f)).order.filter
    fun b => (loopAt? f.blocks.length (FlowGraph.ofFunc f) (DomTree.ofFunc f (FlowGraph.ofFunc f)) b).isSome := by
  have listed : ∀ b ∈ (DomTree.ofFunc f (FlowGraph.ofFunc f)).order,
      Reached (FlowGraph.ofFunc f).successors [0] [] b := fun b inside =>
    (DomTree.memOrder (FlowGraph.proper f nonempty)).mp inside
  unfold bare
  generalize (DomTree.ofFunc f (FlowGraph.ofFunc f)).order = order at listed
  induction order with
  | nil => rfl
  | cons b rest ih =>
    have ih := ih fun c later => listed c (List.mem_cons_of_mem _ later)
    cases found : loopAt? f.blocks.length (FlowGraph.ofFunc f) (DomTree.ofFunc f (FlowGraph.ofFunc f)) b with
    | none => rw [List.filterMap_cons_none found, List.filter_cons_of_neg (by simp [found]), ih]
    | some l =>
      have header := (loopAtExact nonempty (listed b List.mem_cons_self) found).2
      rw [List.filterMap_cons_some found, List.filter_cons_of_pos (by simp [found]), List.map_cons, header, ih]

theorem headersOrdered : ((bare f).map Loop.header).Pairwise
    fun a b => ¬ Passes (FlowGraph.ofFunc f).successors 0 b a := by
  have o := DomTree.orderedOrder (FlowGraph.proper f nonempty)
  rw [bareHeaders nonempty, DomTree.ofFunc]
  refine List.Pairwise.filter _ (List.pairwise_iff_getElem.mpr fun i j below above before passes => ?_)
  have later := o.passes ((o.mem _).mp (List.getElem_mem below)) passes
  rw [o.once.getElem_inj_iff, o.once.idxOf_getElem, o.once.idxOf_getElem] at later
  omega

theorem headersOnce : ((bare f).map Loop.header).Nodup := by
  refine (headersOrdered nonempty).imp ?_
  rintro a _ apart rfl
  exact apart (Passes.refl _ _ _)

theorem bareIndex {i j : Nat} {l m : Loop} (left : (bare f)[i]? = some l) (right : (bare f)[j]? = some m)
    (same : l.header = m.header) : i = j := by
  have located : ((bare f).map Loop.header)[i]? = ((bare f).map Loop.header)[j]? := by
    rw [List.getElem?_map, List.getElem?_map, left, right, Option.map_some, Option.map_some, same]
  have inside : i < ((bare f).map Loop.header).length := by
    rw [List.length_map]
    exact (List.getElem?_eq_some_iff.mp left).1
  exact (List.getElem?_inj inside (headersOnce nonempty)).mp located

end Bare

def Smallest (loops : List Loop) (i b : Nat) : Option (Loop × Nat) → Prop
  | none => ∀ (k : Nat) l, loops[k]? = some l → b ∈ l.blocks → k = i
  | some (m, j) => loops[j]? = some m ∧ j ≠ i ∧ b ∈ m.blocks ∧
      ∀ (k : Nat) l, loops[k]? = some l → b ∈ l.blocks → k ≠ i → m.blocks.length ≤ l.blocks.length

def pick (skips : Loop × Nat → Bool) (beats : Loop → Loop → Prop) [DecidableRel beats]
    (best : Option (Loop × Nat)) (x : Loop × Nat) : Option (Loop × Nat) :=
  if skips x then best
  else
    match best with
    | none => some x
    | some y => if beats x.1 y.1 then some x else best

def Best (loops : List Loop) (skips : Loop × Nat → Bool) (beats : Loop → Loop → Prop) :
    Option (Loop × Nat) → Prop
  | none => ∀ (k : Nat) l, loops[k]? = some l → skips (l, k) = true
  | some (m, j) => loops[j]? = some m ∧ skips (m, j) = false ∧
      ∀ (k : Nat) l, loops[k]? = some l → skips (l, k) = false → ¬ beats l m

theorem pickBest {skips : Loop × Nat → Bool} {beats : Loop → Loop → Prop} [DecidableRel beats]
    (steps : ∀ l m n, beats m n → ¬ beats l n → ¬ beats l m) (once : ∀ l, ¬ beats l l) (loops : List Loop) :
    Best loops skips beats (loops.zipIdx.foldl (pick skips beats) none) := by
  induction loops using List.reverseRecOn with
  | nil => exact fun k l absent => nomatch absent
  | append_singleton loops x ih =>
    rw [List.zipIdx_append, List.foldl_append, Nat.zero_add, List.zipIdx_singleton, List.foldl_cons, List.foldl_nil]
    generalize List.foldl _ none loops.zipIdx = best at ih
    have located (k : Nat) (l : Loop) : (loops ++ [x])[k]? = some l ↔
        loops[k]? = some l ∨ k = loops.length ∧ x = l := by
      rcases Nat.lt_trichotomy k loops.length with before | rfl | after
      · rw [List.getElem?_append_left before]
        exact (or_iff_left fun last => Nat.ne_of_lt before last.1).symm
      · simp
      · rw [List.getElem?_eq_none (by simp; omega), List.getElem?_eq_none (by omega)]
        simp [Nat.ne_of_gt after]
    unfold pick
    cases best with
    | none =>
      simp only [Best, located] at ih ⊢
      split <;> grind [Best]
    | some best =>
      simp only [Best, located] at ih ⊢
      split <;> grind [Best]

theorem smallestAroundSmallest (loops : List Loop) (i b : Nat) :
    ∃ best, smallestAround loops i b = best.map Prod.snd ∧ Smallest loops i b best := by
  let step := pick (fun x => x.2 == i || !x.1.contains b) fun l m => l.blocks.length < m.blocks.length
  have found : Best loops _ _ (loops.zipIdx.foldl step none) := pickBest (by omega) (by omega) loops
  have same : smallestAround loops i b = (loops.zipIdx.foldl step none).map Prod.snd := by
    refine congrArg (fun step => (loops.zipIdx.foldl step none).map Prod.snd) (funext₂ fun best x => ?_)
    cases best <;> rfl
  refine ⟨_, same, ?_⟩
  generalize loops.zipIdx.foldl step none = best at found
  have inside (c : Nat) (l : Loop) : l.contains c = true ↔ c ∈ l.blocks := List.contains_iff_mem
  cases best <;> grind [Best, Smallest]

def Deepest (loops : List Loop) (b : Nat) : Option (Loop × Nat) → Prop
  | none => ∀ (k : Nat) l, loops[k]? = some l → b ∉ l.blocks
  | some (m, j) => loops[j]? = some m ∧ b ∈ m.blocks ∧
      ∀ (k : Nat) l, loops[k]? = some l → b ∈ l.blocks → l.depth ≤ m.depth

theorem deepestAroundDeepest (loops : List Loop) (b : Nat) :
    ∃ best, deepestAround loops b = best.map Prod.snd ∧ Deepest loops b best := by
  let step := pick (fun x => !x.1.contains b) fun l m => m.depth < l.depth
  have found : Best loops _ _ (loops.zipIdx.foldl step none) := pickBest (by omega) (by omega) loops
  have same : deepestAround loops b = (loops.zipIdx.foldl step none).map Prod.snd := by
    refine congrArg (fun step => (loops.zipIdx.foldl step none).map Prod.snd) (funext₂ fun best x => ?_)
    cases best <;> rfl
  refine ⟨_, same, ?_⟩
  generalize loops.zipIdx.foldl step none = best at found
  have inside (c : Nat) (l : Loop) : l.contains c = true ↔ c ∈ l.blocks := List.contains_iff_mem
  cases best <;> grind [Best, Deepest]

theorem depthsLength (loops : List Loop) : (withDepths loops).length = loops.length := by
  have same := congrArg List.length (depthsKeep Loop.header (fun _ _ => rfl) loops)
  rwa [List.length_map, List.length_map] at same

theorem depthsCount {loops : List Loop} {count : Nat → Nat}
    (outer : ∀ (i : Nat) l, loops[i]? = some l → l.parent = none → count i = 1)
    (inner : ∀ (i : Nat) l p, loops[i]? = some l → l.parent = some p → p < i ∧ count i = count p + 1) :
    ∀ (i : Nat) l, (withDepths loops)[i]? = some l → l.depth = count i := by
  induction loops using List.reverseRecOn with
  | nil => exact fun i l absent => nomatch absent
  | append_singleton loops x ih =>
    have earlier {k : Nat} {m : Loop} (there : loops[k]? = some m) : (loops ++ [x])[k]? = some m :=
      (List.getElem?_append_left (List.getElem?_eq_some_iff.mp there).1).trans there
    have ih := ih (fun k m there => outer k m (earlier there)) fun k m p there => inner k m p (earlier there)
    intro i l found
    rw [depthsConcat] at found
    rcases Nat.lt_or_ge i (withDepths loops).length with before | last
    · rw [List.getElem?_append_left before] at found
      exact ih i l found
    have place : i = loops.length := by
      have below := (List.getElem?_eq_some_iff.mp found).1
      rw [List.length_append, depthsLength, List.length_singleton] at below
      rw [depthsLength] at last
      omega
    subst place
    have own : (loops ++ [x])[loops.length]? = some x := List.getElem?_concat_length
    rw [← depthsLength loops, List.getElem?_concat_length] at found
    cases found
    show parentDepth (withDepths loops) x + 1 = count loops.length
    cases parent : x.parent with
    | none => rw [outer _ x own parent, parentDepth, parent]
    | some p =>
      obtain ⟨before, more⟩ := inner _ x p own parent
      have there := List.getElem?_eq_getElem (show p < (withDepths loops).length by rwa [depthsLength])
      rw [more, parentDepth, parent]
      simp only [there, Option.map_some, Option.getD_some, ih p _ there]

section Depth
variable {f : Func} (nonempty : 0 < f.blocks.length)
include nonempty

def holding (f : Func) (b : Nat) : List Loop := (bare f).filter (·.contains b)

theorem holdingOnce (b : Nat) : (holding f b).Nodup := ((headersOnce nonempty).of_map).filter _

omit nonempty in
theorem memHolding {b : Nat} {l : Loop} : l ∈ holding f b ↔ l ∈ bare f ∧ b ∈ l.blocks := by
  rw [holding, List.mem_filter, Loop.contains, List.contains_iff_mem]

section Place
variable {i : Nat} {l : Loop} (located : (bare f)[i]? = some l)
include located

theorem onlyHolding (alone : Smallest (bare f) i l.header none) : (holding f l.header).length = 1 := by
  have listed := List.mem_of_getElem? located
  have perm : (holding f l.header).Perm [l] := by
    refine (List.perm_ext_iff_of_nodup (holdingOnce nonempty _) (List.nodup_singleton l)).mpr fun x => ?_
    rw [memHolding, List.mem_singleton]
    constructor
    · rintro ⟨inside, header⟩
      obtain ⟨k, there⟩ := List.getElem?_of_mem inside
      cases alone k x there header
      exact Option.some.inj (there.symm.trans located)
    · rintro rfl
      exact ⟨listed, (exactOfBare nonempty listed).natural.header⟩
  exact perm.length_eq

theorem parentHolding {m : Loop} {j : Nat} (smallest : Smallest (bare f) i l.header (some (m, j))) :
    j < i ∧ (holding f l.header).length = (holding f m.header).length + 1 := by
  obtain ⟨there, other, held, least⟩ := smallest
  have left := List.mem_of_getElem? located
  have inner := exactOfBare nonempty left
  have outer := exactOfBare nonempty (List.mem_of_getElem? there)
  have apart : m.header ∉ l.blocks := fun back =>
    other (bareIndex nonempty there located (outer.sameHeader inner back held))
  refine ⟨?_, ?_⟩
  · refine Nat.lt_of_le_of_ne (Nat.le_of_not_lt fun later => ?_) other
    obtain ⟨below, rfl⟩ := List.getElem?_eq_some_iff.mp located
    obtain ⟨above, rfl⟩ := List.getElem?_eq_some_iff.mp there
    exact List.pairwise_iff_getElem.mp (List.pairwise_map.mp (headersOrdered nonempty)) i j below above later
      (outer.passes _ held)
  have perm : (holding f l.header).Perm (l :: holding f m.header) := by
    refine (List.perm_ext_iff_of_nodup (holdingOnce nonempty _)
      (List.nodup_cons.mpr ⟨fun inside => apart (memHolding.mp inside).2, holdingOnce nonempty _⟩)).mpr fun x => ?_
    rw [List.mem_cons, memHolding, memHolding]
    constructor
    · rintro ⟨inside, header⟩
      obtain ⟨k, found⟩ := List.getElem?_of_mem inside
      have ok := exactOfBare nonempty inside
      by_cases same : k = i
      · subst same
        exact .inl (Option.some.inj (found.symm.trans located))
      · refine .inr ⟨inside, ?_⟩
        rcases ok.nested outer header held with within | around
        -- no smaller loop is around the header
        · have all := (ok.once.subperm within).perm_of_length_le (least k x found header same)
          exact all.mem_iff.mpr outer.natural.header
        · exact around _ outer.natural.header
    · rintro (rfl | ⟨inside, header⟩)
      · exact ⟨left, inner.natural.header⟩
      · exact ⟨inside, (exactOfBare nonempty inside).holds outer header _ held⟩
  rw [perm.length_eq, List.length_cons]

end Place
omit nonempty in
theorem parentSmallest {i : Nat} {m : Loop} (found : (withParents (bare f))[i]? = some m) :
    ∃ l, (bare f)[i]? = some l ∧ ∃ best, m.parent = best.map Prod.snd ∧ Smallest (bare f) i l.header best := by
  rw [withParents, List.getElem?_mapIdx] at found
  obtain ⟨l, located, rfl⟩ := Option.map_eq_some_iff.mp found
  exact ⟨l, located, smallestAroundSmallest (bare f) i l.header⟩

theorem depthHolding {l : Loop} (inside : l ∈ (ofFunc f (FlowGraph.ofFunc f)
    (DomTree.ofFunc f (FlowGraph.ofFunc f))).loops) : l.depth = (holding f l.header).length := by
  obtain ⟨i, found⟩ := List.getElem?_of_mem inside
  let count (k : Nat) : Nat := (((bare f)[k]?.map fun l => (holding f l.header).length).getD 0)
  have counted {k : Nat} {m : Loop} (there : (bare f)[k]? = some m) : count k = (holding f m.header).length := by
    simp only [count, there, Option.map_some, Option.getD_some]
  have depth : l.depth = count i := by
    refine depthsCount (fun k m there absent => ?_) (fun k m p there some_parent => ?_) i l found
    · obtain ⟨b, located, best, parent, smallest⟩ := parentSmallest there
      cases Option.map_eq_none_iff.mp (parent.symm.trans absent)
      rw [counted located, onlyHolding nonempty located smallest]
    · obtain ⟨b, located, best, parent, smallest⟩ := parentSmallest there
      obtain ⟨⟨m, j⟩, rfl, rfl⟩ := Option.map_eq_some_iff.mp (parent.symm.trans some_parent)
      obtain ⟨before, more⟩ := parentHolding nonempty located smallest
      rw [counted located, counted smallest.1]
      exact ⟨before, more⟩
  have shape := congrArg (·[i]?) (shapes f)
  simp only [List.getElem?_map, found, Option.map_some] at shape
  obtain ⟨b, located, same⟩ := Option.map_eq_some_iff.mp shape.symm
  rw [depth, counted located, show b.header = l.header from congrArg Prod.fst same]

variable {l m : Loop}
  (left : l ∈ (ofFunc f (FlowGraph.ofFunc f) (DomTree.ofFunc f (FlowGraph.ofFunc f))).loops)
  (right : m ∈ (ofFunc f (FlowGraph.ofFunc f) (DomTree.ofFunc f (FlowGraph.ofFunc f))).loops)
include left right

theorem deeper (held : m.header ∈ l.blocks) (apart : l.header ∉ m.blocks) : l.depth < m.depth := by
  obtain ⟨b, listed, same⟩ := inBare right
  have header : b.header = m.header := congrArg Prod.fst same
  have blocks : b.blocks = m.blocks := congrArg (·.2.1) same
  have once : (b :: holding f l.header).Nodup := List.nodup_cons.mpr
    ⟨fun inside => apart (blocks ▸ (memHolding.mp inside).2), holdingOnce nonempty _⟩
  have more : b :: holding f l.header ⊆ holding f m.header := by
    refine List.cons_subset.mpr ⟨memHolding.mpr ⟨listed, header ▸ (exactOfBare nonempty listed).natural.header⟩, ?_⟩
    intro x inside
    obtain ⟨inside, header⟩ := memHolding.mp inside
    exact memHolding.mpr ⟨inside, (exactOfBare nonempty inside).holds (exact nonempty left) header _ held⟩
  rw [depthHolding nonempty left, depthHolding nonempty right]
  exact once.length_le_of_subset more

theorem shallower (shallow : m.depth ≤ l.depth) {b : Nat} (meets : b ∈ l.blocks) (also : b ∈ m.blocks) :
    ∀ c ∈ l.blocks, c ∈ m.blocks := by
  have outer := exact nonempty left
  have inner := exact nonempty right
  rcases outer.nested inner meets also with within | around
  · exact within
  · by_cases back : l.header ∈ m.blocks
    · exact inner.holds outer back
    · exact absurd (deeper nonempty left right (around _ inner.natural.header) back) (Nat.not_lt.mpr shallow)

end Depth

section Headers
variable {f : Func} (nonempty : 0 < f.blocks.length)
include nonempty

omit nonempty in
theorem loopHeaders : (ofFunc f (FlowGraph.ofFunc f) (DomTree.ofFunc f (FlowGraph.ofFunc f))).loops.map Loop.header =
    (bare f).map Loop.header := by
  have same := congrArg (List.map Prod.fst) (shapes f)
  rwa [List.map_map, List.map_map] at same

theorem loopsApart : ((ofFunc f (FlowGraph.ofFunc f) (DomTree.ofFunc f (FlowGraph.ofFunc f))).loops.map
    Loop.header).Nodup := loopHeaders ▸ headersOnce nonempty

theorem loopOfHeader {header latch : Nat} (edge : header ∈ (FlowGraph.ofFunc f).successors latch)
    (reached : Reached (FlowGraph.ofFunc f).successors [0] [] latch)
    (passes : Passes (FlowGraph.ofFunc f).successors 0 header latch) :
    ∃ l ∈ (ofFunc f (FlowGraph.ofFunc f) (DomTree.ofFunc f (FlowGraph.ofFunc f))).loops, l.header = header := by
  have proper := FlowGraph.proper f nonempty
  have found := DomTree.reachedOfPasses reached passes
  have inside := DomTree.reachedInside proper found
  have held : latch ∈ ((FlowGraph.ofFunc f).predecessors header).filter
      ((DomTree.ofFunc f (FlowGraph.ofFunc f)).dominates header) :=
    List.mem_filter.mpr ⟨(FlowGraph.predecessorIff inside).mpr edge, (DomTree.dominatesIff proper).mpr
      ⟨reached, passes⟩⟩
  have listed : header ∈ (bare f).map Loop.header := by
    rw [bareHeaders nonempty, List.mem_filter]
    refine ⟨(DomTree.memOrder proper).mpr found, ?_⟩
    unfold loopAt?
    simp [List.ne_nil_of_mem held]
  exact List.mem_map.mp (loopHeaders ▸ listed)

end Headers

end LoopForest
end SsaCodegen
