import SsaCodegen.Proofs.Flow.Forest
import SsaCodegen.Proofs.Flow.Paths
/-! Loops by paths. Each block that an edge leads back to from a block that it dominates has one loop, of
what leads to such an edge without passing it. No two loops cross, so the loops around a block lie one in
the other, and the forest tells for each loop and each block which is the next around it. -/
namespace SsaCodegen
open Search

namespace FlowGraph

def Reachable (g : FlowGraph) (b : Nat) : Prop := ∃ nodes, g.Path nodes b

structure LeadsBack (g : FlowGraph) (p header : Nat) : Prop where
  edge : header ∈ g.successors p
  reachable : g.Reachable p
  dominated : g.Dominates header p

end FlowGraph

structure Loop.ByPaths (g : FlowGraph) (l : Loop) : Prop where
  latchesOnce : l.latches.Nodup
  latches : ∀ p, p ∈ l.latches ↔ g.LeadsBack p l.header
  blocksOnce : l.blocks.Nodup
  blocks : ∀ b, b ∈ l.blocks ↔ b = l.header ∨
    g.Reachable b ∧ ∃ p ∈ l.latches, ∃ nodes, g.Way b nodes p ∧ l.header ∉ nodes
  dominated : ∀ b ∈ l.blocks, g.Dominates l.header b

def Loop.Inside (l m : Loop) : Prop := (∀ b ∈ l.blocks, b ∈ m.blocks) ∧ ∃ b ∈ m.blocks, b ∉ l.blocks

structure LoopForest.Nested (forest : LoopForest) : Prop where
  nested : ∀ l ∈ forest.loops, ∀ m ∈ forest.loops,
    (∀ b ∈ l.blocks, b ∉ m.blocks) ∨ (∀ b ∈ l.blocks, b ∈ m.blocks) ∨ ∀ b ∈ m.blocks, b ∈ l.blocks
  outermost : ∀ l ∈ forest.loops, l.parent = none ↔ ∀ m ∈ forest.loops, ¬ l.Inside m
  parent : ∀ (i : Nat) l, forest.loops[i]? = some l → ∀ j, l.parent = some j → j < i ∧
    ∃ m, forest.loops[j]? = some m ∧ l.Inside m ∧ ∀ x ∈ forest.loops, l.Inside x → ∀ b ∈ m.blocks, b ∈ x.blocks
  depth : ∀ l ∈ forest.loops, l.depth = (forest.loops.filter (·.contains l.header)).length
  outside : ∀ b, forest.innermostLoop b = none ↔ ∀ l ∈ forest.loops, b ∉ l.blocks
  innermost : ∀ b k, forest.innermostLoop b = some k → ∃ m, forest.loops[k]? = some m ∧ b ∈ m.blocks ∧
    ∀ x ∈ forest.loops, b ∈ x.blocks → ∀ c ∈ m.blocks, c ∈ x.blocks

namespace LoopForest
variable {f : Func}

theorem bodyIff (nonempty : 0 < f.blocks.length) {header : Nat} {latches : List Nat}
    (reached : ∀ p ∈ latches, Reached (FlowGraph.ofFunc f).successors [0] [] p) {b : Nat} :
    Reached (FlowGraph.back f) latches [header] b ↔ Reached (FlowGraph.ofFunc f).successors [0] [] b ∧
      ∃ p ∈ latches, ∃ nodes, (FlowGraph.ofFunc f).Way b nodes p ∧ header ∉ nodes := by
  constructor
  · intro body
    induction body with
    | root start free =>
      exact ⟨reached _ start, _, start, _, .here, fun same => free (by simp_all)⟩
    | step before edge free ih =>
      obtain ⟨-, p, latch, nodes, way, around⟩ := ih
      obtain ⟨edge, origin⟩ := (memBack nonempty).mp edge
      refine ⟨origin, p, latch, _, .step (memPredecessors edge).2.2 way, fun passed => ?_⟩
      rcases List.mem_cons.mp passed with same | later
      · exact free (by simp [same])
      · exact around later
  · rintro ⟨origin, p, latch, nodes, way, around⟩
    induction way with
    | here => exact .root latch (by simpa using Ne.symm (List.ne_of_not_mem_cons around))
    | step edge way ih =>
      obtain ⟨other, around⟩ := List.ne_and_not_mem_of_not_mem_cons around
      refine .step (ih (.step origin edge List.not_mem_nil) latch around) ((memBack nonempty).mpr ⟨?_, origin⟩) ?_
      · exact (FlowGraph.predecessorIff (FlowGraph.boundedSuccessors f _ _ edge)).mpr edge
      · simpa using Ne.symm other

theorem leadsBackIff {p header : Nat} : (FlowGraph.ofFunc f).LeadsBack p header ↔
    header ∈ (FlowGraph.ofFunc f).successors p ∧ Reached (FlowGraph.ofFunc f).successors [0] [] p ∧
      Passes (FlowGraph.ofFunc f).successors 0 header p := by
  rw [FlowGraph.reachableIff, ← FlowGraph.dominatesIff]
  exact ⟨fun ⟨edge, reachable, dominated⟩ => ⟨edge, reachable, dominated⟩,
    fun ⟨edge, reachable, dominated⟩ => ⟨edge, reachable, dominated⟩⟩

theorem exactByPaths (nonempty : 0 < f.blocks.length) {l : Loop} (ok : l.Exact f) (once : l.latches.Nodup) :
    l.ByPaths (FlowGraph.ofFunc f) where
  latchesOnce := once
  latches p := (ok.latch p).trans leadsBackIff.symm
  blocksOnce := ok.once
  blocks b := by
    rw [ok.member, bodyIff nonempty fun p latch => ((ok.latch p).mp latch).2.1, FlowGraph.reachableIff,
      FlowGraph.Reachable]
  dominated b inside := FlowGraph.dominatesIff.mpr (ok.passes b inside)

abbrev forestOf (f : Func) : LoopForest := ofFunc f (FlowGraph.ofFunc f) (DomTree.ofFunc f (FlowGraph.ofFunc f))

theorem bareAt {i : Nat} {l : Loop} (located : (forestOf f).loops[i]? = some l) :
    ∃ m, (bare f)[i]? = some m ∧ shape m = shape l := by
  have same := congrArg (·[i]?) (shapes f)
  simp only [List.getElem?_map] at same
  rw [located, Option.map_some] at same
  exact Option.map_eq_some_iff.mp same.symm

theorem placedAt {i : Nat} {m : Loop} (located : (bare f)[i]? = some m) :
    ∃ l, (forestOf f).loops[i]? = some l ∧ shape m = shape l := by
  have same := congrArg (·[i]?) (shapes f)
  simp only [List.getElem?_map] at same
  rw [located, Option.map_some] at same
  obtain ⟨l, there, same⟩ := Option.map_eq_some_iff.mp same
  exact ⟨l, there, same.symm⟩

theorem placedParent {i : Nat} {l b : Loop} (located : (forestOf f).loops[i]? = some l)
    (there : (bare f)[i]? = some b) :
    ∃ best, l.parent = best.map Prod.snd ∧ Smallest (bare f) i b.header best := by
  obtain ⟨best, same, smallest⟩ := smallestAroundSmallest (bare f) i b.header
  refine ⟨best, Option.some.inj ?_, smallest⟩
  have parents := congrArg (·[i]?) (depthsKeep Loop.parent (fun _ _ => rfl) (withParents (bare f)))
  simp only [List.getElem?_map] at parents
  refine ((congrArg (Option.map Loop.parent) located).symm.trans parents).trans ?_
  rw [withParents, List.getElem?_mapIdx, there, ← same]
  rfl

section
variable (nonempty : 0 < f.blocks.length) {i : Nat} {l b : Loop}
include nonempty

theorem parentAround {m : Loop} {j : Nat} (there : (bare f)[i]? = some b)
    (smallest : Smallest (bare f) i b.header (some (m, j))) :
    j < i ∧ b.Inside m ∧ ∀ x ∈ bare f, b.Inside x → ∀ c ∈ m.blocks, c ∈ x.blocks := by
  have before := (parentHolding nonempty there smallest).1
  obtain ⟨located, other, held, least⟩ := smallest
  have inner := exactOfBare nonempty (List.mem_of_getElem? there)
  have outer := exactOfBare nonempty (List.mem_of_getElem? located)
  have apart : m.header ∉ b.blocks := fun back =>
    other (bareIndex nonempty located there (outer.sameHeader inner back held))
  refine ⟨before, ⟨outer.holds inner held, m.header, outer.natural.header, apart⟩, fun x inside within => ?_⟩
  obtain ⟨k, found⟩ := List.getElem?_of_mem inside
  have ok := exactOfBare nonempty inside
  obtain ⟨part, c, more, absent⟩ := within
  have header := part _ inner.natural.header
  have apart : k ≠ i := by
    rintro rfl
    cases found.symm.trans there
    exact absent more
  rcases outer.nested ok held header with within | around
  · exact within
  · -- no smaller loop is around the header
    have all := (ok.once.subperm around).perm_of_length_le (least k x found header apart)
    exact fun c inside => all.mem_iff.mpr inside

omit nonempty in
theorem insideSame {l m b x : Loop} (left : shape b = shape l) (right : shape x = shape m) :
    b.Inside x ↔ l.Inside m := by
  have blocks : b.blocks = l.blocks := congrArg (·.2.1) left
  have others : x.blocks = m.blocks := congrArg (·.2.1) right
  rw [Loop.Inside, Loop.Inside, blocks, others]

theorem parentPlaced {j : Nat} (located : (forestOf f).loops[i]? = some l) (parent : l.parent = some j) : j < i ∧
    ∃ m, (forestOf f).loops[j]? = some m ∧ l.Inside m ∧
      ∀ x ∈ (forestOf f).loops, l.Inside x → ∀ c ∈ m.blocks, c ∈ x.blocks := by
  obtain ⟨b, there, same⟩ := bareAt located
  obtain ⟨best, parents, smallest⟩ := placedParent located there
  obtain ⟨⟨m, k⟩, rfl, rfl⟩ := Option.map_eq_some_iff.mp (parents.symm.trans parent)
  obtain ⟨before, inside, least⟩ := parentAround nonempty there smallest
  obtain ⟨outer, found, same'⟩ := placedAt smallest.1
  have blocks : m.blocks = outer.blocks := congrArg (·.2.1) same'
  refine ⟨before, outer, found, (insideSame same same').mp inside, fun x listed within => ?_⟩
  obtain ⟨y, listed', shaped⟩ := inBare listed
  have others : y.blocks = x.blocks := congrArg (·.2.1) shaped
  rw [← blocks, ← others]
  exact least y listed' ((insideSame same shaped).mpr within)

theorem outermostIff (listed : l ∈ (forestOf f).loops) :
    l.parent = none ↔ ∀ m ∈ (forestOf f).loops, ¬ l.Inside m := by
  obtain ⟨i, located⟩ := List.getElem?_of_mem listed
  cases parent : l.parent with
  | some j =>
    obtain ⟨-, m, found, inside, -⟩ := parentPlaced nonempty located parent
    exact iff_of_false nofun fun missing => missing m (List.mem_of_getElem? found) inside
  | none =>
    refine iff_of_true rfl fun m listed' inside => ?_
    obtain ⟨b, there, same⟩ := bareAt located
    obtain ⟨best, parents, alone⟩ := placedParent located there
    cases Option.map_eq_none_iff.mp (parents.symm.trans parent)
    obtain ⟨x, listed, same'⟩ := inBare listed'
    obtain ⟨k, found⟩ := List.getElem?_of_mem listed
    obtain ⟨part, c, more, absent⟩ := (insideSame same same').mpr inside
    cases alone k x found (part _ (exactOfBare nonempty (List.mem_of_getElem? there)).natural.header)
    cases found.symm.trans there
    exact absent more

theorem depthCounts (listed : l ∈ (forestOf f).loops) :
    l.depth = ((forestOf f).loops.filter (·.contains l.header)).length := by
  have counts (loops : List Loop) : (loops.filter (·.contains l.header)).length =
      (loops.map shape).countP (·.2.1.contains l.header) := by
    rw [← List.countP_eq_length_filter, List.countP_map]
    rfl
  rw [depthHolding nonempty listed, holding, counts, counts, shapes f]

theorem innermostSmallest (b : Nat) :
    ((forestOf f).innermostLoop b = none ↔ ∀ l ∈ (forestOf f).loops, b ∉ l.blocks) ∧
    ∀ k, (forestOf f).innermostLoop b = some k → ∃ m, (forestOf f).loops[k]? = some m ∧ b ∈ m.blocks ∧
      ∀ x ∈ (forestOf f).loops, b ∈ x.blocks → ∀ c ∈ m.blocks, c ∈ x.blocks := by
  have innermost : (forestOf f).innermostLoop b =
      if b < f.blocks.length then deepestAround (forestOf f).loops b else none := by
    rw [innermostLoop, show (forestOf f).innermost = (List.range f.blocks.length).map
      (deepestAround (forestOf f).loops) from rfl, List.getD_eq_getElem?_getD, List.getElem?_map]
    split
    · rename_i below
      rw [List.getElem?_range below]
      rfl
    · rw [List.getElem?_eq_none (by simpa using Nat.not_lt.mp ‹_›)]
      rfl
  obtain ⟨best, same, deepest⟩ := deepestAroundDeepest (forestOf f).loops b
  rw [innermost, same]
  split
  · cases best with
    | none =>
      refine ⟨iff_of_true rfl fun l listed => ?_, nofun⟩
      obtain ⟨k, located⟩ := List.getElem?_of_mem listed
      exact deepest k l located
    | some best =>
      obtain ⟨m, j⟩ := best
      obtain ⟨located, inside, deep⟩ := deepest
      have listed := List.mem_of_getElem? located
      refine ⟨iff_of_false nofun fun absent => absent m listed inside, fun k same => ?_⟩
      cases same
      refine ⟨m, located, inside, fun x listed' held => ?_⟩
      obtain ⟨k, found⟩ := List.getElem?_of_mem listed'
      exact shallower nonempty listed listed' (deep k x found held) inside held
  · rename_i beyond
    refine ⟨iff_of_true rfl fun l listed inside => beyond ?_, nofun⟩
    exact DomTree.reachedInside (FlowGraph.proper f nonempty) ((natural nonempty listed).reached b inside)

omit nonempty in
theorem latchesOnce (listed : l ∈ (forestOf f).loops) : l.latches.Nodup := by
  obtain ⟨b, inside, same⟩ := inBare listed
  have latches : b.latches = l.latches := congrArg (·.2.2) same
  obtain ⟨header, -, found⟩ := List.mem_filterMap.mp inside
  unfold loopAt? at found
  dsimp only at found
  split at found
  · cases found
  · cases found
    exact latches ▸ (predecessorsOnce f header).filter _

theorem nested : (forestOf f).Nested where
  nested l left m right := by
    refine Classical.or_iff_not_imp_left.mpr fun meet => ?_
    simp only [not_forall, not_not] at meet
    obtain ⟨b, inside, also⟩ := meet
    exact (exact nonempty left).nested (exact nonempty right) inside also
  outermost l listed := outermostIff nonempty listed
  parent i l located j parent := parentPlaced nonempty located parent
  depth l listed := depthCounts nonempty listed
  outside b := (innermostSmallest nonempty b).1
  innermost b := (innermostSmallest nonempty b).2

end

theorem emptyGraph (empty : f.blocks = []) : FlowGraph.ofFunc f = ⟨[], []⟩ := by simp [FlowGraph.ofFunc, empty]

theorem emptyForest (empty : f.blocks = []) :
    ofFunc f (FlowGraph.ofFunc f) (DomTree.ofFunc f (FlowGraph.ofFunc f)) = ⟨[], []⟩ := by
  rw [ofFunc, DomTree.ofFunc, emptyGraph empty, empty]
  rfl

theorem emptyNested : (⟨[], []⟩ : LoopForest).Nested where
  nested _ left := nomatch left
  outermost _ listed := nomatch listed
  parent _ _ located := nomatch located
  depth _ listed := nomatch listed
  outside _ := iff_of_true rfl nofun
  innermost _ _ same := nomatch same

end LoopForest

/-- The loops of a function are those of its paths, one for each block that an edge leads back to, and the forest
is that of the loops around each other. -/
theorem loopForestByPaths (f : Func) :
    let g := FlowGraph.ofFunc f
    let forest := LoopForest.ofFunc f g (DomTree.ofFunc f g)
    (forest.loops.map Loop.header).Nodup ∧
    (∀ header, (∃ l ∈ forest.loops, l.header = header) ↔ ∃ p, g.LeadsBack p header) ∧
    (∀ l ∈ forest.loops, l.ByPaths g) ∧ forest.Nested := by
  dsimp only
  rcases Nat.eq_zero_or_pos f.blocks.length with length | nonempty
  · have absent := List.eq_nil_of_length_eq_zero length
    rw [LoopForest.emptyForest absent, LoopForest.emptyGraph absent]
    refine ⟨List.nodup_nil, fun header => iff_of_false ?_ ?_, fun l listed => (nomatch listed),
      LoopForest.emptyNested⟩
    · rintro ⟨l, listed, -⟩
      cases listed
    · rintro ⟨p, edge, -, -⟩
      cases edge
  · refine ⟨LoopForest.loopsApart nonempty, fun header => ⟨?_, ?_⟩, fun l listed => ?_, LoopForest.nested nonempty⟩
    · rintro ⟨l, listed, rfl⟩
      have ok := LoopForest.exact nonempty listed
      obtain ⟨p, latch⟩ := List.exists_mem_of_ne_nil _ ok.looped
      exact ⟨p, LoopForest.leadsBackIff.mpr ((ok.latch p).mp latch)⟩
    · rintro ⟨p, back⟩
      obtain ⟨edge, reached, passes⟩ := LoopForest.leadsBackIff.mp back
      exact LoopForest.loopOfHeader nonempty edge reached passes
    · exact LoopForest.exactByPaths nonempty (LoopForest.exact nonempty listed) (LoopForest.latchesOnce listed)

end SsaCodegen
