import Mathlib.Data.List.Induction
import SsaCodegen.Flow.Loops
import SsaCodegen.Proofs.Flow.Dominance
/-! Natural loops. What reaches a latch without passing the header cannot be reached from the
entry without passing it either, so paths enter a loop at its header only. -/
namespace SsaCodegen
open Search

structure Loop.Natural (f : Func) (l : Loop) : Prop where
  header : l.header ∈ l.blocks
  inside : l.header < f.blocks.length
  entry : l.header ≠ 0 → 0 ∉ l.blocks
  reached : ∀ b ∈ l.blocks, Reached (FlowGraph.ofFunc f).successors [0] [] b
  closed : ∀ m b, Reached (FlowGraph.ofFunc f).successors [0] [] m →
    b ∈ (FlowGraph.ofFunc f).successors m → b ∈ l.blocks → b ≠ l.header → m ∈ l.blocks

theorem Loop.Natural.someBlock {f : Func} {l : Loop} (ok : l.Natural f) : 0 < f.blocks.length :=
  Nat.lt_of_le_of_lt (Nat.zero_le _) ok.inside

def FlowGraph.back (f : Func) (b : Nat) : List Nat :=
  ((ofFunc f).predecessors b).filter (DomTree.ofFunc f (ofFunc f)).isReachable

structure Loop.Exact (f : Func) (l : Loop) : Prop where
  natural : l.Natural f
  once : l.blocks.Nodup
  looped : l.latches ≠ []
  latch : ∀ p, p ∈ l.latches ↔ l.header ∈ (FlowGraph.ofFunc f).successors p ∧
    Reached (FlowGraph.ofFunc f).successors [0] [] p ∧ Passes (FlowGraph.ofFunc f).successors 0 l.header p
  member : ∀ b, b ∈ l.blocks ↔ b = l.header ∨ Reached (FlowGraph.back f) l.latches [l.header] b
  passes : ∀ b ∈ l.blocks, Passes (FlowGraph.ofFunc f).successors 0 l.header b

structure Loop.EnteredFrom (g : FlowGraph) (l : Loop) (p : Nat) : Prop where
  entry : 0 ∉ l.blocks
  outside : p ∉ l.blocks
  reached : ∀ b ∈ l.blocks, Reached g.successors [0] [] b
  enters : ∀ m b, Reached g.successors [0] [] m → b ∈ g.successors m → b ∈ l.blocks →
    m ∈ l.blocks ∨ m = p

namespace Loop.EnteredFrom
variable {g : FlowGraph} {l : Loop} {p : Nat} (ok : l.EnteredFrom g p)
include ok

theorem passes {b : Nat} (inside : b ∈ l.blocks) : Passes g.successors 0 p b := by
  intro around
  induction around with
  | root start free =>
    cases List.mem_singleton.mp start
    exact ok.entry inside
  | step before edge free ih =>
    rcases ok.enters _ _ before.anywhere edge inside with within | same
    · exact ih within
    · exact before.free (by simp [same])

theorem around {k b : Nat} (outside : k ∉ l.blocks) (inside : b ∈ l.blocks)
    (way : Reached g.successors [0] [k] p) : Reached g.successors [0] [k] b := by
  have free {b : Nat} (inside : b ∈ l.blocks) : b ∉ [k] := fun same =>
    outside (List.mem_singleton.mp same ▸ inside)
  have reached := ok.reached b inside
  induction reached with
  | root start absent =>
    cases List.mem_singleton.mp start
    exact absurd inside ok.entry
  | step before edge absent ih =>
    rcases ok.enters _ _ before edge inside with within | same
    · exact .step (ih within) edge (free inside)
    · exact .step (same ▸ way) edge (free inside)

end Loop.EnteredFrom

namespace LoopForest

def parentDepth (done : List Loop) (l : Loop) : Nat :=
  match l.parent with
  | none => 0
  | some p => (done[p]?.map Loop.depth).getD 1

theorem depthsConcat (loops : List Loop) (l : Loop) : withDepths (loops ++ [l]) =
    withDepths loops ++ [{ l with depth := parentDepth (withDepths loops) l + 1 }] := by
  rw [withDepths, List.foldl_append]
  rfl

theorem depthsKeep {α : Type} (part : Loop → α) (free : ∀ l d, part { l with depth := d } = part l)
    (loops : List Loop) : (withDepths loops).map part = loops.map part := by
  induction loops using List.reverseRecOn with
  | nil => rfl
  | append_singleton loops l ih =>
    rw [depthsConcat, List.map_append, List.map_append, ih, List.map_singleton, List.map_singleton, free]

theorem parentsKeep {α : Type} (part : Loop → α) (free : ∀ l p, part { l with parent := p } = part l)
    (loops : List Loop) : (withParents loops).map part = loops.map part := by
  refine List.ext_getElem? fun k => ?_
  rw [withParents, List.getElem?_map, List.getElem?_mapIdx, List.getElem?_map, Option.map_map]
  exact congrArg (Option.map · _) (funext fun l => free l _)

theorem memPredecessors {f : Func} {b p : Nat} (inside : p ∈ (FlowGraph.ofFunc f).predecessors b) :
    p < f.blocks.length ∧ b < f.blocks.length ∧ b ∈ (FlowGraph.ofFunc f).successors p := by
  have below : b < f.blocks.length := by
    by_cases below : b < f.blocks.length
    · exact below
    · simp [FlowGraph.predecessors, FlowGraph.ofFunc, below] at inside
  have edge := (FlowGraph.predecessorIff below).mp inside
  obtain ⟨bb, there, -⟩ := FlowGraph.memSuccessors.mp edge
  exact ⟨(List.getElem?_eq_some_iff.mp there).1, below, edge⟩

theorem predecessorsAscend (f : Func) (b : Nat) :
    ((FlowGraph.ofFunc f).predecessors b).Pairwise (· < ·) := by
  have rows (rows : List (List Nat)) : (FlowGraph.rowsWith rows b).Pairwise (· < ·) := by
    refine List.pairwise_filterMap.mpr (List.pairwise_iff_getElem.mpr fun i j below above before m left n right => ?_)
    simp only [List.getElem_zipIdx, Option.ite_none_right_eq_some, Option.some.injEq] at left right
    omega
  by_cases below : b < f.blocks.length
  · simp only [FlowGraph.predecessors, FlowGraph.ofFunc, List.getD_eq_getElem?_getD, List.getElem?_map,
      List.getElem?_range below, Option.map_some, Option.getD_some]
    exact rows _
  · simp [FlowGraph.predecessors, FlowGraph.ofFunc, below]

theorem predecessorsOnce (f : Func) (b : Nat) : ((FlowGraph.ofFunc f).predecessors b).Nodup :=
  (predecessorsAscend f b).imp Nat.ne_of_lt

section
variable {f : Func} (nonempty : 0 < f.blocks.length)
include nonempty

theorem memBack {p b : Nat} : p ∈ FlowGraph.back f b ↔
    p ∈ (FlowGraph.ofFunc f).predecessors b ∧ Reached (FlowGraph.ofFunc f).successors [0] [] p := by
  rw [FlowGraph.back, List.mem_filter, DomTree.ofFunc, DomTree.isReachableIff (FlowGraph.proper f nonempty)]

variable {header : Nat} {latches : List Nat}
  (latch : ∀ b ∈ latches, Reached (FlowGraph.ofFunc f).successors [0] [] b ∧
    Passes (FlowGraph.ofFunc f).successors 0 header b)
include latch

theorem bodyReached {b : Nat} (found : Reached (FlowGraph.back f) latches [header] b) :
    Reached (FlowGraph.ofFunc f).successors [0] [] b := by
  cases found with
  | root start free => exact (latch b start).1
  | step before edge free => exact ((memBack nonempty).mp edge).2

theorem bodyPasses {b : Nat} (found : Reached (FlowGraph.back f) latches [header] b) :
    Passes (FlowGraph.ofFunc f).successors 0 header b := by
  induction found with
  | root start free => exact (latch _ start).2
  | step before edge free ih =>
    exact fun around => ih (.step around (memPredecessors ((memBack nonempty).mp edge).1).2.2 before.free)

end

section Found
variable {f : Func} {header : Nat} {l : Loop} (nonempty : 0 < f.blocks.length)
  (reached : Reached (FlowGraph.ofFunc f).successors [0] [] header)
  (found : loopAt? f.blocks.length (FlowGraph.ofFunc f) (DomTree.ofFunc f (FlowGraph.ofFunc f)) header = some l)
include nonempty reached found

theorem loopAtLatches : l.header = header ∧ l.latches ≠ [] ∧
    ∀ p, p ∈ l.latches ↔ header ∈ (FlowGraph.ofFunc f).successors p ∧
      Reached (FlowGraph.ofFunc f).successors [0] [] p ∧ Passes (FlowGraph.ofFunc f).successors 0 header p := by
  have proper := FlowGraph.proper f nonempty
  unfold loopAt? at found
  dsimp only at found
  split at found
  · cases found
  rename_i some_latch
  cases found
  refine ⟨rfl, fun absent => some_latch (List.isEmpty_iff.mpr absent), fun p => ?_⟩
  rw [List.mem_filter, DomTree.ofFunc, DomTree.dominatesIff proper,
    FlowGraph.predecessorIff (DomTree.reachedInside proper reached)]

theorem loopAtBlocks : l.blocks.Nodup ∧
    ∀ b, b ∈ l.blocks ↔ b = l.header ∨ Reached (FlowGraph.back f) l.latches [l.header] b := by
  have proper := FlowGraph.proper f nonempty
  obtain ⟨same, -, latch⟩ := loopAtLatches nonempty reached found
  subst same
  have sound (p : Nat) (listed : p ∈ l.latches) := ((latch p).mp listed).2
  have below : ∀ n ∈ l.latches, n < f.blocks.length := fun n listed =>
    DomTree.reachedInside proper (sound n listed).1
  have edges : Bounded f.blocks.length (FlowGraph.back f) := fun b p listed =>
    (memPredecessors ((memBack nonempty).mp listed).1).1
  have blocks : l.blocks = l.header :: (List.range f.blocks.length).filter fun b =>
      b != l.header && (Search.reachFrom f.blocks.length (FlowGraph.back f) l.latches [l.header]).contains b := by
    unfold loopAt? at found
    dsimp only at found
    split at found
    · cases found
    · rw [← Option.some.inj found]
      rfl
  refine ⟨blocks ▸ List.nodup_cons.mpr ⟨by simp, List.nodup_range.filter _⟩, fun b => ?_⟩
  rw [blocks, List.mem_cons, List.mem_filter, List.mem_range, Bool.and_eq_true, bne_iff_ne, List.contains_iff_mem,
    memReachFrom edges below, List.mem_singleton]
  refine or_congr_right' fun other => ⟨fun found => found.2.2.resolve_left other, fun body => ?_⟩
  exact ⟨DomTree.reachedInside proper (bodyReached nonempty sound body), other, .inr body⟩

theorem loopAtExact : l.Exact f ∧ l.header = header := by
  have proper := FlowGraph.proper f nonempty
  obtain ⟨same, looped, latch⟩ := loopAtLatches nonempty reached found
  obtain ⟨once, member⟩ := loopAtBlocks nonempty reached found
  subst same
  have sound (p : Nat) (listed : p ∈ l.latches) := ((latch p).mp listed).2
  have inside (b : Nat) (listed : b ∈ l.blocks) : Reached (FlowGraph.ofFunc f).successors [0] [] b ∧
      Passes (FlowGraph.ofFunc f).successors 0 l.header b := by
    rcases (member b).mp listed with rfl | body
    · exact ⟨reached, Passes.refl _ _ _⟩
    · exact ⟨bodyReached nonempty sound body, bodyPasses nonempty sound body⟩
  refine ⟨⟨⟨(member _).mpr (.inl rfl), DomTree.reachedInside proper reached, fun other listed => ?_,
    fun b listed => (inside b listed).1, fun m b origin edge listed other => ?_⟩, once, looped, latch, member,
    fun b listed => (inside b listed).2⟩, rfl⟩
  · have body := ((member 0).mp listed).resolve_left (Ne.symm other)
    exact bodyPasses nonempty sound body (.root List.mem_cons_self body.free)
  · have body := ((member b).mp listed).resolve_left other
    have before : m ∈ FlowGraph.back f b := (memBack nonempty).mpr ⟨(FlowGraph.predecessorIff
      (DomTree.reachedInside proper (inside b listed).1)).mpr edge, origin⟩
    by_cases same : m = l.header
    · exact (member m).mpr (.inl same)
    · exact (member m).mpr (.inr (.step body before (by simpa using same)))

end Found

def shape (l : Loop) : Nat × List Nat × List Nat := (l.header, l.blocks, l.latches)

theorem exactOfShape {f : Func} {l m : Loop} (ok : l.Exact f) (same : shape m = shape l) : m.Exact f := by
  obtain ⟨header, blocks, latches⟩ := l
  obtain ⟨header', blocks', latches'⟩ := m
  cases same
  have natural := ok.natural
  exact ⟨⟨natural.header, natural.inside, natural.entry, natural.reached, natural.closed⟩, ok.once, ok.looped,
    ok.latch, ok.member, ok.passes⟩

def bare (f : Func) : List Loop :=
  (DomTree.ofFunc f (FlowGraph.ofFunc f)).order.filterMap
    (loopAt? f.blocks.length (FlowGraph.ofFunc f) (DomTree.ofFunc f (FlowGraph.ofFunc f)))

theorem shapes (f : Func) :
    (ofFunc f (FlowGraph.ofFunc f) (DomTree.ofFunc f (FlowGraph.ofFunc f))).loops.map shape = (bare f).map shape :=
  (depthsKeep shape (fun _ _ => rfl) _).trans (parentsKeep shape (fun _ _ => rfl) _)

theorem inBare {f : Func} {l : Loop}
    (inside : l ∈ (ofFunc f (FlowGraph.ofFunc f) (DomTree.ofFunc f (FlowGraph.ofFunc f))).loops) :
    ∃ m ∈ bare f, shape m = shape l :=
  List.mem_map.mp (shapes f ▸ List.mem_map_of_mem inside)

section
variable {f : Func} (nonempty : 0 < f.blocks.length) {l : Loop}
include nonempty

theorem exactOfBare (inside : l ∈ bare f) : l.Exact f := by
  obtain ⟨header, ordered, found⟩ := List.mem_filterMap.mp inside
  exact (loopAtExact nonempty ((DomTree.memOrder (FlowGraph.proper f nonempty)).mp ordered) found).1

variable (inside : l ∈ (ofFunc f (FlowGraph.ofFunc f) (DomTree.ofFunc f (FlowGraph.ofFunc f))).loops)
include inside

theorem exact : l.Exact f := by
  obtain ⟨m, there, same⟩ := inBare inside
  exact exactOfShape (exactOfBare nonempty there) same.symm

theorem natural : l.Natural f := (exact nonempty inside).natural

end

end LoopForest
end SsaCodegen
