import SsaCodegen.Proofs.Flow.LiveRounds
import SsaCodegen.RegAlloc.LinearScan
/-! Live sets and intervals in storage that was used before. The sets are determined by what is
live, and the intervals by what was touched, whatever the storage held. -/
namespace SsaCodegen

namespace Liveness
variable {f : Func} {g : FlowGraph}

theorem sweepStuck {count b s : Nat} {l : Liveness} (below : b < count) (edge : s ∈ g.successors b)
    (outside : l.numBlocks ≤ s) : sweep g count l = none := by
  have stuck (m : Liveness) (same : m.numBlocks = l.numBlocks) : m.visit g b = none := by
    have gathers (ss : List Nat) (out : Words) (listed : s ∈ ss) : m.gather ss out = none := by
      induction ss generalizing out with
      | nil => cases listed
      | cons t rest ih =>
        rw [gather]
        split
        · rename_i inside
          refine ih _ ((List.mem_cons.mp listed).resolve_left fun here => ?_)
          subst here
          exact absurd inside (Nat.not_lt_of_le (same ▸ outside))
        · rfl
    rw [visit, gathers _ _ edge, Option.map_none]
  have go (count : Nat) (below : b < count) (m : Liveness) (same : m.numBlocks = l.numBlocks) :
      sweep g count m = none := by
    induction count generalizing m with
    | zero => cases below
    | succ c ih =>
      rw [sweep]
      by_cases here : b = c
      · subst here
        rw [stuck m same, Option.bind_none]
      · refine Option.bind_eq_none_iff.mpr fun visit visited => ?_
        obtain ⟨n, changed⟩ := visit
        obtain ⟨out, -, made⟩ := Option.map_eq_some_iff.mp visited
        dsimp only
        rw [ih (by omega) n (by rw [← (Prod.mk.inj made).1]; exact same), Option.map_none]
  exact go count below l rfl

theorem computeStuck (old : Liveness) (outside : ¬ g.Within f) : old.compute f g = {} := by
  simp only [FlowGraph.Within, not_forall, Nat.not_lt] at outside
  obtain ⟨b, below, s, edge, beyond⟩ := outside
  have count : (old.prepare f).numBlocks = f.blocks.length := (prepared old f g).numBlocks
  rw [compute, compute?, solve, sweepStuck (count ▸ below) edge (count ▸ beyond)]
  rfl

theorem computeAlike (old new : Liveness) (f : Func) (g : FlowGraph) (b : Nat) :
    (old.compute f g).liveIn b = (new.compute f g).liveIn b ∧
      (old.compute f g).liveOut b = (new.compute f g).liveOut b := by
  by_cases within : g.Within f
  · have left := solution old within
    have right := solution new within
    have into (b v : Nat) : (old.compute f g).isLiveIn b v = true ↔ (new.compute f g).isLiveIn b v = true :=
      (left.into b v).trans (right.into b v).symm
    have out (v : Nat) : (old.compute f g).isLiveOut b v = true ↔ (new.compute f g).isLiveOut b v = true := by
      rw [left.out, right.out]
      simp only [into]
    have same {xs ys : List Nat} (ascending : xs.Pairwise (· < ·)) (ascending' : ys.Pairwise (· < ·))
        (mem : ∀ v, v ∈ xs ↔ v ∈ ys) : xs = ys :=
      ((List.perm_ext_iff_of_nodup (ascending.imp Nat.ne_of_lt) (ascending'.imp Nat.ne_of_lt)).mpr mem).eq_of_pairwise
        (fun _ _ _ _ lt gt => absurd lt (Nat.lt_asymm gt)) ascending ascending'
    exact ⟨same (ascendingIn _ b) (ascendingIn _ b) fun v => by rw [listedIn, listedIn, into],
      same (ascendingOut _ b) (ascendingOut _ b) fun v => by rw [listedOut, listedOut, out]⟩
  · rw [computeStuck old within, computeStuck new within]
    exact ⟨rfl, rfl⟩

end Liveness

namespace Intervals

theorem ofFuncLive (f : Func) {l m : Liveness}
    (same : ∀ b, l.liveIn b = m.liveIn b ∧ l.liveOut b = m.liveOut b) : ofFunc f l = ofFunc f m := by
  have touched : touches f l = touches f m := by
    unfold touches blockTouches
    simp only [(same _).1, (same _).2]
  rw [ofFunc, ofFunc, touched]

end Intervals

namespace IntervalStore
open Intervals
variable {size : Nat}

def first : List Nat → Option Nat
  | [] => none
  | p :: rest => some (rest.foldl min p)

def last (ps : List Nat) : Nat := ps.foldl max 0

theorem firstPush (ps : List Nat) (pos : Nat) :
    first (ps ++ [pos]) = some (((first ps).map (min pos)).getD pos) := by
  cases ps with
  | nil => rfl
  | cons p rest => simp [first, Nat.min_comm]

theorem lastPush (ps : List Nat) (pos : Nat) : last (ps ++ [pos]) = max pos (last ps) := by
  simp [last, Nat.max_comm]

def holding (size : Nat) (ts : List Touch) (ds : List Nat) (cs : List CallSite) : IntervalStore where
  calls := cs
  starts := (List.range size).map fun v => first (positions ts v)
  stops := (List.range size).map fun v => last (positions ts v)
  seen := (List.range size).map fun v => !(positions ts v).isEmpty
  defined := (List.range size).map ds.contains

theorem positionsPush (ts : List Touch) (v pos w : Nat) :
    positions (ts ++ [⟨v, pos⟩]) w = if v = w then positions ts w ++ [pos] else positions ts w := by
  rw [positions, List.filterMap_append]
  by_cases same : v = w <;> simp [positions, same]

section Rows
variable {α : Type} {h k : Nat → α} {v : Nat}

theorem rangeModify {change : α → α} (here : v < size → k v = change (h v)) (other : ∀ w, w ≠ v → k w = h w) :
    ((List.range size).map h).modify v change = (List.range size).map k := by
  refine List.ext_getElem? fun w => ?_
  rw [List.getElem?_modify, List.getElem?_map, List.getElem?_map]
  by_cases inside : w < size
  · rw [List.getElem?_range inside, Option.map_some, Option.map_some]
    by_cases same : v = w
    · subst same
      simp [here inside]
    · simp [same, other w (Ne.symm same)]
  · rw [List.getElem?_eq_none (by rwa [List.length_range, ← Nat.not_lt])]
    split <;> rfl

theorem rangeSet {x : α} (here : k v = x) (other : ∀ w, w ≠ v → k w = h w) :
    ((List.range size).map h).set v x = (List.range size).map k := by
  rw [List.set_eq_modify]
  exact rangeModify (fun _ => here) other

theorem rangeOutside (outside : ¬ v < size) (other : ∀ w, w ≠ v → k w = h w) :
    (List.range size).map h = (List.range size).map k :=
  List.map_congr_left fun w listed => (other w fun same => outside (same ▸ List.mem_range.mp listed)).symm

end Rows

variable {ts : List Touch} {ds : List Nat} {cs : List CallSite}

theorem touched (pos v : Nat) : (holding size ts ds cs).touch pos v = holding size (ts ++ [⟨v, pos⟩]) ds cs := by
  have other (w : Nat) (apart : w ≠ v) : positions (ts ++ [⟨v, pos⟩]) w = positions ts w := by
    rw [positionsPush, if_neg (Ne.symm apart)]
  have here : positions (ts ++ [⟨v, pos⟩]) v = positions ts v ++ [pos] := by rw [positionsPush, if_pos rfl]
  have rows {α : Type} (part : List Nat → α) (outside : ¬ v < size) :
      ((List.range size).map fun w => part (positions (ts ++ [⟨v, pos⟩]) w)) =
        (List.range size).map fun w => part (positions ts w) :=
    (rangeOutside outside fun w apart => by rw [other w apart]).symm
  have length : (holding size ts ds cs).starts.length = size := by rw [holding, List.length_map, List.length_range]
  rw [touch, length]
  split
  · have starts : ((List.range size).map fun w => first (positions ts w)).modify v
        (fun start => some ((start.map (min pos)).getD pos)) =
        (List.range size).map fun w => first (positions (ts ++ [⟨v, pos⟩]) w) :=
      rangeModify (fun _ => by rw [here, firstPush]) fun w apart => by rw [other w apart]
    have stops : ((List.range size).map fun w => last (positions ts w)).modify v (max pos) =
        (List.range size).map fun w => last (positions (ts ++ [⟨v, pos⟩]) w) :=
      rangeModify (fun _ => by rw [here, lastPush]) fun w apart => by rw [other w apart]
    have seen : ((List.range size).map fun w => !(positions ts w).isEmpty).set v true =
        (List.range size).map fun w => !(positions (ts ++ [⟨v, pos⟩]) w).isEmpty :=
      rangeSet (by simp [here]) fun w apart => by rw [other w apart]
    simp only [holding, starts, stops, seen]
  · rename_i outside
    simp only [holding, rows first outside, rows last outside, rows (fun ps => !ps.isEmpty) outside]

theorem touchedAll (pos : Nat) (vs : List Nat) {ts : List Touch} :
    vs.foldl (touch pos) (holding size ts ds cs) = holding size (ts ++ vs.map (⟨·, pos⟩)) ds cs := by
  induction vs generalizing ts with
  | nil => rw [List.map_nil, List.append_nil]; rfl
  | cons v rest ih => rw [List.foldl_cons, touched, ih, List.append_assoc]; rfl

theorem definedOne (pos v : Nat) :
    (holding size ts ds cs).define pos v = holding size (ts ++ [⟨v, pos⟩]) (ds ++ [v]) cs := by
  have length : (holding size ts ds cs).starts.length = size := by rw [holding, List.length_map, List.length_range]
  have other (w : Nat) (apart : w ≠ v) : (ds ++ [v]).contains w = ds.contains w := by simp [apart]
  have marked : (if v < size then { holding size ts ds cs with defined := (holding size ts ds cs).defined.set v true }
      else holding size ts ds cs) = holding size ts (ds ++ [v]) cs := by
    split
    · have set : ((List.range size).map ds.contains).set v true = (List.range size).map (ds ++ [v]).contains :=
        rangeSet (by simp) other
      simp only [holding, set]
    · rename_i outside
      have same : (List.range size).map ds.contains = (List.range size).map (ds ++ [v]).contains :=
        rangeOutside outside other
      simp only [holding, same]
  rw [define, length, marked, touched]

theorem definedAll (pos : Nat) (vs : List Nat) {ts : List Touch} {ds : List Nat} :
    vs.foldl (define pos) (holding size ts ds cs) = holding size (ts ++ vs.map (⟨·, pos⟩)) (ds ++ vs) cs := by
  induction vs generalizing ts ds with
  | nil => rw [List.map_nil, List.append_nil, List.append_nil]; rfl
  | cons v rest ih => rw [List.foldl_cons, definedOne, ih, List.append_assoc, List.append_assoc]; rfl

def callOf (b start : Nat) (place : Inst × Nat) : Option CallSite :=
  if place.1.op == .call then some ⟨instPos start place.2, b, place.2⟩ else none

theorem instNoted (b start : Nat) (place : Inst × Nat) :
    noteInst b start (holding size ts ds cs) place =
      holding size (ts ++ instTouches (instPos start place.2) place.1) (ds ++ place.1.result.toList)
        (cs ++ (callOf b start place).toList) := by
  unfold noteInst callOf instTouches
  dsimp only
  rw [touchedAll, definedAll, List.map_append, List.append_assoc]
  split
  · rfl
  · rw [Option.toList_none, List.append_nil]

theorem instsNoted (b start : Nat) (places : List (Inst × Nat)) {ts : List Touch} {ds : List Nat} {cs : List CallSite} :
    places.foldl (noteInst b start) (holding size ts ds cs) =
      holding size (ts ++ places.flatMap fun (inst, k) => instTouches (instPos start k) inst)
        (ds ++ places.flatMap fun place => place.1.result.toList) (cs ++ places.filterMap (callOf b start)) := by
  induction places generalizing ts ds cs with
  | nil => simp
  | cons place rest ih =>
    rw [List.foldl_cons, instNoted, ih]
    congr 1
    · simp
    · simp
    · rw [List.filterMap_cons]
      split <;> simp_all

theorem blockNoted (live : Liveness) (place : Block × Nat × Nat) :
    noteBlock live (holding size ts ds cs) place =
      holding size (ts ++ blockTouches live place.2.1 place.2.2 place.1)
        (ds ++ (place.1.paramIds ++ place.1.insts.filterMap Inst.result))
        (cs ++ place.1.insts.zipIdx.filterMap (callOf place.2.1 place.2.2)) := by
  have results : (place.1.insts.zipIdx.flatMap fun p => p.1.result.toList) = place.1.insts.filterMap Inst.result := by
    rw [List.filterMap_eq_flatMap_toList]
    conv_rhs => rw [← List.zipIdx_map_fst 0 place.1.insts, List.flatMap_map]
  unfold noteBlock blockTouches
  dsimp only
  rw [definedAll, touchedAll, instsNoted, touchedAll, results]
  simp only [List.map_append, List.append_assoc]

theorem blocksNoted (live : Liveness) (places : List (Block × Nat × Nat)) {ts : List Touch} {ds : List Nat}
    {cs : List CallSite} : places.foldl (noteBlock live) (holding size ts ds cs) =
      holding size (ts ++ places.flatMap fun (bb, b, start) => blockTouches live b start bb)
        (ds ++ places.flatMap fun place => place.1.paramIds ++ place.1.insts.filterMap Inst.result)
        (cs ++ places.flatMap fun (bb, b, start) => bb.insts.zipIdx.filterMap (callOf b start)) := by
  induction places generalizing ts ds cs with
  | nil => simp
  | cons place rest ih =>
    rw [List.foldl_cons, blockNoted, ih]
    simp only [List.flatMap_cons, List.append_assoc]

theorem collected (f : Func) (vs : List Nat) (below : ∀ v ∈ vs, v < size) (known : ∀ v ∈ ds, positions ts v ≠ [])
    (made : List Interval) :
    let r := collect f vs { holding size ts ds cs with intervals := made }
    r.2 = vs.find? (fun v => !(positions ts v).isEmpty && !ds.contains v) ∧
      (r.2 = none → r.1.calls = cs ∧ r.1.intervals =
        (made ++ vs.filterMap fun v => intervalOf f cs v (positions ts v)).mergeSort before) := by
  induction vs generalizing made with
  | nil => exact ⟨rfl, fun _ => ⟨rfl, by rw [List.filterMap_nil, List.append_nil]; rfl⟩⟩
  | cons v rest ih =>
    obtain ⟨here, below⟩ := List.forall_mem_cons.mp below
    have row {α : Type} (h : Nat → α) (d : α) : ((List.range size).map h).getD v d = h v := by
      rw [List.getD_eq_getElem?_getD, List.getElem?_map, List.getElem?_range here]
      rfl
    have onward := ih below
    simp only [holding] at onward ⊢
    rw [collect, List.find?_cons, List.filterMap_cons]
    simp only [row]
    cases listed : ds.contains v with
    | false =>
      cases shape : positions ts v with
      | nil => exact onward made
      | cons p later => exact ⟨rfl, fun absent => nomatch absent⟩
    | true =>
      cases shape : positions ts v with
      | nil => exact absurd shape (known v (List.contains_iff_mem.mp listed))
      | cons p later =>
        have hulls : hull f cs v ((first (p :: later)).getD 4294967295) (last (p :: later)) =
            hull f cs v (later.foldl min p) (later.foldl max p) := by
          rw [first, Option.getD_some, last, List.foldl_cons, Nat.zero_max]
        obtain ⟨stops, finds⟩ := onward (made ++ [hull f cs v (later.foldl min p) (later.foldl max p)])
        rw [List.append_assoc] at finds
        simp only [hulls, Bool.not_true, Bool.false_eq_true, if_false, Bool.and_false]
        exact ⟨stops, finds⟩

theorem placedBlocks (blocks : List Block) (b pos : Nat) : (placedFrom b pos blocks).map Prod.fst = blocks := by
  induction blocks generalizing b pos with
  | nil => rfl
  | cons bb rest ih => rw [placedFrom, List.map_cons, ih]

theorem definedTouched (f : Func) (live : Liveness) {v : Nat} (defined : v ∈ definedValues f) :
    positions (touches f live) v ≠ [] := by
  obtain ⟨bb, inside, defines⟩ := List.mem_flatMap.mp defined
  rw [← placedBlocks f.blocks 0 0] at inside
  obtain ⟨place, listed, rfl⟩ := List.mem_map.mp inside
  have touch : ∃ pos, (⟨v, pos⟩ : Touch) ∈ blockTouches live place.2.1 place.2.2 place.1 := by
    unfold blockTouches
    rcases List.mem_append.mp defines with parameter | result
    · exact ⟨_, List.mem_append_left _ (List.mem_append_left _
        (List.mem_map.mpr ⟨v, List.mem_append_left _ parameter, rfl⟩))⟩
    · obtain ⟨inst, there, made⟩ := List.mem_filterMap.mp result
      obtain ⟨k, found⟩ := List.getElem?_of_mem there
      refine ⟨_, List.mem_append_left _ (List.mem_append_right _ (List.mem_flatMap.mpr
        ⟨(inst, k), List.mem_zipIdx_iff_getElem?.mpr found, List.mem_map.mpr ⟨v, ?_, rfl⟩⟩))⟩
      exact List.mem_append_right _ (Option.mem_toList.mpr made)
  obtain ⟨pos, touch⟩ := touch
  have touched : pos ∈ positions (touches f live) v :=
    List.mem_filterMap.mpr ⟨⟨v, pos⟩, List.mem_flatMap.mpr ⟨place, listed, touch⟩, by simp⟩
  exact List.ne_nil_of_mem touched

theorem intervalsRebuilt (old : IntervalStore) (f : Func) (live : Liveness) :
    result (old.rebuild f live) = Intervals.ofFunc f live := by
  have start : old.blank f.numValues = holding f.numValues [] [] [] := by
    have rows {α : Type} (x : α) : List.replicate f.numValues x = (List.range f.numValues).map fun _ => x := by
      rw [List.map_const', List.length_range]
    simp only [blank, clear, holding, rows]
    rfl
  have walked : (placed f).foldl (noteBlock live) (old.blank f.numValues) =
      holding f.numValues (touches f live) (definedValues f) (callSites f) := by
    have defs : (placed f).flatMap (fun place => place.1.paramIds ++ place.1.insts.filterMap Inst.result) =
      definedValues f := by
      rw [definedValues]
      conv_rhs => rw [← placedBlocks f.blocks 0 0, List.flatMap_map]
      rfl
    rw [start, blocksNoted, defs]
    rfl
  obtain ⟨stops, finds⟩ : let r := old.rebuild f live
      r.2 = (List.range f.numValues).find? (fun v => !(positions (touches f live) v).isEmpty &&
        !(definedValues f).contains v) ∧
        (r.2 = none → r.1.calls = callSites f ∧ r.1.intervals = ([] ++ (List.range f.numValues).filterMap fun v =>
          intervalOf f (callSites f) v (positions (touches f live) v)).mergeSort before) := by
    rw [rebuild, walked]
    exact collected f (List.range f.numValues) (fun v => List.mem_range.mp) (fun v => definedTouched f live) []
  unfold Intervals.ofFunc
  dsimp only
  rw [List.find?_map, List.filterMap_map]
  generalize old.rebuild f live = r at stops finds
  obtain ⟨kept, missing⟩ := r
  dsimp only at stops finds
  have found : (List.range f.numValues).find?
      ((fun p : Nat × List Nat => !p.2.isEmpty && !(definedValues f).contains p.1) ∘
        fun v => (v, positions (touches f live) v)) = missing := stops.symm
  rw [found]
  cases missing with
  | some v => rfl
  | none =>
    obtain ⟨calls, intervals⟩ := finds rfl
    rw [result, calls, intervals]
    rfl

end IntervalStore

namespace RegAlloc

theorem allocatorRuns (a : Allocator) (regs : RegisterFile) (g : FlowGraph) (t : DomTree) (f : Func) :
    (a.run regs g t f).1 = (run regs g t f).1 ∧ (a.run regs g t f).2.2 = (run regs g t f).2 := by
  have made : IntervalStore.result (a.intervals.rebuild f (a.liveness.compute f g)) =
      Intervals.ofFunc f (Liveness.ofFunc f g) :=
    (IntervalStore.intervalsRebuilt ..).trans (Intervals.ofFuncLive f (Liveness.computeAlike a.liveness {} f g))
  unfold Allocator.run run
  dsimp only
  rw [made]
  split
  · exact ⟨rfl, rfl⟩
  · split <;> exact ⟨rfl, rfl⟩

end RegAlloc
end SsaCodegen
