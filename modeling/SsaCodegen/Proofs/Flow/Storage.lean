import SsaCodegen.Flow.Loops
import SsaCodegen.Proofs.Flow.LoopsByPaths
/-! Analyses in storage that was used before. What is computed in it is what is computed anew,
whatever it held: rows and marks are made fresh as far as the function goes, and those beyond
are not read. -/
namespace SsaCodegen

namespace EdgeRows
variable {f : Func} {rows : List (List Nat × List Nat)} {b c : Nat}

def pushAll (row targets : List Nat) : List Nat :=
  targets.foldl (fun row target => if row.contains target then row else row ++ [target]) row

theorem pushAllEq (row targets : List Nat) :
    pushAll row targets = row ++ (targets.filter (!row.contains ·)).eraseDups := by
  induction targets generalizing row with
  | nil => simp [pushAll]
  | cons t rest ih =>
    rw [pushAll, List.foldl_cons]
    by_cases inside : row.contains t = true
    · rw [if_pos inside, List.filter_cons_of_neg (by simpa using inside)]
      exact ih row
    · rw [if_neg inside, List.filter_cons_of_pos (by simpa using inside), List.eraseDups_cons,
        List.filter_filter]
      refine (ih _).trans ?_
      rw [List.append_assoc, List.singleton_append]
      congr 3
      refine List.filter_congr fun u _ => ?_
      simp only [List.contains_append, List.contains_cons, List.contains_nil, Bool.or_false, Bool.not_or]
      exact Bool.and_comm ..

def row (rows : List (List Nat × List Nat)) (c : Nat) : List Nat × List Nat := rows.getD c ([], [])

theorem rowModify {rows : List (List Nat × List Nat)} {h : List Nat × List Nat → List Nat × List Nat}
    (inside : b < rows.length) : row (rows.modify b h) c = if c = b then h (row rows b) else row rows c := by
  simp only [row, List.getD_eq_getElem?_getD, List.getElem?_modify]
  by_cases same : c = b
  · subst same
    simp [List.getElem?_eq_getElem inside]
  · simp [same, Ne.symm same]

theorem connectRow (inside : b < rows.length) {target : Nat} (below : target < rows.length) :
    (connect b rows target).length = rows.length ∧ ∀ c,
      (row (connect b rows target) c).1 = (if c = b then pushAll (row rows b).1 [target] else (row rows c).1) ∧
      (row (connect b rows target) c).2 = (row rows c).2 ++
        if c = target ∧ target ∉ (row rows b).1 then [b] else [] := by
  unfold connect
  split
  · rename_i old
    have old : target ∈ (row rows b).1 := List.contains_iff_mem.mp old
    refine ⟨rfl, fun c => ⟨?_, by simp [old]⟩⟩
    split
    · rename_i same
      simp [pushAll, same, old]
    · rfl
  · rename_i new
    have new : target ∉ (row rows b).1 := fun old => new (List.contains_iff_mem.mpr old)
    refine ⟨by simp only [List.length_modify], fun c => ?_⟩
    have first (c : Nat) : row (rows.modify b fun r => (r.1 ++ [target], r.2)) c =
        if c = b then ((row rows b).1 ++ [target], (row rows b).2) else row rows c := rowModify inside
    rw [rowModify (by rwa [List.length_modify]), first, first]
    constructor
    · by_cases there : c = target <;> by_cases here : c = b <;> by_cases both : target = b <;>
        simp_all [pushAll]
    · by_cases there : c = target <;> by_cases here : c = b <;> by_cases both : target = b <;>
        simp_all

theorem connectAll (targets : List Nat) (inside : b < rows.length) (below : ∀ t ∈ targets, t < rows.length) :
    (targets.foldl (connect b) rows).length = rows.length ∧ ∀ c,
      (row (targets.foldl (connect b) rows) c).1 =
        (if c = b then pushAll (row rows b).1 targets else (row rows c).1) ∧
      (row (targets.foldl (connect b) rows) c).2 = (row rows c).2 ++
        if c ∈ targets ∧ c ∉ (row rows b).1 then [b] else [] := by
  induction targets generalizing rows with
  | nil => exact ⟨rfl, fun c => ⟨by by_cases same : c = b <;> simp [pushAll, same], by simp⟩⟩
  | cons t rest ih =>
    obtain ⟨here, later⟩ := List.forall_mem_cons.mp below
    obtain ⟨length, first⟩ := connectRow inside here
    obtain ⟨length', all⟩ := ih (by rwa [length]) (by rwa [length])
    refine ⟨length'.trans length, fun c => ?_⟩
    obtain ⟨ownRow, otherRow⟩ := all c
    rw [List.foldl_cons, ownRow, otherRow, (first c).1, (first c).2, (first b).1, if_pos rfl]
    have listed : c ∈ pushAll (row rows b).1 [t] ↔ c ∈ (row rows b).1 ∨ c = t := by
      unfold pushAll
      rw [List.foldl_cons, List.foldl_nil]
      split
      · rename_i old
        exact (or_iff_left_of_imp fun same => same ▸ List.contains_iff_mem.mp old).symm
      · rw [List.mem_append, List.mem_singleton]
    refine ⟨?_, ?_⟩
    · split
      · rfl
      · rfl
    · rw [List.append_assoc]
      simp only [listed, List.mem_cons]
      by_cases same : c = t <;> by_cases old : c ∈ (row rows b).1 <;> simp [same, old]

theorem namedBelow {bb : Block} {t : Nat} (listed : t ∈ named f bb) : t < f.blocks.length := by
  unfold named at listed
  split at listed
  · obtain ⟨label, -, found⟩ := List.mem_filterMap.mp listed
    exact (List.findIdx?_eq_some_iff_getElem.mp found).1
  · cases listed

theorem namedTargets (f : Func) (bb : Block) : (named f bb).eraseDups = FlowGraph.targetsOf f bb := by
  unfold named FlowGraph.targetsOf
  split <;> rfl

theorem connected (f : Func) (blocks : List Block) (wide : f.blocks.length ≤ rows.length)
    (inside : b + blocks.length ≤ f.blocks.length)
    (blank : ∀ c, b ≤ c → c < f.blocks.length → (row rows c).1 = []) :
    (connectBlocks f b blocks rows).length = rows.length ∧ ∀ c,
      (row (connectBlocks f b blocks rows) c).1 =
        (if b ≤ c then (blocks[c - b]?.map (FlowGraph.targetsOf f)).getD (row rows c).1 else (row rows c).1) ∧
      (row (connectBlocks f b blocks rows) c).2 = (row rows c).2 ++
        (blocks.zipIdx b).filterMap fun (bb, k) => if (FlowGraph.targetsOf f bb).contains c then some k else none := by
  induction blocks generalizing b rows with
  | nil => exact ⟨rfl, fun c => ⟨by simp [connectBlocks], by simp [connectBlocks]⟩⟩
  | cons bb rest ih =>
    rw [List.length_cons] at inside
    have here : b < rows.length := by omega
    obtain ⟨length, first⟩ := connectAll (named f bb) here fun t listed =>
      Nat.lt_of_lt_of_le (namedBelow listed) wide
    have own : (row rows b).1 = [] := blank b (Nat.le_refl b) (by omega)
    obtain ⟨length', all⟩ := ih (b := b + 1) (by rwa [length]) (by omega) fun c later below => by
      rw [(first c).1, if_neg (by omega)]
      exact blank c (by omega) below
    refine ⟨length'.trans length, fun c => ?_⟩
    obtain ⟨succs, preds⟩ := all c
    rw [connectBlocks, succs, preds, (first c).1, (first c).2, own]
    have targets : pushAll [] (named f bb) = FlowGraph.targetsOf f bb := by
      rw [pushAllEq, ← namedTargets]
      simp
    refine ⟨?_, ?_⟩
    · rcases Nat.lt_trichotomy c b with before | rfl | after
      · simp [show ¬ b + 1 ≤ c by omega, show ¬ b ≤ c by omega, show c ≠ b by omega]
      · rw [if_neg (Nat.not_succ_le_self c), if_pos rfl, if_pos (Nat.le_refl c), Nat.sub_self, targets]
        rfl
      · rw [if_pos (by omega), if_neg (by omega), if_pos (by omega), show c - b = c - (b + 1) + 1 by omega,
          List.getElem?_cons_succ]
    · rw [List.append_assoc, List.zipIdx_cons, List.filterMap_cons]
      have same : (c ∈ named f bb ∧ c ∉ ([] : List Nat)) ↔ (FlowGraph.targetsOf f bb).contains c = true := by
        rw [← namedTargets, List.contains_iff_mem, List.mem_eraseDups]
        simp
      simp only [same]
      split <;> rfl

theorem graphRebuilt (old : EdgeRows) (f : Func) : (old.rebuild f).graph = FlowGraph.ofFunc f := by
  have blank (c : Nat) (below : c < f.blocks.length) :
      row (Rows.reset f.blocks.length ([], []) old.rows) c = ([], []) := by
    rw [row, Rows.resetEq, List.getD_eq_getElem?_getD,
      List.getElem?_append_left (by rwa [List.length_replicate]), List.getElem?_replicate, if_pos below]
    rfl
  have wide : f.blocks.length ≤ (Rows.reset f.blocks.length ([], []) old.rows).length := by
    rw [Rows.resetEq, List.length_append, List.length_replicate]
    exact Nat.le_add_right ..
  obtain ⟨length, rows⟩ := connected (b := 0) f f.blocks wide (Nat.le_of_eq (Nat.zero_add _)) fun c _ below => by
    rw [blank c below]
  have located (c : Nat) (below : c < f.blocks.length) :
      (old.rebuild f).rows[c]? = some (row (old.rebuild f).rows c) := by
    have inside : c < (old.rebuild f).rows.length := length ▸ Nat.lt_of_lt_of_le below wide
    rw [row, List.getD_eq_getElem?_getD, List.getElem?_eq_getElem inside]
    rfl
  have count : ((old.rebuild f).rows.take f.blocks.length).length = f.blocks.length := by
    rw [List.length_take]
    exact Nat.min_eq_left (length ▸ wide)
  have succs : (old.rebuild f).graph.succs = f.blocks.map (FlowGraph.targetsOf f) := by
    refine List.ext_getElem? fun c => ?_
    change (((old.rebuild f).rows.take f.blocks.length).map Prod.fst)[c]? = _
    rw [List.getElem?_map, List.getElem?_map, List.getElem?_take]
    split
    · rename_i below
      rw [located c below, Option.map_some, rebuild, (rows c).1, if_pos (Nat.zero_le c), Nat.sub_zero,
        List.getElem?_eq_getElem below]
      rfl
    · rename_i above
      rw [List.getElem?_eq_none (Nat.le_of_not_lt above)]
      rfl
  have preds : (old.rebuild f).graph.preds =
      (List.range f.blocks.length).map (FlowGraph.rowsWith (f.blocks.map (FlowGraph.targetsOf f))) := by
    refine List.ext_getElem? fun c => ?_
    change (((old.rebuild f).rows.take f.blocks.length).map Prod.snd)[c]? = _
    rw [List.getElem?_map, List.getElem?_map, List.getElem?_take]
    split
    · rename_i below
      rw [located c below, Option.map_some, rebuild, (rows c).2, blank c below, List.nil_append,
        List.getElem?_range below, Option.map_some, FlowGraph.rowsWith, List.zipIdx_map, List.filterMap_map]
      rfl
    · rename_i above
      rw [List.getElem?_eq_none (by rw [List.length_range]; exact Nat.le_of_not_lt above)]
      rfl
  calc (old.rebuild f).graph = ⟨(old.rebuild f).graph.succs, (old.rebuild f).graph.preds⟩ := rfl
    _ = FlowGraph.ofFunc f := by rw [succs, preds]; rfl

end EdgeRows

theorem markedSet {marks : List Bool} {b c : Nat} (inside : b < marks.length) :
    (marks.set b true).getD c false = true ↔ c = b ∨ marks.getD c false = true := by
  rw [List.getD_eq_getElem?_getD, List.getD_eq_getElem?_getD, List.getElem?_set]
  by_cases same : b = c
  · simp [same, same ▸ inside]
  · simp [same, Ne.symm same]

namespace TreeWalk
variable {size : Nat} {g : FlowGraph}

def ahead (g : FlowGraph) (stack : List (Nat × Nat)) : List (Nat × List Nat) :=
  stack.map fun (b, tried) => (b, (g.successors b).drop tried)

structure Marked (size : Nat) (seen : List Nat) (marks : List Bool) : Prop where
  length : marks.length = size
  same : ∀ b < size, (marks.getD b false = true ↔ b ∈ seen)

theorem Marked.set {seen : List Nat} {marks : List Bool} (ok : Marked size seen marks) {s : Nat} (inside : s < size) :
    Marked size (s :: seen) (marks.set s true) where
  length := by rw [List.length_set, ok.length]
  same b below := by rw [markedSet (ok.length.symm ▸ inside), List.mem_cons, ok.same b below]

theorem runOrder (bounded : Search.Bounded size g.successors) (fuel : Nat) (w : TreeWalk) {seen : List Nat}
    (ok : Marked size seen w.visited) :
    (run g fuel w).order = Search.finishOrder g.successors fuel (ahead g w.stack) seen w.order := by
  induction fuel generalizing w seen with
  | zero => rw [run, Search.finishOrder]
  | succ fuel ih =>
    obtain ⟨stack, visited, order⟩ := w
    cases stack with
    | nil => simp only [run, ahead, List.map_nil, Search.finishOrder]
    | cons top rest =>
      obtain ⟨b, tried⟩ := top
      simp only [run]
      cases next : (g.successors b)[tried]? with
      | none =>
        have done : (g.successors b).drop tried = [] := List.drop_eq_nil_iff.mpr (List.getElem?_eq_none_iff.mp next)
        simp only [ahead, List.map_cons, done, Search.finishOrder]
        exact ih _ ok
      | some s =>
        obtain ⟨present, same⟩ := List.getElem?_eq_some_iff.mp next
        have inside : s < size := bounded b s (same ▸ List.getElem_mem present)
        have more : (g.successors b).drop tried = s :: (g.successors b).drop (tried + 1) := by
          rw [List.drop_eq_getElem_cons present, same]
        simp only [ahead, List.map_cons, more, Search.finishOrder, List.contains_iff_mem, ← ok.same s inside]
        split
        · exact ih _ ok
        · exact ih _ (ok.set inside)

end TreeWalk

namespace TreeStore
open DomTree
variable {size : Nat} {g : FlowGraph}

theorem numbered (bs : List Nat) (k : Nat) {places : List (Option Nat)} (once : bs.Nodup)
    (inside : ∀ b ∈ bs, b < places.length) (b : Nat) :
    (number k bs places).getD b none = if b ∈ bs then some (k + bs.idxOf b) else places.getD b none := by
  induction bs generalizing k places with
  | nil => rfl
  | cons c rest ih =>
    obtain ⟨new, once⟩ := List.nodup_cons.mp once
    obtain ⟨here, later⟩ := List.forall_mem_cons.mp inside
    rw [number, ih (k + 1) once (by rwa [List.length_set]), List.idxOf_cons]
    by_cases same : b = c
    · subst same
      simp [new, here, List.getD_eq_getElem?_getD]
    · have apart : (c == b) = false := beq_false_of_ne (Ne.symm same)
      by_cases listed : b ∈ rest
      · simp [listed, apart]
        omega
      · simp [listed, same, Ne.symm same, List.getD_eq_getElem?_getD]

theorem rankNumbered {order : List Nat} (once : order.Nodup) (inside : ∀ b ∈ order, b < size) :
    rank (number 0 order (List.replicate size none)) order.length = order.idxOf := by
  funext b
  rw [rank, numbered order 0 once (by rwa [List.length_replicate])]
  split
  · rw [Option.getD_some, Nat.zero_add]
  · rename_i absent
    rw [List.idxOf_eq_length absent, List.getD_eq_getElem?_getD, List.getElem?_replicate]
    split <;> rfl

theorem takeHang (idoms : Parents) (bs : List Nat) (rows : List (List Nat)) :
    (bs.foldl (hang idoms) rows).take size = bs.foldl (hang idoms) (rows.take size) := by
  induction bs generalizing rows with
  | nil => rfl
  | cons b rest ih =>
    rw [List.foldl_cons, List.foldl_cons, ih]
    congr 1
    unfold hang
    split
    · exact List.take_modify ..
    · rfl

theorem takeReset (rows : List (List Nat)) : (Rows.reset size [] rows).take size = List.replicate size [] := by
  rw [Rows.resetEq, List.take_append_of_le_length (Nat.le_of_eq List.length_replicate.symm), List.take_of_length_le
    (Nat.le_of_eq List.length_replicate)]

theorem rebuiltAlike (old new : TreeStore) (size : Nat) (g : FlowGraph) :
    (old.rebuild size g).tree = (new.rebuild size g).tree := by
  unfold rebuild tree
  split
  · rename_i absent
    simp only [absent, List.take_zero]
  · simp only [takeHang, takeReset]

theorem treeRebuilt (old : TreeStore) (proper : g.Proper size) :
    (old.rebuild size g).tree = DomTree.ofGraph size g := by
  have order : (TreeWalk.run g (Search.steps size g.successors 1)
      ⟨[(0, 0)], (List.replicate size false).set 0 true, []⟩).order = blockOrder size g := by
    have start : TreeWalk.Marked size [] (List.replicate size false) := by
      refine ⟨List.length_replicate, fun b below => ?_⟩
      simp [List.getD_eq_getElem?_getD, below]
    rw [TreeWalk.runOrder proper.bounded _ _ (start.set proper.positive), blockOrder,
      if_neg (Nat.ne_of_gt proper.positive)]
    rfl
  have o := ordered proper
  have inside : ∀ b ∈ blockOrder size g, b < size := fun b listed => reachedInside proper ((o.mem b).mp listed)
  obtain ⟨t, goes, -, -⟩ := computes proper
  rw [rebuild, if_neg (Nat.ne_of_gt proper.positive), tree]
  simp only [takeHang, takeReset, order, rankNumbered o.once inside]
  unfold compute? at goes
  dsimp only at goes
  obtain ⟨u, hung, -⟩ := Option.map_eq_some_iff.mp goes
  rw [ofGraph, compute?]
  simp only [hung, Option.map_some, Option.getD_some]

theorem treeOfFunc (old : TreeStore) (f : Func) :
    (old.rebuild f.blocks.length (FlowGraph.ofFunc f)).tree = DomTree.ofFunc f (FlowGraph.ofFunc f) := by
  by_cases nonempty : 0 < f.blocks.length
  · exact treeRebuilt old (FlowGraph.proper f nonempty)
  · have empty : f.blocks = [] := List.eq_nil_of_length_eq_zero (Nat.eq_zero_of_not_pos nonempty)
    rw [rebuiltAlike old {}, DomTree.ofFunc, FlowGraph.ofFunc, empty]
    rfl

end TreeStore

namespace LoopStore
open Search
variable {size : Nat} {g : FlowGraph} {t : DomTree} {header : Nat} {latches : List Nat}

def back (g : FlowGraph) (t : DomTree) (b : Nat) : List Nat := (g.predecessors b).filter t.isReachable

theorem countSet {marks : List Bool} {b : Nat} (inside : b < marks.length) (new : marks.getD b false = false) :
    (marks.set b true).count false + 1 = marks.count false := by
  rw [List.getD_eq_getElem?_getD, List.getElem?_eq_getElem inside, Option.getD_some] at new
  have held : 0 < marks.count false := List.count_pos_iff.mpr (new ▸ List.getElem_mem inside)
  rw [List.count_set inside, new]
  simp
  omega

structure Pushed (bs : List Nat) (found next : List Bool × List Nat) : Prop where
  length : next.1.length = found.1.length
  marks : ∀ c, next.1.getD c false = true ↔ c ∈ bs ∨ found.1.getD c false = true
  work : ∀ c, c ∈ next.2 ↔ c ∈ found.2 ∨ c ∈ bs ∧ ¬ found.1.getD c false = true
  count : next.2.length + next.1.count false = found.2.length + found.1.count false

theorem pushed (bs : List Nat) (found : List Bool × List Nat) (inside : ∀ b ∈ bs, b < found.1.length) :
    Pushed bs found (bs.foldl push found) := by
  induction bs generalizing found with
  | nil => exact ⟨rfl, by simp, by simp, rfl⟩
  | cons b rest ih =>
    obtain ⟨here, later⟩ := List.forall_mem_cons.mp inside
    rw [List.foldl_cons]
    by_cases old : found.1.getD b false = true
    · rw [push, if_pos old]
      have onward := ih found later
      refine ⟨onward.length, fun c => ?_, fun c => ?_, onward.count⟩
      · rw [onward.marks, List.mem_cons, or_assoc]
        exact ⟨.inr, fun marked => marked.elim (fun same => .inr (same ▸ old)) id⟩
      · rw [onward.work, List.mem_cons]
        exact or_congr_right (and_congr_left fun new => (or_iff_right fun (same : c = b) => new (same ▸ old)).symm)
    · rw [push, if_neg old]
      have onward := ih (found.1.set b true, b :: found.2) (by rwa [List.length_set])
      have count := countSet here (Bool.eq_false_iff.mpr old)
      refine ⟨onward.length.trans List.length_set, fun c => ?_, fun c => ?_, onward.count.trans ?_⟩
      · rw [onward.marks, markedSet here, List.mem_cons, or_left_comm, or_assoc]
      · rw [onward.work, markedSet here, List.mem_cons, List.mem_cons]
        by_cases same : c = b
        · exact iff_of_true (.inl (.inl same)) (.inr ⟨.inl same, same ▸ old⟩)
        · simp [same]
      · dsimp only
        rw [List.length_cons]
        omega

structure Flooding (size : Nat) (g : FlowGraph) (t : DomTree) (header : Nat) (latches : List Nat) (fuel : Nat)
    (found : List Bool × List Nat) : Prop where
  length : found.1.length = size
  head : found.1.getD header false = true
  latched : ∀ b ∈ latches, found.1.getD b false = true
  sound : ∀ b, found.1.getD b false = true → b = header ∨ Reached (back g t) latches [header] b
  taken : ∀ b ∈ found.2, b ≠ header ∧ found.1.getD b false = true
  closed : ∀ m, found.1.getD m false = true → m ≠ header → m ∉ found.2 → ∀ b ∈ back g t m, found.1.getD b false = true
  enough : found.2.length + found.1.count false ≤ fuel

theorem floodingStart (inside : header < size) (below : ∀ b ∈ latches, b < size) :
    Flooding size g t header latches size (latches.foldl push ((List.replicate size false).set header true, [])) := by
  have room : header < (List.replicate size false).length := by rwa [List.length_replicate]
  have unmarked (b : Nat) : (List.replicate size false).getD b false = false := by
    rw [List.getD_eq_getElem?_getD, List.getElem?_replicate]
    split <;> rfl
  have first (b : Nat) : ((List.replicate size false).set header true).getD b false = true ↔ b = header := by
    rw [markedSet room, unmarked]
    simp
  have p := pushed latches ((List.replicate size false).set header true, [])
    (by rwa [List.length_set, List.length_replicate])
  have count := countSet room (unmarked header)
  refine ⟨?_, ?_, fun b listed => (p.marks b).mpr (.inl listed), fun b marked => ?_, fun b work => ?_,
    fun m marked other idle => ?_, ?_⟩
  · rw [p.length, List.length_set, List.length_replicate]
  · rw [p.marks, first]
    exact .inr rfl
  · by_cases same : b = header
    · exact .inl same
    · rw [p.marks, first] at marked
      exact .inr (.root (marked.resolve_right same) (by simpa using same))
  · rw [p.work, first] at work
    obtain ⟨listed, other⟩ := work.resolve_left List.not_mem_nil
    exact ⟨other, (p.marks b).mpr (.inl listed)⟩
  · rw [p.marks, first] at marked
    exact absurd ((p.work m).mpr (.inr ⟨marked.resolve_right other, fun same => other ((first m).mp same)⟩)) idle
  · rw [p.count, List.length_nil]
    rw [List.count_replicate_self] at count
    dsimp only
    omega

theorem Flooding.step (edges : ∀ m, ∀ b ∈ back g t m, b < size) {fuel b : Nat} {marks : List Bool} {rest : List Nat}
    (ok : Flooding size g t header latches (fuel + 1) (marks, b :: rest)) :
    Flooding size g t header latches fuel ((back g t b).foldl push (marks, rest)) := by
  obtain ⟨other, marked⟩ := ok.taken b List.mem_cons_self
  have p := pushed (back g t b) (marks, rest) fun c before => by
    rw [show marks.length = size from ok.length]
    exact edges b c before
  refine ⟨p.length.trans ok.length, (p.marks _).mpr (.inr ok.head),
    fun c listed => (p.marks c).mpr (.inr (ok.latched c listed)),
    fun c found => ?_, fun c work => ?_, fun m found apart idle c before => ?_, ?_⟩
  · rcases (p.marks c).mp found with before | old
    · by_cases same : c = header
      · exact .inl same
      · exact .inr (.step ((ok.sound b marked).resolve_left other) before (by simpa using same))
    · exact ok.sound c old
  · rcases (p.work c).mp work with old | ⟨before, new⟩
    · obtain ⟨apart, found⟩ := ok.taken c (List.mem_cons_of_mem _ old)
      exact ⟨apart, (p.marks c).mpr (.inr found)⟩
    · exact ⟨fun same => new (same ▸ ok.head), (p.marks c).mpr (.inl before)⟩
  · rw [p.work, not_or, not_and, not_not] at idle
    obtain ⟨idle, known⟩ := idle
    have found : marks.getD m false = true := ((p.marks m).mp found).elim known id
    rw [p.marks]
    by_cases same : m = b
    · exact .inl (same ▸ before)
    · exact .inr (ok.closed m found apart (fun listed => (List.mem_cons.mp listed).elim same idle) c before)
  · have enough := ok.enough
    rw [p.count]
    rw [List.length_cons] at enough
    dsimp only at enough ⊢
    omega

theorem Flooding.run (edges : ∀ m, ∀ b ∈ back g t m, b < size) {fuel : Nat} {found : List Bool × List Nat}
    (ok : Flooding size g t header latches fuel found) :
    (flood g t fuel found).2 = [] ∧ ∃ rest, Flooding size g t header latches rest (flood g t fuel found) := by
  induction fuel generalizing found with
  | zero =>
    have empty : found.2 = [] := List.eq_nil_of_length_eq_zero (by have := ok.enough; omega)
    rw [flood]
    exact ⟨empty, _, ok⟩
    · intro _ _ _ _ same
      cases same
  | succ fuel ih =>
    obtain ⟨marks, work⟩ := found
    cases work with
    | nil => exact ⟨rfl, _, ok⟩
    | cons b rest => exact ih (ok.step edges)

theorem flooded (edges : ∀ m, ∀ b ∈ back g t m, b < size) (inside : header < size) (below : ∀ b ∈ latches, b < size)
    {b : Nat} :
    (flood g t size (latches.foldl push ((List.replicate size false).set header true, []))).1.getD b false = true ↔
      b = header ∨ Reached (back g t) latches [header] b := by
  obtain ⟨absent, rest, ok⟩ := (floodingStart inside below).run edges
  refine ⟨ok.sound b, fun found => ?_⟩
  rcases found with rfl | reached
  · exact ok.head
  · induction reached with
    | root start free => exact ok.latched _ start
    | step before edge free ih =>
      exact ok.closed _ ih (by simpa using before.free) (by rw [absent]; exact List.not_mem_nil) _ edge

def loopOf (size : Nat) (g : FlowGraph) (t : DomTree) (header : Nat) : Option Loop :=
  let latches := (g.predecessors header).filter (t.dominates header)
  if latches.isEmpty then none
  else
    let found := flood g t size (latches.foldl push ((List.replicate size false).set header true, []))
    some { header := header, latches := latches,
           blocks := header :: (List.range size).filter fun b => found.1.getD b false && b != header }

theorem loopsAdded (headers : List Nat) (s : LoopStore) :
    (headers.foldl (addLoop size g t) s).loops = s.loops ++ headers.filterMap (loopOf size g t) ∧
      (headers.foldl (addLoop size g t) s).innermost = s.innermost := by
  induction headers generalizing s with
  | nil => exact ⟨(List.append_nil _).symm, rfl⟩
  | cons header rest ih =>
    obtain ⟨loops, innermost⟩ := ih (addLoop size g t s header)
    rw [List.foldl_cons, loops, innermost, List.filterMap_cons]
    unfold addLoop loopOf
    dsimp only
    split
    · exact ⟨rfl, rfl⟩
    · exact ⟨List.append_assoc .., rfl⟩

theorem rebuiltAlike (old new : LoopStore) (size : Nat) (g : FlowGraph) (t : DomTree) :
    (old.rebuild size g t).forest = (new.rebuild size g t).forest := by
  unfold rebuild forest
  dsimp only
  rw [(loopsAdded _ _).1, (loopsAdded _ _).1, (loopsAdded _ _).2, (loopsAdded _ _).2]

theorem loopOfAt (within : ∀ b ∈ t.order, b < size) (inside : header < size) :
    loopOf size g t header = LoopForest.loopAt? size g t header := by
  have reachable {b : Nat} (reached : t.isReachable b = true) : b < size := within b (List.contains_iff_mem.mp reached)
  have edges : ∀ m, ∀ b ∈ back g t m, b < size := fun m b before => reachable (List.mem_filter.mp before).2
  unfold loopOf LoopForest.loopAt?
  dsimp only
  split
  · rfl
  · have below : ∀ b ∈ (g.predecessors header).filter (t.dominates header), b < size := fun b latch => by
      have dominated := (List.mem_filter.mp latch).2
      simp only [DomTree.dominates, Bool.and_eq_true] at dominated
      exact reachable dominated.1.2
    congr 3
    refine List.filter_congr fun b _ => Bool.eq_iff_iff.mpr ?_
    have marked := flooded edges inside below (b := b)
    rw [Bool.and_eq_true, Bool.and_eq_true, and_comm, marked, List.contains_iff_mem]
    exact and_congr_right fun _ => (memReachFrom edges below).trans (by rw [List.mem_singleton]) |>.symm

theorem deeperAgain {loops : List Loop} {i : Nat} {l : Loop} (here : loops.getD i default = l) (best : Option Nat) :
    deeper loops i l (deeper loops i l best) = deeper loops i l best := by
  have self : deeper loops i l (some i) = some i := by simp only [deeper, here, Nat.lt_irrefl, if_false]
  cases best with
  | none => exact self
  | some j =>
    unfold deeper
    by_cases shallow : (loops.getD j default).depth < l.depth
    · simp only [shallow, if_true]
      exact self
    · simp only [shallow, if_false]

theorem getDModify {innermost : List (Option Nat)} {h : Option Nat → Option Nat} {b c : Nat}
    (inside : b < innermost.length) :
    (innermost.modify c h).getD b none = if c = b then h (innermost.getD b none) else innermost.getD b none := by
  simp only [List.getD_eq_getElem?_getD, List.getElem?_modify, List.getElem?_eq_getElem inside]
  split <;> rfl

theorem settled {loops : List Loop} (innermost : List (Option Nat)) {i : Nat} {l : Loop}
    (here : loops.getD i default = l) :
    (settle loops innermost i l).length = innermost.length ∧ ∀ b < innermost.length,
      (settle loops innermost i l).getD b none =
        if l.contains b then deeper loops i l (innermost.getD b none) else innermost.getD b none := by
  unfold settle Loop.contains
  induction l.blocks generalizing innermost with
  | nil => exact ⟨rfl, fun _ _ => rfl⟩
  | cons c rest ih =>
    obtain ⟨length, rows⟩ := ih (innermost.modify c (deeper loops i l))
    rw [List.length_modify] at length rows
    refine ⟨length, fun b inside => ?_⟩
    rw [List.foldl_cons, rows b inside, getDModify inside, List.contains_cons]
    by_cases same : c = b
    · subst same
      simp [deeperAgain here]
    · simp [same, Ne.symm same]

theorem innermostSettled {loops : List Loop} (innermost : List (Option Nat)) (present : List (Loop × Nat))
    (listed : ∀ p ∈ present, loops.getD p.2 default = p.1) :
    (present.foldl (fun innermost (l, i) => settle loops innermost i l) innermost).length = innermost.length ∧
    ∀ b < innermost.length, ∀ best : Option (Loop × Nat), (∀ p ∈ best, loops.getD p.2 default = p.1) →
      innermost.getD b none = best.map Prod.snd →
      (present.foldl (fun innermost (l, i) => settle loops innermost i l) innermost).getD b none =
        (present.foldl (fun (best : Option (Loop × Nat)) (l, j) =>
          if !l.contains b then best
          else
            match best with
            | none => some (l, j)
            | some (m, _) => if m.depth < l.depth then some (l, j) else best) best).map Prod.snd := by
  induction present generalizing innermost with
  | nil => exact ⟨rfl, fun b inside best known same => same⟩
  | cons p rest ih =>
    obtain ⟨l, i⟩ := p
    obtain ⟨here, later⟩ := List.forall_mem_cons.mp listed
    obtain ⟨length, rows⟩ := settled innermost here
    obtain ⟨length', rest'⟩ := ih (settle loops innermost i l) later
    rw [length] at length' rest'
    refine ⟨length', fun b inside best known same => ?_⟩
    rw [List.foldl_cons, List.foldl_cons]
    refine rest' b inside _ ?_ ?_
    · intro q among
      by_cases around : l.contains b = true
      · cases best with
        | none =>
          simp only [around, Bool.not_true, Bool.false_eq_true, if_false, Option.mem_some_iff] at among
          exact among ▸ here
        | some m =>
          simp only [around, Bool.not_true, Bool.false_eq_true, if_false] at among
          split at among
          · exact Option.mem_some_iff.mp among ▸ here
          · exact known q among
      · simp only [Bool.eq_false_iff.mpr around, Bool.not_false, if_true] at among
        exact known q among
    · rw [rows b inside, same]
      by_cases around : l.contains b = true
      · cases best with
        | none => simp [around, deeper]
        | some m =>
          have its : loops.getD m.2 default = m.1 := known m rfl
          simp only [around, Bool.not_true, Bool.false_eq_true, if_false, if_true, Option.map_some, deeper, its]
          split <;> rfl
      · simp [around]

theorem forestRebuilt (old : LoopStore) (within : ∀ b ∈ t.order, b < size) :
    (old.rebuild size g t).forest = LoopForest.ofGraph size g t := by
  have found : t.order.filterMap (loopOf size g t) = t.order.filterMap (LoopForest.loopAt? size g t) :=
    List.filterMap_congr fun b listed => loopOfAt within (within b listed)
  unfold rebuild forest LoopForest.ofGraph
  dsimp only
  rw [(loopsAdded _ _).1, (loopsAdded _ _).2, List.nil_append, found]
  generalize LoopForest.withDepths _ = loops
  obtain ⟨length, rows⟩ := innermostSettled (List.replicate size none) loops.zipIdx fun p listed => by
    obtain ⟨l, i⟩ := p
    have there := List.mem_zipIdx_iff_getElem?.mp listed
    rw [List.getD_eq_getElem?_getD, there]
    rfl
  rw [List.length_replicate] at length rows
  congr 1
  refine List.ext_getElem (by rw [length, List.length_map, List.length_range]) fun b inside _ => ?_
  have settled := rows b (length ▸ inside) none (fun _ absent => nomatch absent)
    (by simp [List.getD_eq_getElem?_getD, length ▸ inside])
  rw [List.getD_eq_getElem?_getD, List.getElem?_eq_getElem inside, Option.getD_some] at settled
  rw [settled, List.getElem_map, List.getElem_range]
  rfl

theorem forestOfFunc (old : LoopStore) (f : Func) :
    (old.rebuild f.blocks.length (FlowGraph.ofFunc f) (DomTree.ofFunc f (FlowGraph.ofFunc f))).forest =
      LoopForest.ofFunc f (FlowGraph.ofFunc f) (DomTree.ofFunc f (FlowGraph.ofFunc f)) := by
  by_cases nonempty : 0 < f.blocks.length
  · have proper := FlowGraph.proper f nonempty
    exact forestRebuilt old fun b listed => DomTree.reachedInside proper ((DomTree.memOrder proper).mp listed)
  · have empty : f.blocks = [] := List.eq_nil_of_length_eq_zero (Nat.eq_zero_of_not_pos nonempty)
    rw [rebuiltAlike old {}, DomTree.ofFunc, LoopForest.ofFunc, FlowGraph.ofFunc, empty]
    rfl

end LoopStore
end SsaCodegen
