import SsaCodegen.Opt.DeadCode
import SsaCodegen.Proofs.Flow.Closed
import SsaCodegen.Proofs.Ir.Prune
/-! Dead code is pruned. The uses that the walk counts down are at each point those in the function
that is left, so nothing there reads what goes. -/
namespace SsaCodegen

inductive Thinned : List Inst → List Inst → Prop where
  | nil : Thinned [] []
  | keep {i as bs} (tail : Thinned as bs) : Thinned (i :: as) (i :: bs)
  | drop {i as bs} (isPure : i.op.isPure = true) (tail : Thinned as bs) : Thinned (i :: as) bs

namespace Thinned
variable {as bs cs : List Inst}

theorem refl (as : List Inst) : Thinned as as := by
  induction as with
  | nil => exact .nil
  | cons i rest ih => exact .keep ih

theorem trans (first : Thinned as bs) (second : Thinned bs cs) : Thinned as cs := by
  induction first generalizing cs with
  | nil => exact second
  | keep tail ih =>
    cases second with
    | keep later => exact .keep (ih later)
    | drop isPure later => exact .drop isPure (ih later)
  | drop isPure tail ih => exact .drop isPure (ih second)

theorem without {before after : List Inst} {i : Inst} (isPure : i.op.isPure = true) :
    Thinned (before ++ i :: after) (before ++ after) := by
  induction before with
  | nil => exact .drop isPure (.refl after)
  | cons j rest ih => exact .keep ih

theorem sublist (thinned : Thinned as bs) : bs.Sublist as := by
  induction thinned with
  | nil => exact .refl []
  | keep tail ih => exact ih.cons_cons _
  | drop isPure tail ih => exact ih.cons _

theorem reshapes (thinned : Thinned as bs) : Reshapes as bs := by
  induction thinned with
  | nil => exact .nil
  | keep tail ih => exact .keep rfl (fun absent => List.sublist_nil.mp (absent ▸ tail.sublist)) ih
  | drop isPure tail ih => exact .drop (plainOfPure isPure) ih

end Thinned

structure Thins (within : Nat → Prop) (f g : Func) : Prop where
  rest : g = { f with blocks := g.blocks }
  heads : g.blocks.map Block.head = f.blocks.map Block.head
  insts : ∀ b, Thinned (f.block b).insts (g.block b).insts
  others : ∀ b, ¬ within b → g.block b = f.block b

namespace Thins

theorem refl {within : Nat → Prop} (f : Func) : Thins within f f := ⟨rfl, rfl, fun _ => .refl _, fun _ _ => rfl⟩

variable {within : Nat → Prop} {f g : Func} (thins : Thins within f g)
include thins

theorem trans {h : Func} (next : Thins within g h) : Thins within f h where
  rest := by rw [next.rest, thins.rest]
  heads := next.heads.trans thins.heads
  insts b := (thins.insts b).trans (next.insts b)
  others b outside := (next.others b outside).trans (thins.others b outside)

theorem rewrites : Rewrites f g where
  signature := by rw [thins.rest]
  types := congrArg Func.valueTypes thins.rest ▸ List.prefix_refl _
  heads := thins.heads

theorem mono {within' : Nat → Prop} (each : ∀ b bb, f.blocks[b]? = some bb → within b → within' b) :
    Thins within' f g := by
  refine { thins with others := fun b outside => ?_ }
  cases located : f.blocks[b]? with
  | some bb => exact thins.others b fun inside => outside (each b bb located inside)
  | none =>
    have head := thins.rewrites.headAt b
    rw [located, Option.map_none, Option.map_eq_none_iff] at head
    rw [Func.block, Func.block, List.getD_eq_getElem?_getD, List.getD_eq_getElem?_getD, located, head]

theorem blocks : List.Forall₂ (fun a b => b.label = a.label ∧ Thinned a.insts b.insts) f.blocks g.blocks := by
  refine List.forall₂_iff_get.mpr ⟨?_, fun k left right => ?_⟩
  · rw [← List.length_map Block.head, ← thins.heads, List.length_map]
  · have pair := thins.insts k
    rw [Func.blockAt (List.getElem?_eq_getElem left), Func.blockAt (List.getElem?_eq_getElem right)] at pair
    exact ⟨(thins.rewrites.sameHead ⟨k, List.getElem?_eq_getElem left, List.getElem?_eq_getElem right⟩).1, pair⟩

theorem exits : KeepsExits f.blocks g.blocks :=
  .ofReshaped (thins.blocks.imp fun _ _ pair => ⟨pair.1, pair.2.reshapes⟩)

theorem version : g.layoutVersion = f.layoutVersion := by rw [thins.rest]

theorem mem {j : Inst} (inside : j ∈ g.insts) : j ∈ f.insts := by
  obtain ⟨b, there, listed⟩ := List.mem_flatMap.mp inside
  obtain ⟨a, home, k, left, right⟩ := thins.rewrites.pairOf there
  have thinned := thins.insts k
  rw [Func.blockAt left, Func.blockAt right] at thinned
  exact Func.memInsts home (thinned.sublist.subset listed)

end Thins

namespace DeadCode

theorem forgetCounts (n : Nat) (count : Nat → Nat) (inst : Inst) : forget ((List.range n).map count) inst =
    (List.range n).map fun v => count v - inst.usedTemps.count v := by
  rw [forget, modifyEach]
  exact List.map_congr_left fun v _ => Nat.pred_iterate _ _

inductive Walk (t : DomTree) (f : Func) : Progress → Prop where
  | start : Walk t f (start f)
  | visit {s : Progress} {b : Nat} (before : Walk t f s) (inside : b ∈ t.order) (i : Nat) :
      Walk t f (visit b s i)

structure Dead (s : Progress) (b : Nat) (bb : Block) (before : List Inst) (inst : Inst)
    (after : List Inst) : Prop where
  there : s.func.blocks[b]? = some bb
  split : bb.insts = before ++ inst :: after
  dead : isDead s.uses inst = true

theorem visitCases (b : Nat) (s : Progress) (i : Nat) :
    (visit b s i = s ∧ ∀ inst, (s.func.block b).insts[i]? = some inst → isDead s.uses inst = false) ∨
    ∃ bb before inst after, Dead s b bb before inst after ∧ before.length = i ∧
      visit b s i = drop s b i inst := by
  unfold visit
  cases located : (s.func.block b).insts[i]? with
  | none => exact .inl ⟨rfl, fun _ present => nomatch present⟩
  | some inst =>
    cases dead : isDead s.uses inst with
    | false => exact .inl ⟨by simp [dead], fun _ same => Option.some.inj same ▸ dead⟩
    | true =>
      cases there : s.func.blocks[b]? with
      | none => simp [Func.block, there, default, instInhabitedBlock.default] at located
      | some bb =>
        rw [Func.blockAt there] at located
        obtain ⟨below, here⟩ := List.getElem?_eq_some_iff.mp located
        refine .inr ⟨bb, bb.insts.take i, inst, bb.insts.drop (i + 1), ⟨there, ?_, dead⟩, ?_, by simp [dead]⟩
        · rw [← here, List.getElem_cons_drop, List.take_append_drop]
        · rw [List.length_take, Nat.min_eq_left (Nat.le_of_lt below)]

theorem Walk.keeps {t : DomTree} {f : Func} {P : Progress → Prop} (first : P (DeadCode.start f))
    (drops : ∀ {s : Progress} {b : Nat} {bb : Block} {before : List Inst} {inst : Inst} {after : List Inst},
      Walk t f s → b ∈ t.order → P s → Dead s b bb before inst after → P (drop s b before.length inst))
    {s : Progress} (walk : Walk t f s) : P s := by
  induction walk with
  | start => exact first
  | @visit s b walk inside i ih =>
    rcases visitCases b s i with ⟨same, -⟩ | ⟨bb, before, inst, after, dead, rfl, same⟩
    · rwa [same]
    · rw [same]
      exact drops walk inside ih dead

section Walks
variable {t : DomTree} {f : Func} {s : Progress}

theorem sweepBlockWalk (walk : Walk t f s) {b : Nat} (inside : b ∈ t.order) : Walk t f (sweepBlock s b) :=
  List.foldlRecOn _ _ walk fun _ walk i _ => walk.visit inside i

theorem sweepWalk (walk : Walk t f s) : Walk t f (sweep t.order s) :=
  List.foldlRecOn _ _ walk fun _ walk _ listed => sweepBlockWalk walk (List.mem_reverse.mp listed)

theorem sweepAllWalk (walk : Walk t f s) (rounds : Nat) : Walk t f (sweepAll t.order rounds s) := by
  induction rounds generalizing s with
  | zero => exact walk
  | succ rounds ih =>
    unfold sweepAll
    dsimp only
    split
    · exact sweepWalk walk
    · exact ih (sweepWalk walk)

end Walks

namespace Dead
variable {s : Progress} {b : Nat} {bb : Block} {before after : List Inst} {inst : Inst}
  (dead : Dead s b bb before inst after)
include dead

theorem pureOp : inst.op.isPure = true := deadPure dead.dead

theorem blocks : (drop s b before.length inst).func.blocks =
    s.func.blocks.set b { bb with insts := before ++ after } := by
  have erased : bb.insts.eraseIdx before.length = before ++ after := by
    rw [dead.split, List.eraseIdx_append_of_length_le (Nat.le_refl _), Nat.sub_self]
    rfl
  rw [drop, Func.modifyBlock, List.modify_eq_set_getElem?, dead.there]
  simp [erased]

theorem blockAt (k : Nat) : (drop s b before.length inst).func.block k =
    if b = k then { bb with insts := before ++ after } else s.func.block k := by
  have below := (List.getElem?_eq_some_iff.mp dead.there).1
  rw [Func.block, dead.blocks, List.getD_eq_getElem?_getD, List.getElem?_set]
  split
  · simp [*]
  · rw [Func.block, List.getD_eq_getElem?_getD]

theorem thins {within : Nat → Prop} (inside : within b) :
    Thins within s.func (drop s b before.length inst).func where
  rest := rfl
  heads := headsModify _ _ fun _ => rfl
  insts k := by
    rw [dead.blockAt]
    split
    · rename_i same
      rw [← same, Func.blockAt dead.there, dead.split]
      exact .without dead.pureOp
    · exact .refl _
  others k outside := by
    rw [dead.blockAt, if_neg fun same : b = k => outside (same ▸ inside)]

theorem perm : s.func.insts.Perm (inst :: (drop s b before.length inst).func.insts) := by
  obtain ⟨below, here⟩ := List.getElem?_eq_some_iff.mp dead.there
  obtain ⟨front, back, whole, -, left⟩ : ∃ front back, s.func.blocks = front ++ s.func.blocks[b] :: back ∧
      front.length = b ∧ s.func.blocks.set b { bb with insts := before ++ after } = front ++ _ :: back :=
    List.exists_of_set below
  rw [Func.insts, Func.insts, dead.blocks, left, whole, here, List.flatMap_append, List.flatMap_append,
    List.flatMap_cons, List.flatMap_cons, dead.split]
  simp only [List.append_assoc, List.cons_append]
  rw [← List.append_assoc, ← List.append_assoc]
  exact List.perm_middle

theorem counts (counted : s.uses = s.func.countUses) :
    (drop s b before.length inst).uses = (drop s b before.length inst).func.countUses := by
  have uses : (drop s b before.length inst).uses = forget s.uses inst := rfl
  have types : (drop s b before.length inst).func.numValues = s.func.numValues := rfl
  rw [uses, counted, Func.countUsesEq, Func.countUsesEq, types, forgetCounts]
  refine List.map_congr_left fun v _ => ?_
  have split := (dead.perm.flatMap_right Inst.usedTemps).count_eq v
  rw [List.flatMap_cons, List.count_append] at split
  omega

theorem unread (ok : WellFormed s.func) (counted : s.uses = s.func.countUses) {v : Nat}
    (result : inst.result = some v) {i : Inst} (listed : i ∈ s.func.insts) : v ∉ i.usedTemps := by
  have below := ok.resultBelow (dead.perm.mem_iff.mpr List.mem_cons_self) result
  have absent := dead.dead
  simp only [isDead, result, counted, Bool.and_eq_true, beq_iff_eq, s.func.countUsesAt below,
    List.count_eq_zero] at absent
  exact fun used => absent.2 (List.mem_flatMap.mpr ⟨i, listed, used⟩)

theorem pruned : PrunedBlocks (drop s b before.length inst).func (fun v => inst.result = some v)
    s.func.blocks (drop s b before.length inst).func.blocks := by
  refine .ofAt (by simp [dead.blocks]) fun k a c left right => ?_
  have thins : Thins (fun _ => True) s.func (drop s b before.length inst).func := dead.thins trivial
  obtain ⟨label, params⟩ := thins.rewrites.sameHead ⟨k, left, right⟩
  refine ⟨label, params, ?_⟩
  have insts := dead.blockAt k
  rw [Func.blockAt left, Func.blockAt right] at insts
  rw [insts]
  split
  · rename_i same
    cases same
    cases left.symm.trans dead.there
    rw [dead.split]
    exact .without dead.pureOp fun v result => result
  · exact .refl _

theorem wellFormed (ok : WellFormed s.func) (counted : s.uses = s.func.countUses) :
    WellFormed (drop s b before.length inst).func :=
  ok.prune rfl rfl dead.pruned fun _ inside _ used result =>
    dead.unread ok counted result (dead.perm.mem_iff.mpr (List.mem_cons_of_mem _ inside)) used

end Dead

section Walks
variable {t : DomTree} {f : Func} {s : Progress} (walk : Walk t f s)
include walk

theorem walkThins : Thins (· ∈ t.order) f s.func :=
  walk.keeps (P := fun s => Thins (· ∈ t.order) f s.func) (.refl f) fun _ inside thins dead =>
    thins.trans (dead.thins inside)

theorem walkCounts : s.uses = s.func.countUses :=
  walk.keeps (P := fun s => s.uses = s.func.countUses) rfl fun _ _ counted dead => dead.counts counted

theorem walkRemoved : s.removed + s.func.insts.length = f.insts.length :=
  walk.keeps (P := fun s => s.removed + s.func.insts.length = f.insts.length) (Nat.zero_add _)
    fun _ _ count dead => by
      have length := dead.perm.length_eq
      rw [List.length_cons] at length
      exact (Nat.add_right_comm ..).trans (by rw [Nat.add_assoc, ← length, count])

theorem walkWellFormed (ok : WellFormed f) : WellFormed s.func :=
  walk.keeps (P := fun s => WellFormed s.func) ok fun walk _ ok dead => dead.wellFormed ok (walkCounts walk)

end Walks

theorem doneWalk (t : DomTree) (f : Func) : Walk t f (sweepAll t.order (f.insts.length + 1) (start f)) :=
  sweepAllWalk .start _

end DeadCode

open DeadCode in
theorem eliminateDeadCodeThins (t : DomTree) (f : Func) :
    Thins (· ∈ t.order) f (eliminateDeadCode t f).1 := walkThins (doneWalk t f)

open DeadCode in
theorem eliminateDeadCodeWellFormed (t : DomTree) {f : Func} (ok : WellFormed f) :
    WellFormed (eliminateDeadCode t f).1 := walkWellFormed (doneWalk t f) ok

theorem eliminateDeadCodeLowered {t : DomTree} {f : Func} (ok : Lowered f) :
    Lowered (eliminateDeadCode t f).1 := by
  have thins := eliminateDeadCodeThins t f
  refine ⟨⟨eliminateDeadCodeWellFormed t ok.clean.wellFormed, fun b there j listed => ?_⟩,
    fun j inside => ok.encoded j (thins.mem inside)⟩
  exact (ok.clean.inst (thins.mem (Func.memInsts there listed))).2.1

end SsaCodegen
