import SsaCodegen.Proofs.Flow.Dominance
import SsaCodegen.Proofs.Opt.DeadCode
import SsaCodegen.Proofs.Opt.PrunedRuns
/-! Dead code is eliminated for good. Each instruction that goes leaves the runs as they were, and
the rounds end when one has looked at everything reachable and found nothing dead. -/
namespace SsaCodegen
open Semantics
namespace DeadCode

theorem Dead.prunedTo {s : Progress} {b : Nat} {bb : Block} {before after : List Inst} {inst : Inst}
    (dead : Dead s b bb before inst after) (ok : WellFormed s.func) (counted : s.uses = s.func.countUses) :
    PrunedTo (fun v => inst.result = some v) s.func (drop s b before.length inst).func where
  wellFormed := ok
  signature := rfl
  types := rfl
  blocks := dead.pruned
  unread _ inside _ used result :=
    dead.unread ok counted result (dead.perm.mem_iff.mpr (List.mem_cons_of_mem _ inside)) used

theorem walkRuns {t : DomTree} {f : Func} (ok : WellFormed f) {s : Progress} (walk : Walk t f s)
    {World : Type} (o : Surroundings World) (args : List Word) (world : World) (n : Nat) :
    run o s.func args world n = run o f args world n :=
  walk.keeps (P := fun s => run o s.func args world n = run o f args world n) rfl fun walk _ same dead =>
    ((dead.prunedTo (walkWellFormed walk ok) (walkCounts walk)).runs o args world n).trans same

structure Growing {α β : Type} (size : α → Nat) (step : α → β → α) : Prop where
  grows : ∀ a x, size a ≤ size (step a x)
  still : ∀ a x, size (step a x) = size a → step a x = a

namespace Growing
variable {α β : Type} {size : α → Nat} {step : α → β → α} (growing : Growing size step)
include growing

theorem foldGrows (a : α) (xs : List β) : size a ≤ size (xs.foldl step a) := by
  induction xs generalizing a with
  | nil => exact Nat.le_refl _
  | cons x rest ih => exact Nat.le_trans (growing.grows a x) (ih _)

theorem settles {a : α} {xs : List β} (same : size (xs.foldl step a) = size a) :
    xs.foldl step a = a ∧ ∀ x ∈ xs, step a x = a := by
  induction xs with
  | nil => exact ⟨rfl, fun _ absent => nomatch absent⟩
  | cons x rest ih =>
    rw [List.foldl_cons] at same ⊢
    have first : step a x = a := growing.still a x
      (Nat.le_antisymm (same ▸ growing.foldGrows (step a x) rest) (growing.grows a x))
    rw [first] at same ⊢
    obtain ⟨still, each⟩ := ih same
    exact ⟨still, List.forall_mem_cons.mpr ⟨first, each⟩⟩

end Growing

theorem visitGrowing (b : Nat) : Growing Progress.removed (visit b) where
  grows s i := by
    rcases visitCases b s i with ⟨same, -⟩ | ⟨bb, before, inst, after, -, -, same⟩
    · exact Nat.le_of_eq (congrArg Progress.removed same).symm
    · rw [same]
      exact Nat.le_succ _
  still s i size := by
    rcases visitCases b s i with ⟨same, -⟩ | ⟨bb, before, inst, after, -, -, same⟩
    · exact same
    · rw [same] at size
      exact absurd size (Nat.succ_ne_self _)

theorem sweepBlockGrowing : Growing Progress.removed sweepBlock where
  grows s b := (visitGrowing b).foldGrows s _
  still _ b same := ((visitGrowing b).settles same).1

theorem sweepSettled {order : List Nat} {s : Progress} (same : (sweep order s).removed = s.removed) :
    sweep order s = s ∧ ∀ b ∈ order, ∀ i ∈ (s.func.block b).insts, isDead s.uses i = false := by
  obtain ⟨still, each⟩ := sweepBlockGrowing.settles same
  refine ⟨still, fun b listed i inside => ?_⟩
  have block := each b (List.mem_reverse.mpr listed)
  obtain ⟨k, located⟩ := List.getElem?_of_mem inside
  have below := (List.getElem?_eq_some_iff.mp located).1
  have visits := ((visitGrowing b).settles (congrArg Progress.removed block)).2 k
    (List.mem_reverse.mpr (List.mem_range.mpr below))
  rcases visitCases b s k with ⟨-, lives⟩ | ⟨bb, before, inst, after, -, -, dropped⟩
  · exact lives i located
  · have removed := congrArg Progress.removed (dropped.symm.trans visits)
    exact absurd removed (Nat.succ_ne_self _)

theorem sweepAllSettled {t : DomTree} {f : Func} {rounds : Nat} {s : Progress} (walk : Walk t f s)
    (enough : f.insts.length < s.removed + rounds) :
    ∀ b ∈ t.order, ∀ i ∈ ((sweepAll t.order rounds s).func.block b).insts,
      isDead (sweepAll t.order rounds s).uses i = false := by
  induction rounds generalizing s with
  | zero =>
    have count := walkRemoved walk
    omega
  | succ rounds ih =>
    unfold sweepAll
    dsimp only
    split
    · rename_i same
      obtain ⟨still, lives⟩ := sweepSettled same
      rwa [still]
    · rename_i further
      have more : s.removed ≤ (sweep t.order s).removed := sweepBlockGrowing.foldGrows s _
      exact ih (sweepWalk walk) (by omega)

end DeadCode

open DeadCode in
theorem eliminateDeadCodeSpares (t : DomTree) {f : Func} (ok : WellFormed f) {b : Nat} (inside : b ∈ t.order)
    {i : Inst} (listed : i ∈ ((eliminateDeadCode t f).1.block b).insts) (isPure : i.op.isPure = true) :
    ∃ v, i.result = some v ∧ ∃ j ∈ (eliminateDeadCode t f).1.insts, v ∈ j.usedTemps := by
  have walk := doneWalk t f
  have first : Walk t f (start f) := .start
  have lives := sweepAllSettled first (by rw [start]; omega) b inside i listed
  have settled := walkWellFormed walk ok
  obtain ⟨bb, located, within⟩ := Func.memBlock Block.insts rfl listed
  have there := Func.memInsts (List.mem_of_getElem? located) within
  obtain ⟨v, result⟩ := Option.isSome_iff_exists.mp (Structure.pureResult (settled.inst there).1.shape isPure)
  refine ⟨v, result, ?_⟩
  simp only [isDead, result, isPure, walkCounts walk, Func.countUsesAt _ (settled.resultBelow there result),
    Bool.true_and, beq_eq_false_iff_ne, ne_eq, List.count_eq_zero, not_not] at lives
  exact List.mem_flatMap.mp lives

open DeadCode in
/-- Elimination of dead code keeps a function well-formed and its runs the same, whatever surrounds
them. It drops pure instructions of reachable blocks and says how many, and leaves none there whose
result nothing uses. All along the walk the counts are those of the uses that are left. -/
theorem eliminationKeepsRuns (f : Func) (verified : verifyFunction f = []) :
    let t := DomTree.ofFunc f (FlowGraph.ofFunc f)
    let (g, removed) := eliminateDeadCode t f
    verifyFunction g = [] ∧
    (∀ (World : Type) (o : Surroundings World) (args : List Word) (world : World) (n : Nat),
      run o g args world n = run o f args world n) ∧
    Thins (fun b => ∃ bb, f.blocks[b]? = some bb ∧ Reaches f bb.label) f g ∧
    removed + g.insts.length = f.insts.length ∧
    (∀ bb ∈ g.blocks, Reaches g bb.label → ∀ i ∈ bb.insts, i.op.isPure = true →
      ∃ v, i.result = some v ∧ ∃ j ∈ g.insts, v ∈ j.usedTemps) ∧
    (∃ s, Walk t f s ∧ s.func = g ∧ s.removed = removed) ∧
    ∀ s, Walk t f s →
      s.uses = (List.range s.func.numValues).map fun v => (s.func.insts.flatMap Inst.usedTemps).count v := by
  have ok := verifiedIff.mp verified
  generalize tree : DomTree.ofFunc f (FlowGraph.ofFunc f) = t
  have walk := doneWalk t f
  have okAfter := eliminateDeadCodeWellFormed t ok
  have thins := eliminateDeadCodeThins t f
  refine ⟨verifiedIff.mpr okAfter, fun World o args world n => walkRuns ok walk o args world n,
    thins.mono fun b bb located listed => ⟨bb, located, ?_⟩, walkRemoved walk,
      fun bb there reaches i listed isPure => ?_,
    ⟨_, walk, rfl, rfl⟩, fun s walk => ?_⟩
  · exact (FlowGraph.memOrderIff ok.labels located).mp (tree ▸ listed)
  · obtain ⟨a, home, pair⟩ := thins.rewrites.pairOf there
    obtain ⟨b, left, right⟩ := pair
    have reached : Reaches f a.label := by
      rw [← (thins.rewrites.sameHead ⟨b, left, right⟩).1]
      exact reachesSame (thins.exits ok.closed).2.symm reaches
    rw [← Func.blockAt right] at listed
    exact eliminateDeadCodeSpares t ok (tree ▸ (FlowGraph.memOrderIff ok.labels left).mpr reached) listed isPure
  · rw [walkCounts walk, Func.countUsesEq]

def sumUnused : Func :=
  { signature := { params := [.i64], returns := [.i64] }
    blocks := [
      { label := "entry", params := [⟨0, .i64⟩]
        insts := [
          { result := some 1, op := .imul, ty := .i64, operands := [.temp 0, .temp 0] },
          { result := some 2, op := .iadd, ty := .i64, operands := [.temp 1, .temp 1] },
          { result := some 3, op := .isub, ty := .i64, operands := [.temp 0, .int 5] },
          { result := some 4, op := .iadd, ty := .i64, operands := [.temp 0, .int 1] },
          { op := .jump, targets := ["done"], targetArgs := [[.temp 4]] }] },
      { label := "done", params := [⟨5, .i64⟩], insts := [{ op := .ret, operands := [.temp 5] }] },
      { label := "apart", insts := [{ op := .ret, operands := [.temp 3] }] }]
    valueTypes := [.i64, .i64, .i64, .i64, .i64, .i64] }

theorem sumUnusedDropped :
    let (g, removed) := eliminateDeadCode (DomTree.ofFunc sumUnused (FlowGraph.ofFunc sumUnused)) sumUnused
    verifyFunction sumUnused = [] ∧ removed = 2 ∧ verifyFunction g = [] ∧
    g.insts.map Inst.op = [.isub, .iadd, .jump, .ret, .ret] ∧
    run nowhere g [4] () 2 = run nowhere sumUnused [4] () 2 ∧
    (run nowhere sumUnused [4] () 2).ending = some (.returned [5]) := by
  have verified : verifyFunction sumUnused = [] := by decide +kernel
  obtain ⟨after, runs, -⟩ := eliminationKeepsRuns sumUnused verified
  exact ⟨verified, by decide +kernel, after, by decide +kernel, runs Unit nowhere [4] () 2, by decide +kernel⟩

end SsaCodegen
