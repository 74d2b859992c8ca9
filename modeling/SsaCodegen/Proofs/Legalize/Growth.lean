import SsaCodegen.Proofs.Flow.Closed
import SsaCodegen.X64.Legalize
/-! Legalization and the edges. Its steps put several blocks in the place of one or leave it as
it was, so without more blocks the edges are the old ones. With more of them it counts the
layout up at its end, which it does not reach when an instruction has no encoding. -/
namespace SsaCodegen.X64
open Legalize

theorem liftFloatsPlain (pos : SourcePos) (next : Nat) (values : List Value) :
    ∀ i ∈ (liftFloats pos next values).1, i.isTerminator = false := by
  induction values generalizing next with
  | nil => exact List.forall_mem_nil _
  | cons v rest ih =>
    unfold liftFloats
    split
    · exact List.forall_mem_cons.mpr ⟨rfl, ih _⟩
    · exact ih _

theorem liftFloatListsPlain (pos : SourcePos) (next : Nat) (lists : List (List Value)) :
    ∀ i ∈ (liftFloatLists pos next lists).1, i.isTerminator = false := by
  induction lists generalizing next with
  | nil => exact List.forall_mem_nil _
  | cons args rest ih =>
    unfold liftFloatLists
    exact List.forall_mem_append.mpr ⟨liftFloatsPlain pos next args, ih _⟩

theorem liftInstsReshapes (next : Nat) (insts : List Inst) : Reshapes insts (liftInsts next insts).1 := by
  induction insts generalizing next with
  | nil => exact .nil
  | cons i rest ih =>
    have last {n : Nat} : rest = [] → (liftInsts n rest).1 = [] := fun absent => by rw [absent]; rfl
    simp only [liftInsts, liftInst]
    split
    · exact .keep rfl last (ih _)
    · simp only [List.append_assoc]
      exact .adds (liftFloatsPlain _ _ _) (.adds (liftFloatListsPlain _ _ _) (.keep rfl last (ih _)))

theorem materializeFloatsExits (f : Func) : KeepsExits f.blocks (materializeFloats f).blocks := by
  have blocks (next : Nat) (blocks : List Block) :
      List.Forall₂ Reshaped blocks (liftBlocks next blocks).1 := by
    induction blocks generalizing next with
    | nil => exact .nil
    | cons bb rest ih => exact .cons ⟨rfl, liftInstsReshapes _ _⟩ (ih _)
  exact .ofReshaped (blocks _ _)

structure Replaces (bb : Block) (blocks : List Block) : Prop where
  nonempty : 0 < blocks.length
  alone : blocks.length = 1 → blocks = [bb]
  closed : Closed bb.insts → ∀ b ∈ blocks, Closed b.insts

def Grows (as bs : List Block) : Prop := (∀ a ∈ as, Closed a.insts) →
  (∀ b ∈ bs, Closed b.insts) ∧ as.length ≤ bs.length ∧
    (bs.length = as.length → bs.map Block.edges = as.map Block.edges)

namespace Grows
variable {as bs cs : List Block}

theorem trans (a : Grows as bs) (b : Grows bs cs) : Grows as cs := fun closed => by
  obtain ⟨middle, le, same⟩ := a closed
  obtain ⟨last, le', same'⟩ := b middle
  exact ⟨last, by omega, fun count => (same' (by omega)).trans (same (by omega))⟩

theorem ofExits (keeps : KeepsExits as bs) : Grows as bs := fun closed => by
  obtain ⟨still, edges⟩ := keeps closed
  have length := congrArg List.length edges
  rw [List.length_map, List.length_map] at length
  exact ⟨still, Nat.le_of_eq length.symm, fun _ => edges⟩

theorem ofReplaced {new : List (List Block)} (replaces : List.Forall₂ Replaces as new) :
    Grows as new.flatten := by
  intro closed
  have whole : (∀ b ∈ new.flatten, Closed b.insts) ∧ as.length ≤ new.flatten.length ∧
      (new.flatten.length = as.length → new.flatten = as) := by
    induction replaces with
    | nil => exact ⟨closed, Nat.le_refl _, fun _ => rfl⟩
    | @cons bb now as new here _ ih =>
      obtain ⟨first, rest⟩ := List.forall_mem_cons.mp closed
      obtain ⟨later, le, same⟩ := ih rest
      have present := here.nonempty
      rw [List.flatten_cons, List.length_append, List.length_cons]
      refine ⟨List.forall_mem_append.mpr ⟨here.closed first, later⟩, by omega, fun count => ?_⟩
      rw [here.alone (by omega), same (by omega)]
      rfl
  exact ⟨whole.1, whole.2.1, fun count => by rw [whole.2.2 count]⟩

end Grows

theorem splitAtSelectsReplaces (used : List String) (current : Block) (insts : List Inst) :
    Replaces { current with insts := current.insts ++ insts }
      (splitAtSelects used current insts).1 := by
  induction insts generalizing used current with
  | nil =>
    rw [List.append_nil]
    exact ⟨Nat.one_pos, fun _ => rfl, fun closed b inside => List.mem_singleton.mp inside ▸ closed⟩
  | cons i rest ih =>
    unfold splitAtSelects
    split
    · refine ⟨Nat.succ_pos _, fun one => absurd one (by simp), fun closed => ?_⟩
      obtain ⟨-, back, plain⟩ := closedAppend.mp closed
      have front := plain (List.cons_ne_nil _ _)
      refine List.forall_mem_cons.mpr ⟨closedAppend.mpr ⟨.ofPlain front, ?_, fun _ => front⟩, ?_⟩
      · exact List.pairwise_singleton _ _
      · refine List.forall_mem_cons.mpr ⟨List.pairwise_singleton _ _, ?_⟩
        exact List.forall_mem_cons.mpr ⟨List.pairwise_singleton _ _,
          (ih _ ⟨_, _, []⟩).closed (List.pairwise_cons.mp back).2⟩
    · have later := ih used { current with insts := current.insts ++ [i] }
      rwa [List.append_assoc] at later

theorem expandFloatSelectsGrows (f : Func) : Grows f.blocks (expandFloatSelects f).blocks := by
  have go (used : List String) (blocks : List Block) : ∃ new,
      expandSelectsFrom used blocks = new.flatten ∧ List.Forall₂ Replaces blocks new := by
    induction blocks generalizing used with
    | nil => exact ⟨[], rfl, .nil⟩
    | cons bb rest ih =>
      have now := splitAtSelectsReplaces used { bb with insts := [] } bb.insts
      obtain ⟨new, same, replaces⟩ := ih (splitAtSelects used { bb with insts := [] } bb.insts).2
      exact ⟨_ :: new, congrArg (_ ++ ·) same, .cons now replaces⟩
  obtain ⟨new, same, replaces⟩ := go f.labels f.blocks
  rw [expandFloatSelects, same]
  exact .ofReplaced replaces

theorem splitEdgesAlone (used : List String) (stem : String) (pos : SourcePos) (targets : List String)
    (args : List (List Value)) (alone : (splitEdges used stem pos targets args).blocks = []) :
    (splitEdges used stem pos targets args).targets = targets ∧
      (splitEdges used stem pos targets args).targetArgs = args := by
  induction targets generalizing args with
  | nil => exact ⟨rfl, rfl⟩
  | cons target rest ih =>
    cases args with
    | nil => exact ⟨rfl, rfl⟩
    | cons arg more =>
      unfold splitEdges at alone ⊢
      dsimp only at alone ⊢
      split at alone
      · rename_i empty
        obtain ⟨targets, args⟩ := ih more alone
        rw [if_pos empty, targets, args]
        exact ⟨rfl, rfl⟩
      · cases alone

theorem splitEdgesClosed (used : List String) (stem : String) (pos : SourcePos) (targets : List String)
    (args : List (List Value)) :
    ∀ b ∈ (splitEdges used stem pos targets args).blocks, Closed b.insts := by
  induction targets generalizing args with
  | nil => exact List.forall_mem_nil _
  | cons target rest ih =>
    cases args with
    | nil => exact List.forall_mem_nil _
    | cons arg more =>
      unfold splitEdges
      dsimp only
      split
      · exact ih more
      · exact List.forall_mem_cons.mpr ⟨List.pairwise_singleton _ _, ih more⟩

theorem splitBlockEdgesReplaces (used : List String) (bb : Block) :
    Replaces bb (splitBlockEdges used bb).1 := by
  have itself : Replaces bb [bb] :=
    ⟨Nat.one_pos, fun _ => rfl, fun closed b inside => List.mem_singleton.mp inside ▸ closed⟩
  unfold splitBlockEdges
  split
  · rename_i branch last
    split
    · obtain ⟨body, split⟩ := List.getLast?_eq_some_iff.mp last
      refine ⟨Nat.succ_pos _, fun one => ?_, fun closed => ?_⟩
      · obtain ⟨targets, args⟩ := splitEdgesAlone used bb.label branch.pos branch.targets
          branch.targetArgs (List.length_eq_zero_iff.mp (Nat.succ.inj one))
        have absent := List.length_eq_zero_iff.mp (Nat.succ.inj one)
        dsimp only at absent ⊢
        rw [absent, targets, args, split, List.dropLast_concat, ← split]
      · refine List.forall_mem_cons.mpr ⟨?_, splitEdgesClosed _ _ _ _ _⟩
        rw [split] at closed
        obtain ⟨front, -, plain⟩ := closedAppend.mp closed
        rw [split, List.dropLast_concat]
        exact closedAppend.mpr ⟨front, List.pairwise_singleton _ _, fun _ => plain (by simp)⟩
    · exact itself
  · exact itself

theorem splitArgumentEdgesGrows (f : Func) : Grows f.blocks (splitArgumentEdges f).blocks := by
  have go (used : List String) (blocks : List Block) : ∃ new,
      splitEdgesFrom used blocks = new.flatten ∧ List.Forall₂ Replaces blocks new := by
    induction blocks generalizing used with
    | nil => exact ⟨[], rfl, .nil⟩
    | cons bb rest ih =>
      obtain ⟨new, same, replaces⟩ := ih (splitBlockEdges used bb).2
      exact ⟨_ :: new, congrArg (_ ++ ·) same, .cons (splitBlockEdgesReplaces used bb) replaces⟩
  obtain ⟨new, same, replaces⟩ := go f.labels f.blocks
  rw [splitArgumentEdges, same]
  exact .ofReplaced replaces

theorem internInstsLeaves (pool : List (BitVec 64)) (insts : List Inst) :
    (internInsts pool insts).1.map Inst.leaves? = insts.map Inst.leaves? := by
  induction insts generalizing pool with
  | nil => rfl
  | cons i rest ih =>
    have here : (internInst pool i).1.leaves? = i.leaves? := by
      unfold internInst
      split <;> rfl
    exact List.cons_eq_cons.mpr ⟨here, ih _⟩

theorem internConstantsExits (f : Func) : KeepsExits f.blocks (internConstants f).blocks := by
  have blocks (pool : List (BitVec 64)) (blocks : List Block) :
      List.Forall₂ Reshaped blocks (internBlocks pool blocks).1 := by
    induction blocks generalizing pool with
    | nil => exact .nil
    | cons bb rest ih => exact .cons ⟨rfl, .ofLeaves (internInstsLeaves _ _)⟩ (ih _)
  exact .ofReshaped (blocks _ _)

theorem encodeInstsLeaves (f : Func) (insts : List Inst) :
    (encodeInsts f insts).1.map Inst.leaves? = insts.map Inst.leaves? := by
  induction insts with
  | nil => rfl
  | cons i rest ih =>
    unfold encodeInsts
    split
    · rfl
    · exact List.cons_eq_cons.mpr ⟨rfl, ih⟩

theorem encodeBlocksExits (f : Func) (blocks : List Block) :
    KeepsExits blocks (encodeBlocks f blocks).1 := by
  refine .ofReshaped ?_
  induction blocks with
  | nil => exact .nil
  | cons bb rest ih =>
    have here : Reshaped bb { bb with insts := (encodeInsts f bb.insts).1 } :=
      ⟨rfl, .ofLeaves (encodeInstsLeaves f bb.insts)⟩
    simp only [encodeBlocks]
    split
    · exact .cons here (List.forall₂_same.mpr fun b _ => ⟨rfl, .refl _⟩)
    · exact .cons here ih

theorem encodeBlocksGivesUp {f : Func} {blocks : List Block} {e : Failure}
    (failed : (encodeBlocks f blocks).2 = .error e) : ∃ inst label, e = .unencodable inst label := by
  induction blocks with
  | nil => cases failed
  | cons bb rest ih =>
    simp only [encodeBlocks] at failed
    split at failed
    · cases failed
      exact ⟨_, _, rfl⟩
    · exact ih failed

theorem legalizeFlow {f : Func} (closed : f.Closed) : (legalize f).1.Closed ∧
    (FlowKept f (legalize f).1 ∨ (legalize f).1.layoutVersion = f.layoutVersion ∧
      f.blocks.length < (legalize f).1.blocks.length ∧
      ∃ inst label, (legalize f).2 = .error (.unencodable inst label)) := by
  unfold legalize
  cases checkSignature f.signature with
  | error e => exact ⟨closed, .inl (.refl f)⟩
  | ok =>
    dsimp only
    generalize lowered : internConstants (splitArgumentEdges (expandFloatSelects
      (materializeFloats f))) = g
    have grows : Grows f.blocks (encodeBlocks g g.blocks).1 := by
      have all := (Grows.ofExits (materializeFloatsExits f)).trans
        ((expandFloatSelectsGrows _).trans ((splitArgumentEdgesGrows _).trans
          (.ofExits (internConstantsExits _))))
      rw [lowered] at all
      exact all.trans (.ofExits (encodeBlocksExits g g.blocks))
    have version : g.layoutVersion = f.layoutVersion := by rw [← lowered]; rfl
    obtain ⟨still, le, same⟩ := grows closed
    cases encoded : encodeBlocks g g.blocks with
    | mk blocks result =>
      rw [encoded] at still le same
      have kept (count : blocks.length = f.blocks.length) : FlowKept f { g with blocks := blocks } :=
        .ofEdges version (same count)
      cases result with
      | ok =>
        dsimp only
        split
        · rename_i count
          exact ⟨still, .inl (kept count)⟩
        · exact ⟨still, .inl (.noted f _ version)⟩
      | error e =>
        refine ⟨still, ?_⟩
        rcases Nat.eq_or_lt_of_le le with count | more
        · exact .inl (kept count.symm)
        · obtain ⟨inst, label, rfl⟩ := encodeBlocksGivesUp (congrArg Prod.snd encoded)
          exact .inr ⟨version, more, inst, label, rfl⟩

end SsaCodegen.X64
