import SsaCodegen.Proofs.Flow.Cache
import SsaCodegen.Proofs.Ir.Bare
import Mathlib.Data.List.Forall2
/-! Closed functions, in which nothing stands behind a terminator. Whatever else comes, goes
or changes in a block, such a block leaves as it did while its terminator leads where it
led. The last instruction of any other block may go, and bring a branch to light. -/
namespace SsaCodegen

def Inst.leaves? (i : Inst) : Option (List String) :=
  if i.isTerminator then some i.targets else none

def Closed (insts : List Inst) : Prop := insts.Pairwise fun i _ => i.isTerminator = false

def Func.Closed (f : Func) : Prop := ∀ bb ∈ f.blocks, SsaCodegen.Closed bb.insts

def exitOf : List Inst → List String
  | [] => []
  | [i] => i.leaves?.getD []
  | _ :: rest => exitOf rest

theorem leavesPlain {i : Inst} (plain : i.isTerminator = false) : i.leaves? = none := by
  simp [Inst.leaves?, plain]

theorem plainLeaves {i j : Inst} (same : j.leaves? = i.leaves?) (plain : i.isTerminator = false) :
    j.isTerminator = false := by
  rw [leavesPlain plain] at same
  simpa [Inst.leaves?] using same

theorem exitOfPlain {i : Inst} (plain : i.isTerminator = false) (rest : List Inst) :
    exitOf (i :: rest) = exitOf rest := by
  cases rest with
  | nil => simp [exitOf, leavesPlain plain]
  | cons j rest => rfl

theorem targetsExit (bb : Block) : bb.targets = exitOf bb.insts := by
  have exit (insts : List Inst) : exitOf insts =
      ((insts.getLast?.filter Inst.isTerminator).map Inst.targets).getD [] := by
    induction insts with
    | nil => rfl
    | cons i rest ih =>
      cases rest with
      | nil =>
        unfold exitOf Inst.leaves?
        rw [List.getLast?_singleton, Option.filter_some]
        split <;> rfl
      | cons j rest => rw [exitOf, ih, List.getLast?_cons_cons]; exact fun absent => by cases absent
  rw [exit, Block.targets, Block.terminator?]
  cases bb.insts.getLast?.filter Inst.isTerminator <;> rfl

theorem Closed.sublist {as bs : List Inst} (closed : Closed as) (part : bs.Sublist as) : Closed bs :=
  List.Pairwise.sublist part closed

theorem Closed.same {as bs : List Inst} (ok : Closed as)
    (same : bs.map Inst.isTerminator = as.map Inst.isTerminator) : Closed bs := by
  have ends (insts : List Inst) : Closed insts ↔
      (insts.map Inst.isTerminator).Pairwise fun ends _ => ends = false := by
    rw [List.pairwise_map, Closed]
  rw [ends, same, ← ends]
  exact ok

theorem Closed.ofPlain {insts : List Inst} (plain : ∀ i ∈ insts, i.isTerminator = false) :
    Closed insts := List.pairwise_iff_forall_sublist.mpr fun pair => plain _ (pair.subset (by simp))

theorem Closed.cons {i : Inst} {rest : List Inst} (plain : i.isTerminator = false)
    (closed : Closed rest) : Closed (i :: rest) := List.pairwise_cons.mpr ⟨fun _ _ => plain, closed⟩

theorem closedAppend {front back : List Inst} : Closed (front ++ back) ↔
    Closed front ∧ Closed back ∧ (back ≠ [] → ∀ i ∈ front, i.isTerminator = false) := by
  refine List.pairwise_append.trans (and_congr_right fun _ => and_congr_right fun _ => ?_)
  refine ⟨fun apart present i inside => ?_, fun plain i inside j later => ?_⟩
  · obtain ⟨j, later⟩ := List.exists_mem_of_ne_nil back present
    exact apart i inside j later
  · exact plain (List.ne_nil_of_mem later) i inside

theorem WellFormed.closed {f : Func} (ok : WellFormed f) : f.Closed := fun bb inside => by
  obtain ⟨body, last, same, -, plain⟩ := ok.ended bb inside
  rw [same]
  exact closedAppend.mpr ⟨.ofPlain plain, List.pairwise_singleton _ _, fun _ => plain⟩

inductive Reshapes : List Inst → List Inst → Prop where
  | nil : Reshapes [] []
  | keep {i j as bs} : j.leaves? = i.leaves? → (as = [] → bs = []) → Reshapes as bs →
      Reshapes (i :: as) (j :: bs)
  | drop {i as bs} : i.isTerminator = false → Reshapes as bs → Reshapes (i :: as) bs
  | add {j as bs} : j.isTerminator = false → Reshapes as bs → Reshapes as (j :: bs)

namespace Reshapes
variable {as bs : List Inst}

theorem ofLeaves (same : bs.map Inst.leaves? = as.map Inst.leaves?) : Reshapes as bs := by
  induction as generalizing bs with
  | nil =>
    cases List.map_eq_nil_iff.mp same
    exact .nil
  | cons i rest ih =>
    obtain ⟨j, others, rfl, leaves, later⟩ := List.map_eq_cons_iff.mp same
    refine .keep leaves (fun absent => ?_) (ih later)
    rw [absent] at later
    exact List.map_eq_nil_iff.mp later

theorem refl (as : List Inst) : Reshapes as as := ofLeaves rfl

theorem adds {new : List Inst} (plain : ∀ j ∈ new, j.isTerminator = false) (r : Reshapes as bs) :
    Reshapes as (new ++ bs) := by
  induction new with
  | nil => exact r
  | cons j rest ih =>
    exact .add (plain j List.mem_cons_self) (ih fun i later => plain i (List.mem_cons_of_mem _ later))

theorem closed (r : Reshapes as bs) (ok : Closed as) : Closed bs ∧ exitOf bs = exitOf as := by
  induction r with
  | nil => exact ⟨ok, rfl⟩
  | @keep i j as bs leaves last r ih =>
    obtain ⟨plain, rest⟩ := List.pairwise_cons.mp ok
    cases as with
    | nil =>
      rw [last rfl]
      exact ⟨List.pairwise_singleton _ j, by rw [exitOf, exitOf, leaves]⟩
    | cons a more =>
      have plain := plain a List.mem_cons_self
      obtain ⟨closed, exit⟩ := ih rest
      have still := plainLeaves leaves plain
      exact ⟨closed.cons still, by rw [exitOfPlain still, exitOfPlain plain, exit]⟩
  | drop plain r ih =>
    obtain ⟨closed, exit⟩ := ih (List.pairwise_cons.mp ok).2
    exact ⟨closed, by rw [exitOfPlain plain, exit]⟩
  | add plain r ih =>
    obtain ⟨closed, exit⟩ := ih ok
    exact ⟨closed.cons plain, by rw [exitOfPlain plain, exit]⟩

end Reshapes

def Reshaped (a b : Block) : Prop := b.label = a.label ∧ Reshapes a.insts b.insts

def KeepsExits (as bs : List Block) : Prop := (∀ a ∈ as, Closed a.insts) →
  (∀ b ∈ bs, Closed b.insts) ∧ bs.map Block.edges = as.map Block.edges

namespace KeepsExits
variable {as bs cs : List Block}

theorem refl (as : List Block) : KeepsExits as as := fun closed => ⟨closed, rfl⟩

theorem trans (a : KeepsExits as bs) (b : KeepsExits bs cs) : KeepsExits as cs := fun closed => by
  obtain ⟨middle, same⟩ := a closed
  obtain ⟨last, same'⟩ := b middle
  exact ⟨last, same'.trans same⟩

theorem ofReshaped (same : List.Forall₂ Reshaped as bs) : KeepsExits as bs := by
  intro closed
  induction same with
  | nil => exact ⟨closed, rfl⟩
  | @cons a b as bs head _ ih =>
    obtain ⟨label, reshapes⟩ := head
    obtain ⟨here, exit⟩ := reshapes.closed (closed a List.mem_cons_self)
    obtain ⟨rest, edges⟩ := ih fun c later => closed c (List.mem_cons_of_mem _ later)
    refine ⟨List.forall_mem_cons.mpr ⟨here, rest⟩, ?_⟩
    rw [List.map_cons, List.map_cons, edges, Block.edges, Block.edges, targetsExit, targetsExit, exit,
      label]

theorem ofAt (length : bs.length = as.length)
    (same : ∀ (k : Nat) (a b : Block), as[k]? = some a → bs[k]? = some b → Reshaped a b) :
    KeepsExits as bs := by
  refine ofReshaped (List.forall₂_iff_get.mpr ⟨length.symm, fun k left right => ?_⟩)
  exact same k _ _ (List.getElem?_eq_getElem left) (List.getElem?_eq_getElem right)

theorem ofMap {h : Block → Block} (same : ∀ a ∈ as, Reshaped a (h a)) : KeepsExits as (as.map h) :=
  ofReshaped (List.forall₂_map_right_iff.mpr (List.forall₂_same.mpr same))

theorem ofBare (same : bs.map Block.bare = as.map Block.bare) : KeepsExits as bs := by
  have length := congrArg List.length same
  rw [List.length_map, List.length_map] at length
  refine ofAt length fun k a b left right => ?_
  have here := congrArg (·[k]?) same
  simp only [List.getElem?_map, left, right, Option.map_some, Option.some.injEq, Block.bare,
    Block.mapInsts, Block.mk.injEq] at here
  refine ⟨here.1, .ofLeaves ?_⟩
  have bare (i : Inst) : i.bare.leaves? = i.leaves? := rfl
  have leaves := congrArg (List.map Inst.leaves?) here.2.2
  simpa only [List.map_map, Function.comp_def, bare] using leaves

end KeepsExits

def Faithful (f g : Func) : Prop := f.Closed → g.Closed ∧ FlowKept f g

theorem Faithful.ofExits {f g : Func} (same : KeepsExits f.blocks g.blocks)
    (version : g.layoutVersion = f.layoutVersion) : Faithful f g := fun closed => by
  obtain ⟨still, edges⟩ := same closed
  exact ⟨still, .ofEdges version edges⟩

theorem Func.Closed.modify {f : Func} (closed : f.Closed) {h : Block → Block}
    (keeps : ∀ bb, SsaCodegen.Closed bb.insts → SsaCodegen.Closed (h bb).insts) (k : Nat) :
    (f.modifyBlock k h).Closed := fun b inside => by
  obtain ⟨m, located⟩ := List.getElem?_of_mem inside
  rw [Func.modifyBlock, List.getElem?_modify] at located
  obtain ⟨a, old, rfl⟩ := Option.map_eq_some_iff.mp located
  have was := closed a (List.mem_of_getElem? old)
  split
  · exact keeps a was
  · exact was

end SsaCodegen
