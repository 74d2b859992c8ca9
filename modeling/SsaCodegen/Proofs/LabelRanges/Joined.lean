import Mathlib.Data.List.Chain
import Mathlib.Data.List.Induction
import SsaCodegen.X64.LabelRanges
/-! Ranges joined one after another. A range that is added is looked at beside the last one only, so what is joined
covers what was there, never has two neighbours that meet, and comes in the order in which the ranges came. -/
namespace SsaCodegen.X64

namespace LocationRange

def Contains (r : LocationRange) (offset : Nat) : Prop := r.start ≤ offset ∧ offset < r.stop

def Meets (a b : LocationRange) : Prop := a.location = b.location ∧ a.stop = b.start

end LocationRange

namespace LabelRanges
open LocationRange

def joined (ranges : List LocationRange) : List LocationRange := ranges.foldl appendRange []

theorem appendRangeCases (init : List LocationRange) (last r : LocationRange) :
    (last.Meets r ∧ appendRange (init ++ [last]) r = init ++ [{ last with stop := r.stop }]) ∨
      (¬ last.Meets r ∧ appendRange (init ++ [last]) r = (init ++ [last]) ++ [r]) := by
  unfold appendRange Meets
  rw [List.getLast?_concat, List.dropLast_concat]
  by_cases meets : last.location = r.location ∧ last.stop = r.start
  · exact .inl ⟨meets, if_pos (by simpa using meets)⟩
  · exact .inr ⟨meets, if_neg (by simpa using meets)⟩

structure Joins (ranges found : List LocationRange) : Prop where
  proper : ∀ r ∈ found, r.start < r.stop
  apart : found.IsChain fun a b => ¬ a.Meets b
  starts : (found.map LocationRange.start).Sublist (ranges.map LocationRange.start)
  ends : ∀ r ∈ found, ∃ a ∈ ranges, a.location = r.location ∧ a.stop = r.stop
  ordered : ranges.Pairwise (fun a b => a.stop ≤ b.start) → found.Pairwise fun a b => a.stop ≤ b.start
  covers : ∀ place offset, (∃ r ∈ found, r.location = place ∧ r.Contains offset) ↔
    ∃ a ∈ ranges, a.location = place ∧ a.Contains offset

namespace Joins
variable {ranges : List LocationRange}

theorem none : Joins [] [] where
  proper := List.forall_mem_nil _
  apart := .nil
  starts := .refl _
  ends := List.forall_mem_nil _
  ordered := id
  covers _ _ := .rfl

theorem adds {found : List LocationRange} (joins : Joins ranges found) {r : LocationRange}
    (proper : r.start < r.stop) (apart : ∀ last ∈ found.getLast?, ¬ last.Meets r) :
    Joins (ranges ++ [r]) (found ++ [r]) where
  proper := List.forall_mem_append.mpr ⟨joins.proper, List.forall_mem_singleton.mpr proper⟩
  apart := joins.apart.append (.singleton r) fun last now first same => by
    cases same
    exact apart last now
  starts := by
    rw [List.map_append, List.map_append]
    exact joins.starts.append (.refl _)
  ends := by
    intro a listed
    rcases List.mem_append.mp listed with old | new
    · obtain ⟨b, inside, same⟩ := joins.ends a old
      exact ⟨b, List.mem_append_left _ inside, same⟩
    · exact ⟨a, List.mem_append_right _ new, rfl, rfl⟩
  ordered ordered := by
    rw [List.pairwise_append] at ordered ⊢
    refine ⟨joins.ordered ordered.1, List.pairwise_singleton _ _, fun a listed b new => ?_⟩
    obtain ⟨source, inside, -, stop⟩ := joins.ends a listed
    exact stop ▸ ordered.2.2 source inside b new
  covers place offset := by
    simp only [List.mem_append, or_and_right, exists_or, joins.covers place offset]

theorem extendsLast {init : List LocationRange} {last r : LocationRange} (joins : Joins ranges (init ++ [last]))
    (proper : r.start < r.stop) (meets : last.Meets r) :
    Joins (ranges ++ [r]) (init ++ [{ last with stop := r.stop }]) := by
  obtain ⟨place, next⟩ := meets
  obtain ⟨earlier, before⟩ := List.forall_mem_append.mp joins.proper
  have before := List.forall_mem_singleton.mp before
  refine ⟨?_, ?_, ?_, ?_, fun ordered => ?_, fun home offset => ?_⟩
  · refine List.forall_mem_append.mpr ⟨earlier, List.forall_mem_singleton.mpr ?_⟩
    dsimp only
    omega
  · have chain := List.isChain_append.mp joins.apart
    refine List.isChain_append.mpr ⟨chain.1, .singleton _, fun a now b first => ?_⟩
    cases first
    exact chain.2.2 a now last rfl
  · rw [List.map_append, List.map_append]
    have same := joins.starts
    rw [List.map_append] at same
    exact same.trans (List.sublist_append_left _ _)
  · intro a listed
    rcases List.mem_append.mp listed with old | new
    · obtain ⟨b, inside, same⟩ := joins.ends a (List.mem_append_left _ old)
      exact ⟨b, List.mem_append_left _ inside, same⟩
    · cases List.mem_singleton.mp new
      exact ⟨r, List.mem_append_right _ (List.mem_singleton_self r), place.symm, rfl⟩
  · have old := joins.ordered (List.pairwise_append.mp ordered).1
    rw [List.pairwise_append] at old ⊢
    refine ⟨old.1, List.pairwise_singleton _ _, fun a listed b now => ?_⟩
    cases List.mem_singleton.mp now
    exact old.2.2 a listed last (List.mem_singleton_self last)
  · have old := joins.covers home offset
    simp only [List.mem_append, List.mem_singleton, or_and_right, exists_or, exists_eq_left, Contains] at old ⊢
    rw [← old]
    -- the two ranges together hold what the longer one holds
    have both : (last.location = home ∧ last.start ≤ offset ∧ offset < r.stop) ↔
        (last.location = home ∧ last.start ≤ offset ∧ offset < last.stop) ∨
          (r.location = home ∧ r.start ≤ offset ∧ offset < r.stop) := by
      rw [← place, ← and_or_left]
      refine and_congr_right fun _ => ?_
      omega
    rw [both, or_assoc]

theorem step {found : List LocationRange} (joins : Joins ranges found) {r : LocationRange}
    (proper : r.start < r.stop) : Joins (ranges ++ [r]) (appendRange found r) := by
  rcases List.eq_nil_or_concat found with rfl | ⟨init, last, rfl⟩
  · exact joins.adds proper fun last absent => nomatch absent
  · rw [List.concat_eq_append] at joins ⊢
    rcases appendRangeCases init last r with ⟨meets, same⟩ | ⟨apart, same⟩
    · exact same ▸ joins.extendsLast proper meets
    · refine same ▸ joins.adds proper fun a now => ?_
      rw [List.getLast?_concat] at now
      cases now
      exact apart

end Joins

theorem joins {ranges : List LocationRange} (proper : ∀ r ∈ ranges, r.start < r.stop) :
    Joins ranges (joined ranges) := by
  induction ranges using List.reverseRecOn with
  | nil => exact .none
  | append_singleton before r ih =>
    obtain ⟨earlier, last⟩ := List.forall_mem_append.mp proper
    rw [joined, List.foldl_append]
    exact (ih earlier).step (last r (List.mem_singleton_self r))

theorem Joins.gaps {ranges found : List LocationRange} (joins : Joins ranges found) {place : Location}
    (one : ∀ r ∈ found, r.location = place) (ordered : ranges.Pairwise fun a b => a.stop ≤ b.start) :
    found.Pairwise fun a b => a.stop < b.start := by
  have behind := joins.ordered ordered
  have apart := joins.apart
  have proper := joins.proper
  clear joins ordered
  induction found with
  | nil => exact .nil
  | cons a rest ih =>
    obtain ⟨here, others⟩ := List.forall_mem_cons.mp one
    obtain ⟨first, later⟩ := List.pairwise_cons.mp behind
    obtain ⟨-, proper'⟩ := List.forall_mem_cons.mp proper
    have gaps := ih others later apart.tail proper'
    refine List.pairwise_cons.mpr ⟨fun c listed => ?_, gaps⟩
    cases rest with
    | nil => cases listed
    | cons b more =>
      have differ : ¬ a.Meets b := (List.isChain_cons_cons.mp apart).1
      have next : a.stop < b.start := Nat.lt_of_le_of_ne (first b List.mem_cons_self) fun touch =>
        differ ⟨here.trans (others b List.mem_cons_self).symm, touch⟩
      rcases List.mem_cons.mp listed with rfl | further
      · exact next
      · have inside := proper' b List.mem_cons_self
        have beyond := (List.pairwise_cons.mp gaps).1 c further
        omega

end LabelRanges
end SsaCodegen.X64
