import Mathlib.Data.List.Cycle
import Mathlib.Data.Set.Card
import SsaCodegen.X64.ParallelCopy
/-! Cycles of copies: rings of different places, each of which takes its value from the next. A copy
onto itself makes no ring, and neither does one that nothing reads back. -/
namespace SsaCodegen.X64.ParallelCopy

def Takes (copies : List Copy) (a b : Nat) : Prop := ∃ c ∈ copies, c.dst = a ∧ c.src = b

def cycles (copies : List Copy) : Set (Cycle Nat) :=
  { ring | ring.Nontrivial ∧ ring.Nodup ∧ ring.Chain (Takes copies) }

section Rings
variable {r t : Nat → Nat → Prop} {ring other : Cycle Nat}

theorem ringFrom {a : Nat} (inside : a ∈ ring) : ∃ l : List Nat, ring = (a :: l : List Nat) := by
  induction ring using Quotient.inductionOn with
  | h l =>
    obtain ⟨before, after, rfl⟩ := List.append_of_mem (Cycle.mem_coe_iff.mp inside)
    exact ⟨after ++ before, Cycle.coe_eq_coe.mpr List.isRotated_append⟩

theorem ringNext (chain : ring.Chain r) {a : Nat} (inside : a ∈ ring) : ∃ b ∈ ring, r a b := by
  obtain ⟨l, rfl⟩ := ringFrom inside
  cases l with
  | nil => exact ⟨a, inside, (Cycle.chain_singleton r a).mp chain⟩
  | cons b l => exact ⟨b, by simp, (List.isChain_cons_cons.mp (Cycle.chain_coe_cons r a _ |>.mp chain)).1⟩

theorem ringBefore (chain : ring.Chain r) {a : Nat} (inside : a ∈ ring) : ∃ b ∈ ring, r b a := by
  obtain ⟨l, rfl⟩ := ringFrom inside
  rcases List.eq_nil_or_concat l with rfl | ⟨init, b, rfl⟩
  · exact ⟨a, inside, (Cycle.chain_singleton r a).mp chain⟩
  · rw [List.concat_eq_append] at chain ⊢
    have chain : List.IsChain r ((a :: init) ++ b :: a :: []) := by
      simpa using (Cycle.chain_coe_cons r a _).mp chain
    exact ⟨b, by simp, (List.isChain_append_cons_cons.mp chain).2.1⟩

theorem chainOn (chain : ring.Chain r) (all : ∀ a ∈ ring, ∀ b ∈ ring, r a b → t a b) : ring.Chain t := by
  induction ring using Cycle.induction_on with
  | nil => exact .nil t
  | cons a l _ =>
    refine List.IsChain.imp_of_mem_imp (fun b c left right => ?_) chain
    have listed (k : Nat) (inside : k ∈ a :: (l ++ [a])) : k ∈ ((a :: l : List Nat) : Cycle Nat) := by
      simpa [or_comm, or_assoc] using inside
    exact all b (listed b left) c (listed c right)

theorem chainHands {P : Nat → Prop} (hands : ∀ a b, P a → r a b → t a b ∧ P b) {l : List Nat} {x : Nat}
    (first : P x) (chain : List.IsChain r (x :: l)) : List.IsChain t (x :: l) := by
  induction l generalizing x with
  | nil => exact .singleton x
  | cons y l ih =>
    obtain ⟨link, chain⟩ := List.isChain_cons_cons.mp chain
    obtain ⟨also, next⟩ := hands x y first link
    exact List.isChain_cons_cons.mpr ⟨also, ih next chain⟩

theorem waysAgree (next : ∀ a b c, r a b → r a c → b = c) {x a : Nat} {l m : List Nat}
    (left : List.IsChain r (x :: (l ++ [a]))) (right : List.IsChain r (x :: (m ++ [a])))
    (early : a ∉ l) (late : a ∉ m) : l = m := by
  induction l generalizing x m with
  | nil =>
    cases m with
    | nil => rfl
    | cons y m =>
      have same := next x _ _ (List.isChain_cons_cons.mp left).1 (List.isChain_cons_cons.mp right).1
      exact absurd (same ▸ List.mem_cons_self) late
  | cons y l ih =>
    obtain ⟨first, left⟩ := List.isChain_cons_cons.mp left
    cases m with
    | nil =>
      have same := next x _ _ first (List.isChain_cons_cons.mp right).1
      exact absurd (same ▸ List.mem_cons_self) early
    | cons z m =>
      obtain ⟨also, right⟩ := List.isChain_cons_cons.mp right
      cases next x _ _ first also
      rw [ih left right (mt (List.mem_cons_of_mem y) early) (mt (List.mem_cons_of_mem y) late)]

theorem ringsAgree (next : ∀ a b c, r a b → r a c → b = c) (left : ring.Chain r) (right : other.Chain r)
    (once : ring.Nodup) (also : other.Nodup) {a : Nat} (inside : a ∈ ring) (shared : a ∈ other) :
    ring = other := by
  obtain ⟨l, rfl⟩ := ringFrom inside
  obtain ⟨m, rfl⟩ := ringFrom shared
  rw [waysAgree next left right (List.nodup_cons.mp once).1 (List.nodup_cons.mp also).1]

end Rings

theorem takesOne {copies : List Copy} (written : (copies.map Copy.dst).Nodup) (a b c : Nat)
    (left : Takes copies a b) (right : Takes copies a c) : b = c := by
  obtain ⟨d, inside, dst, rfl⟩ := left
  obtain ⟨e, there, same, rfl⟩ := right
  rw [List.inj_on_of_nodup_map written inside there (dst.trans same.symm)]

theorem cyclesMono {present all : List Copy} (part : ∀ c ∈ present, c ∈ all) : cycles present ⊆ cycles all :=
  fun _ ⟨nontrivial, once, chain⟩ =>
    ⟨nontrivial, once, chain.imp fun _ _ ⟨c, inside, takes⟩ => ⟨c, part c inside, takes⟩⟩

theorem cyclesPerm {copies others : List Copy} (same : copies.Perm others) :
    cycles copies = cycles others :=
  Set.Subset.antisymm (cyclesMono fun _ => same.mem_iff.mp) (cyclesMono fun _ => same.mem_iff.mpr)

theorem cyclesUnread {c : Copy} {rest : List Copy} (unread : ∀ d ∈ c :: rest, d.src ≠ c.dst) :
    cycles (c :: rest) = cycles rest := by
  refine Set.Subset.antisymm (fun ring ⟨nontrivial, once, chain⟩ => ?_)
    (cyclesMono fun _ => List.mem_cons_of_mem c)
  refine ⟨nontrivial, once, chainOn chain fun a inside b _ ⟨d, listed, dst, src⟩ => ?_⟩
  rcases List.mem_cons.mp listed with rfl | listed
  · obtain ⟨_, -, e, reads, -, same⟩ := ringBefore chain inside
    exact absurd (same.trans dst.symm) (unread e reads)
  · exact ⟨d, listed, dst, src⟩

inductive Walk : Nat → List Copy → Nat → Prop where
  | stop {k} : Walk k [] k
  | step {c walk last} (rest : Walk c.src walk last) : Walk c.dst (c :: walk) last

namespace Walk

theorem chain {copies walk : List Copy} {first last start : Nat} (goes : Walk first walk last)
    (part : ∀ c ∈ walk, c ∈ copies) (closes : Takes copies last start) :
    List.IsChain (Takes copies) (first :: (walk.map Copy.src ++ [start])) := by
  induction goes with
  | stop => exact List.isChain_pair.mpr closes
  | @step c walk last rest ih =>
    refine List.isChain_cons_cons.mpr ⟨⟨c, part c List.mem_cons_self, rfl, rfl⟩, ?_⟩
    exact ih (fun d inside => part d (List.mem_cons_of_mem c inside)) closes

theorem ends {walk : List Copy} {first last : Nat} (goes : Walk first walk last) :
    last ∈ first :: walk.map Copy.src := by
  induction goes with
  | stop => exact List.mem_cons_self
  | step _ ih => exact List.mem_cons_of_mem _ ih

end Walk

section Removal
variable {copies walk rest : List Copy} {c : Copy} (all : copies.Perm (c :: walk ++ rest))
  (read : (copies.map Copy.src).Nodup) (other : c.src ≠ c.dst) (goes : Walk c.src walk c.dst)
include all read other goes

theorem ringFound : (((c :: walk).map Copy.src : List Nat) : Cycle Nat) ∈ cycles copies := by
  have inside (d : Copy) (listed : d ∈ c :: walk) : d ∈ copies :=
    all.mem_iff.mpr (List.mem_append_left rest listed)
  have once : ((c :: walk).map Copy.src).Nodup := by
    have sources := (all.map Copy.src).nodup_iff.mp read
    rw [List.map_append] at sources
    exact (List.nodup_append.mp sources).1
  refine ⟨⟨c.src, c.dst, other, by simp, ?_⟩, once, ?_⟩
  · exact Cycle.mem_coe_iff.mpr goes.ends
  · exact goes.chain (fun d listed => inside d (List.mem_cons_of_mem c listed))
      ⟨c, inside c List.mem_cons_self, rfl, rfl⟩

theorem cyclesWalk (written : (copies.map Copy.dst).Nodup) :
    ∃ ring, ring ∉ cycles rest ∧ cycles copies = insert ring (cycles rest) := by
  have found := ringFound all read other goes
  have apart (d e : Copy) (left : d ∈ c :: walk) (right : e ∈ rest) : d.src ≠ e.src := by
    have sources := (all.map Copy.src).nodup_iff.mp read
    rw [List.map_append] at sources
    exact (List.nodup_append.mp sources).2.2 _ (List.mem_map_of_mem left) _ (List.mem_map_of_mem right)
  refine ⟨((c :: walk).map Copy.src : List Nat), fun stays => ?_, Set.Subset.antisymm (fun ring cyclic => ?_) ?_⟩
  · obtain ⟨b, listed, e, inside, -, rfl⟩ := ringNext stays.2.2 (Cycle.mem_coe_iff.mpr List.mem_cons_self)
    obtain ⟨d, left, same⟩ := List.mem_map.mp (Cycle.mem_coe_iff.mp listed)
    exact apart d e left inside same
  · by_cases meets : ∃ a ∈ ring, a ∈ (c :: walk).map Copy.src
    · obtain ⟨a, inside, shared⟩ := meets
      exact .inl (ringsAgree (takesOne written) cyclic.2.2 found.2.2 cyclic.2.1 found.2.1 inside shared)
    · refine .inr ⟨cyclic.1, cyclic.2.1, chainOn cyclic.2.2 fun a _ b listed ⟨d, inside, dst, src⟩ => ?_⟩
      rcases List.mem_append.mp (all.mem_iff.mp inside) with walked | stays
      · exact absurd ⟨b, listed, List.mem_map.mpr ⟨d, walked, src⟩⟩ meets
      · exact ⟨d, stays, dst, src⟩
  · refine Set.insert_subset found (cyclesMono fun d stays => ?_)
    exact all.mem_iff.mpr (List.mem_append_right _ stays)

end Removal

end SsaCodegen.X64.ParallelCopy
