import SsaCodegen.Flow.Dominators
import SsaCodegen.Proofs.Flow.Refinement
/-! Rounds of hanging blocks. Climbing ends because each block hangs below an earlier one, and the
rounds end because each that is not the last makes the tree lighter. -/
namespace SsaCodegen

namespace FlowGraph

structure Proper (size : Nat) (g : FlowGraph) : Prop where
  positive : 0 < size
  bounded : Search.Bounded size g.successors
  mirror : ∀ p b, b < size → (p ∈ g.predecessors b ↔ b ∈ g.successors p)

end FlowGraph

namespace DomTree
open Search

theorem aboveSet {t : Parents} {b : Nat} (inside : b < t.length) (m : Nat) :
    Parents.above (t.set b (some m)) = put t.above b m := by
  funext c
  simp only [Parents.above, put, List.getD_eq_getElem?_getD, List.getElem?_set, inside, if_true]
  by_cases same : c = b
  · simp [same]
  · simp [same, Ne.symm same]

namespace Refining
variable {next : Nat → List Nat} {order : List Nat} {place : Nat} {t : Parents}
  (r : Refining next order place t.above) (o : Ordered next 0 order)
include r o

theorem climbs {a b : Nat} (later : order.idxOf b < order.idxOf a) (held : (t.above a).isSome = true) :
    ∃ p, t.above a = some p ∧ (t.above p).isSome = true ∧ order.idxOf p < order.idxOf a ∧
      ∀ x, Up t.above x p ∧ Up t.above x b ↔ Up t.above x a ∧ Up t.above x b := by
  obtain ⟨p, hung⟩ := Option.isSome_iff_exists.mp held
  have inner : a ≠ 0 := fun entry => by simp [entry, o.rootPlace] at later
  obtain ⟨-, held', higher⟩ := r.hangs a p hung inner
  refine ⟨p, hung, held', higher, fun x => and_congr_left fun beyond => ⟨.step hung, fun up => ?_⟩⟩
  refine (up.above hung).resolve_left fun same => ?_
  subst same
  exact absurd (r.notLater beyond) (Nat.not_le_of_lt later)

theorem intersects {steps a b : Nat} (left : (t.above a).isSome = true)
    (right : (t.above b).isSome = true) (enough : order.idxOf a + order.idxOf b < steps) :
    ∃ m, intersect order.idxOf t steps a b = some m ∧
      ∀ x, Up t.above x m ↔ Up t.above x a ∧ Up t.above x b := by
  induction steps generalizing a b with
  | zero => exact absurd enough (Nat.not_lt_zero _)
  | succ steps ih =>
    rw [intersect]
    split
    · rename_i same
      exact ⟨a, rfl, fun x => by rw [same, and_self]⟩
    rename_i apart
    split
    · rename_i later
      obtain ⟨p, hung, held, higher, same⟩ := r.climbs o later left
      obtain ⟨m, meets, beyond⟩ := ih held right (by omega)
      exact ⟨m, by rw [hung, Option.bind_some, meets], fun x => (beyond x).trans (same x)⟩
    split
    · rename_i later
      obtain ⟨p, hung, held, higher, same⟩ := r.climbs o later right
      obtain ⟨m, meets, beyond⟩ := ih left held (by omega)
      refine ⟨m, by rw [hung, Option.bind_some, meets], fun x => (beyond x).trans ?_⟩
      exact and_comm.trans ((same x).trans and_comm)
    · exact absurd (o.same (r.reached left) (by omega)) apart

theorem meetsWith (preds : List Nat) {d : Nat} (held : (t.above d).isSome = true) :
    ∃ m, meet order.idxOf t preds (some d) = some (some m) ∧ ∀ x, Up t.above x m ↔
      Up t.above x d ∧ ∀ q ∈ preds, (t.above q).isSome = true → Up t.above x q := by
  induction preds generalizing d with
  | nil => exact ⟨d, rfl, fun x => by simp⟩
  | cons p rest ih =>
    cases hung : t.above p with
    | none =>
      obtain ⟨m, meets, beyond⟩ := ih held
      exact ⟨m, by simp only [meet, hung, meets], fun x => by simp [beyond x, hung]⟩
    | some _ =>
      have left : (t.above p).isSome = true := hung ▸ rfl
      obtain ⟨c, climbed, between⟩ := r.intersects o left held (Nat.lt_succ_self _)
      obtain ⟨m, meets, beyond⟩ := ih (r.heldAbove ((between c).mp .self).1 left)
      refine ⟨m, by simp only [meet, hung, climbed, Option.bind_some, meets], fun x => ?_⟩
      rw [beyond x, between x, List.forall_mem_cons, and_comm (b := Up t.above x d), and_assoc]
      simp only [left, forall_const]

theorem meetsAll {preds : List Nat} (present : ∃ q ∈ preds, (t.above q).isSome = true) :
    ∃ m, meet order.idxOf t preds none = some (some m) ∧ ∀ x, Up t.above x m ↔
      ∀ q ∈ preds, (t.above q).isSome = true → Up t.above x q := by
  induction preds with
  | nil => exact absurd present (by simp)
  | cons p rest ih =>
    cases hung : t.above p with
    | none =>
      obtain ⟨m, meets, beyond⟩ := ih (by simpa [hung] using present)
      exact ⟨m, by simp only [meet, hung, meets], fun x => by simp [beyond x, hung]⟩
    | some _ =>
      obtain ⟨m, meets, beyond⟩ := r.meetsWith o rest (hung ▸ rfl : (t.above p).isSome = true)
      exact ⟨m, by simp only [meet, hung, meets], fun x => by simp [beyond x, hung]⟩

end Refining

structure Swept (g : FlowGraph) (order rest : List Nat) (t u : Parents) (changed : Bool) : Prop where
  length : u.length = t.length
  refining : Refining g.successors order order.length u.above
  lighter : changed = true → weight order u.above < weight order t.above
  same : changed = false → u = t
  fixed : changed = false → ∀ b ∈ rest, ∃ m, t.above b = some m ∧ Meeting g.successors t.above b m

theorem Swept.notHeavier {g : FlowGraph} {order rest : List Nat} {t u : Parents} {changed : Bool}
    (s : Swept g order rest t u changed) : weight order u.above ≤ weight order t.above := by
  cases changed with
  | true => exact Nat.le_of_lt (s.lighter rfl)
  | false => exact Nat.le_of_eq (congrArg (weight order ·.above) (s.same rfl))

structure Settled (g : FlowGraph) (order : List Nat) (t : Parents) : Prop where
  refining : Refining g.successors order order.length t.above
  fixed : ∀ b, Reached g.successors [0] [] b → b ≠ 0 →
    ∃ m, t.above b = some m ∧ Meeting g.successors t.above b m

section
variable {size : Nat} {g : FlowGraph} (proper : g.Proper size) {order : List Nat}
  (o : Ordered g.successors 0 order)
include proper

theorem reachedInside {b : Nat} {barrier : List Nat} (reached : Reached g.successors [0] barrier b) :
    b < size := by
  cases reached with
  | root found free => exact List.mem_singleton.mp found ▸ proper.positive
  | step before edge free => exact proper.bounded _ _ edge

include o

theorem Refining.found {done rest : List Nat} {b : Nat} (split : order = done ++ b :: rest)
    (opened : done ≠ []) {t : Parents} (r : Refining g.successors order done.length t.above) :
    ∃ m, meet order.idxOf t (g.predecessors b) none = some (some m) ∧
      Moving g.successors order done.length t.above b m := by
  have here := (o.place split).1
  have listed : b ∈ order := split ▸ List.mem_append_right _ List.mem_cons_self
  have reached := (o.mem b).mp listed
  have inner : b ≠ 0 := fun entry => opened (List.length_eq_zero_iff.mp
    (here.symm.trans (entry ▸ o.rootPlace)))
  have mirror (q : Nat) := proper.mirror q b (reachedInside proper reached)
  obtain ⟨q, origin, edge, earlier⟩ := o.edge reached inner
  obtain ⟨m, meets, beyond⟩ := r.meetsAll o ⟨q, (mirror q).mpr edge, r.done q origin (here ▸ earlier)⟩
  refine ⟨m, meets, here, reached, inner, fun x => (beyond x).trans ?_⟩
  exact forall_congr' fun q => by rw [mirror q]; exact forall_comm

theorem sweeps {done rest : List Nat} (split : order = done ++ rest) (opened : done ≠ [])
    {t : Parents} (length : t.length = size)
    (r : Refining g.successors order done.length t.above) :
    ∃ u changed, sweep order.idxOf g rest t = some (u, changed) ∧ Swept g order rest t u changed := by
  induction rest generalizing done t with
  | nil =>
    have whole : done.length = order.length := by rw [split, List.append_nil]
    exact ⟨t, false, rfl, rfl, whole ▸ r, nofun, fun _ => rfl, fun _ => nofun⟩
  | cons b rest ih =>
    obtain ⟨m, meets, moving⟩ := r.found proper o split opened
    have split' : order = (done ++ [b]) ++ rest := by rw [split, List.append_assoc]; rfl
    have next : Refining g.successors order (done ++ [b]).length (put t.above b m) := by
      rw [List.length_append]
      exact r.moved o moving
    simp only [sweep, meets, Option.bind_some]
    split
    · rename_i hung
      have same : put t.above b m = t.above := funext fun c => by
        unfold put
        split
        · rename_i here
          rw [here, hung]
        · rfl
      obtain ⟨u, changed, goes, s⟩ := ih split' (by simp) length (same ▸ next)
      refine ⟨u, changed, goes, s.length, s.refining, s.lighter, s.same, fun no => ?_⟩
      exact List.forall_mem_cons.mpr ⟨⟨m, hung, moving.meeting⟩, s.fixed no⟩
    · rename_i other
      have inside : b < t.length := length ▸ reachedInside proper moving.reached
      have beyond := aboveSet inside m
      obtain ⟨u, changed, goes, s⟩ := ih split' (by simp) (by rw [List.length_set, length]) (beyond ▸ next)
      have lighter := r.lighter o moving other
      rw [← beyond] at lighter
      refine ⟨u, true, by rw [goes]; rfl, ?_⟩
      exact ⟨s.length.trans (List.length_set ..), s.refining,
        fun _ => Nat.lt_of_le_of_lt s.notHeavier lighter, nofun, nofun⟩

theorem refines {rounds : Nat} {t : Parents} (length : t.length = size)
    (r : Refining g.successors order 1 t.above) (enough : weight order t.above < rounds) :
    ∃ u, refine order.idxOf g order.tail rounds t = some u ∧ u.length = size ∧ Settled g order u := by
  induction rounds generalizing t with
  | zero => exact absurd enough (Nat.not_lt_zero _)
  | succ rounds ih =>
    obtain ⟨rest, opens⟩ := List.head?_eq_some_iff.mp o.rootFirst
    have split : order = [0] ++ rest := opens
    obtain ⟨u, changed, goes, s⟩ := sweeps proper o split (by simp) length r
    have tail : order.tail = rest := by rw [opens, List.tail_cons]
    rw [refine, tail, goes, Option.bind_some]
    cases changed with
    | true =>
      exact tail ▸ ih (s.length.trans length) (s.refining.again o)
        (Nat.lt_of_lt_of_le (s.lighter rfl) (Nat.le_of_lt_succ enough))
    | false =>
      obtain rfl := s.same rfl
      refine ⟨u, rfl, length, s.refining, fun b reached inner => s.fixed rfl b ?_⟩
      exact (List.mem_cons.mp (opens ▸ (o.mem b).mpr reached)).resolve_left inner

end

theorem ordered {size : Nat} {g : FlowGraph} (proper : g.Proper size) :
    Ordered g.successors 0 (blockOrder size g) := by
  rw [blockOrder, if_neg (Nat.ne_of_gt proper.positive)]
  exact orderedPostorder proper.bounded proper.positive

theorem Refining.start {size : Nat} {g : FlowGraph} (proper : g.Proper size) :
    Refining g.successors (blockOrder size g) 1
      (Parents.above ((List.replicate size none).set 0 (some 0))) := by
  have o := ordered proper
  have above (b : Nat) : Parents.above ((List.replicate size none).set 0 (some 0)) b =
      if b = 0 then some 0 else none := by
    rw [aboveSet (by rw [List.length_replicate]; exact proper.positive)]
    unfold put
    split
    · rfl
    · rw [Parents.above, List.getD_eq_getElem?_getD, List.getElem?_replicate]
      split <;> rfl
  have nothing {b p : Nat} (hung : Parents.above ((List.replicate size none).set 0 (some 0)) b = some p)
      (inner : b ≠ 0) : False := by
    rw [above, if_neg inner] at hung
    cases hung
  refine ⟨above 0, fun b p hung inner => (nothing hung inner).elim, fun b held d passes => ?_,
    fun b p hung inner => (nothing hung inner).elim, fun b p hung inner => (nothing hung inner).elim,
    fun b p hung inner => (nothing hung inner).elim, fun b reached earlier => ?_⟩
  · obtain ⟨p, hung⟩ := Option.isSome_iff_exists.mp held
    by_cases entry : b = 0
    · subst entry
      exact passes.atRoot ▸ .self
    · exact (nothing hung entry).elim
  · have entry : b = 0 := o.same reached (by rw [o.rootPlace]; omega)
    rw [entry, above]
    rfl

theorem computes {size : Nat} {g : FlowGraph} (proper : g.Proper size) :
    ∃ t : Parents, compute? size g = some ⟨blockOrder size g, t.set 0 none,
        (blockOrder size g).tail.foldl (hang (t.set 0 none)) (List.replicate size [])⟩ ∧
      t.length = size ∧ Settled g (blockOrder size g) t := by
  obtain ⟨t, goes, length, settled⟩ := refines proper (ordered proper)
    (by rw [List.length_set, List.length_replicate]) (Refining.start proper)
    (Nat.lt_succ_of_le (weightBounded ..))
  exact ⟨t, by rw [compute?, goes]; rfl, length, settled⟩

end DomTree
end SsaCodegen
