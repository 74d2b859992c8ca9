import Mathlib.Data.List.Basic
import SsaCodegen.Proofs.Flow.Search
/-! Hanging blocks below others. A round keeps a tree in which whatever dominates a block is
above it, and in which the predecessors of a block meet above it: a block that moves, moves up.
Once no block moves, only its dominators are above a block. -/
namespace SsaCodegen.Search

theorem Passes.before {next : Nat → List Nat} {root a p b : Nat} (passes : Passes next root a b)
    (edge : b ∈ next p) (other : a ≠ b) : Passes next root a p :=
  fun around => passes (.step around edge (by simpa using Ne.symm other))

theorem Passes.atRoot {next : Nat → List Nat} {root a : Nat} (passes : Passes next root a root) :
    a = root := Classical.byContradiction fun other =>
  passes (.root List.mem_cons_self (by simpa using Ne.symm other))

namespace Ordered
variable {next : Nat → List Nat} {root : Nat} {order : List Nat} (o : Ordered next root order)
include o

theorem place {before after : List Nat} {b : Nat} (split : order = before ++ b :: after) :
    order.idxOf b = before.length ∧ ∀ a ∈ before, order.idxOf a < order.idxOf b := by
  have once := o.once
  subst split
  have late : b ∉ before := fun inside =>
    (List.nodup_append.mp once).2.2 b inside b List.mem_cons_self rfl
  have own : (before ++ b :: after).idxOf b = before.length := by
    rw [List.idxOf_append, if_neg late, List.idxOf_cons_self, Nat.zero_add]
  refine ⟨own, fun a earlier => ?_⟩
  rw [own, List.idxOf_append, if_pos earlier]
  exact List.idxOf_lt_length_iff.mpr earlier

theorem same {a b : Nat} (left : Reached next [root] [] a) (place : order.idxOf a = order.idxOf b) :
    a = b := (List.idxOf_inj ((o.mem a).mpr left)).mp place

theorem passes {a b : Nat} (reached : Reached next [root] [] b) (passes : Passes next root a b) :
    a = b ∨ order.idxOf a < order.idxOf b := by
  obtain ⟨before, after, split⟩ := List.append_of_mem ((o.mem b).mpr reached)
  exact (o.dominators before b after split a passes).imp_right ((o.place split).2 a)

theorem edge {b : Nat} (reached : Reached next [root] [] b) (other : b ≠ root) :
    ∃ p, Reached next [root] [] p ∧ b ∈ next p ∧ order.idxOf p < order.idxOf b := by
  obtain ⟨before, after, split⟩ := List.append_of_mem ((o.mem b).mpr reached)
  obtain ⟨p, earlier, edge⟩ := (o.entered before b after split).resolve_left other
  exact ⟨p, (o.mem p).mp (split ▸ List.mem_append_left _ earlier), edge, (o.place split).2 p earlier⟩

theorem rootFirst : order.head? = some root := by
  have reached : Reached next [root] [] root := .root List.mem_cons_self List.not_mem_nil
  match heads : order with
  | [] => exact absurd ((o.mem root).mpr reached) List.not_mem_nil
  | first :: rest =>
    have start : Reached next [root] [] first := (o.mem first).mp List.mem_cons_self
    have passes : Passes next root root first := fun around => by
      have free (b : Nat) (reached : Reached next [root] [root] b) : False := by
        induction reached with
        | root start free => exact free start
        | step before edge free ih => exact ih
      exact free first around
    rcases o.dominators [] first rest rfl root passes with same | absent
    · rw [same]
      rfl
    · cases absent

theorem rootPlace : order.idxOf root = 0 := by
  obtain ⟨rest, rfl⟩ := List.head?_eq_some_iff.mp o.rootFirst
  exact List.idxOf_cons_self

end Ordered
end SsaCodegen.Search

namespace SsaCodegen.DomTree
open Search

inductive Up (t : Nat → Option Nat) (a : Nat) : Nat → Prop where
  | self : Up t a a
  | step {b p} (above : t b = some p) (up : Up t a p) : Up t a b

namespace Up
variable {t u : Nat → Option Nat} {a b c : Nat}

theorem trans (upper : Up t a b) (lower : Up t b c) : Up t a c := by
  induction lower with
  | self => exact upper
  | step above _ ih => exact .step above ih

theorem linear (left : Up t a c) (right : Up t b c) : Up t a b ∨ Up t b a := by
  induction left with
  | self => exact .inr right
  | step above up ih =>
    cases right with
    | self => exact .inl (.step above up)
    | step above' up' =>
      cases above.symm.trans above'
      exact ih up'

theorem above {p : Nat} (up : Up t a b) (hangs : t b = some p) : a = b ∨ Up t a p := by
  cases up with
  | self => exact .inl rfl
  | step above up =>
    cases hangs.symm.trans above
    exact .inr up

@[elab_as_elim]
theorem induct {a : Nat} (root : t 0 = some 0) {motive : (b : Nat) → Up t a b → Prop}
    (self : motive a .self)
    (step : ∀ b p (above : t b = some p) (up : Up t a p), b ≠ 0 → motive p up →
      motive b (.step above up)) {b : Nat} (up : Up t a b) : motive b up := by
  induction up with
  | self => exact self
  | @step b p above up ih =>
    by_cases entry : b = 0
    · subst entry
      cases root.symm.trans above
      exact ih
    · exact step b p above up entry ih

end Up

def put (t : Nat → Option Nat) (b m : Nat) : Nat → Option Nat := fun c => if c = b then some m else t c

theorem putSelf (t : Nat → Option Nat) (b m : Nat) : put t b m b = some m := if_pos rfl

theorem putOther {t : Nat → Option Nat} {b m c : Nat} (apart : c ≠ b) : put t b m c = t c := if_neg apart

theorem putHeld {t : Nat → Option Nat} {b m c : Nat} (held : (t c).isSome = true) :
    (put t b m c).isSome = true := by
  unfold put
  split
  · rfl
  · exact held

section
variable (next : Nat → List Nat) (order : List Nat)

def Meeting (t : Nat → Option Nat) (b m : Nat) : Prop :=
  ∀ x, Up t x m ↔ ∀ q, (t q).isSome = true → b ∈ next q → Up t x q

structure Moving (place : Nat) (t : Nat → Option Nat) (b m : Nat) : Prop where
  here : order.idxOf b = place
  reached : Reached next [0] [] b
  inner : b ≠ 0
  meeting : Meeting next t b m

structure Refining (place : Nat) (t : Nat → Option Nat) : Prop where
  root : t 0 = some 0
  hangs : ∀ b p, t b = some p → b ≠ 0 → Reached next [0] [] b ∧ (t p).isSome = true ∧
    order.idxOf p < order.idxOf b
  bound : ∀ b, (t b).isSome = true → ∀ d, Passes next 0 d b → Up t d b
  lifts : ∀ b p, t b = some p → b ≠ 0 → ∀ d, Passes next 0 d b → order.idxOf d < order.idxOf p →
    Passes next 0 d p
  meets : ∀ b p, t b = some p → b ≠ 0 → ∀ x,
    (∀ q, (t q).isSome = true → b ∈ next q → Up t x q) → Up t x p
  near : ∀ b p, t b = some p → b ≠ 0 → order.idxOf b < place ∨ place ≤ order.idxOf p →
    ∃ q, b ∈ next q ∧ (t q).isSome = true ∧ order.idxOf q < order.idxOf b ∧ Up t p q
  done : ∀ b, Reached next [0] [] b → order.idxOf b < place → (t b).isSome = true

end

def height (order : List Nat) : Option Nat → Nat
  | none => order.length
  | some p => order.idxOf p

theorem heightBounded (order : List Nat) : (p : Option Nat) → height order p ≤ order.length
  | none => Nat.le_refl _
  | some _ => List.idxOf_le_length

def weightOf (order : List Nat) (t : Nat → Option Nat) : List Nat → Nat
  | [] => 0
  | b :: rest => height order (t b) + weightOf order t rest

def weight (order : List Nat) (t : Nat → Option Nat) : Nat := weightOf order t order

section
variable {order : List Nat} {t u : Nat → Option Nat}

theorem weightBounded (blocks : List Nat) : weightOf order t blocks ≤ blocks.length * order.length := by
  induction blocks with
  | nil => exact Nat.zero_le _
  | cons b rest ih =>
    have first := heightBounded order (t b)
    rw [weightOf, List.length_cons, Nat.succ_mul]
    omega

theorem weightNotMore (below : ∀ b, height order (u b) ≤ height order (t b)) (blocks : List Nat) :
    weightOf order u blocks ≤ weightOf order t blocks := by
  induction blocks with
  | nil => exact Nat.le_refl _
  | cons b rest ih => exact Nat.add_le_add (below b) ih

theorem weightLess (below : ∀ b, height order (u b) ≤ height order (t b)) {b : Nat}
    (less : height order (u b) < height order (t b)) {blocks : List Nat} (listed : b ∈ blocks) :
    weightOf order u blocks < weightOf order t blocks := by
  induction blocks with
  | nil => cases listed
  | cons c rest ih =>
    rcases List.mem_cons.mp listed with rfl | later
    · exact Nat.add_lt_add_of_lt_of_le less (weightNotMore below rest)
    · exact Nat.add_lt_add_of_le_of_lt (below c) (ih later)

end

namespace Refining
variable {next : Nat → List Nat} {order : List Nat} {place : Nat} {t : Nat → Option Nat}
  (r : Refining next order place t)
include r

theorem reached {b : Nat} (held : (t b).isSome = true) : Reached next [0] [] b := by
  obtain ⟨p, above⟩ := Option.isSome_iff_exists.mp held
  by_cases entry : b = 0
  · exact entry ▸ .root List.mem_cons_self List.not_mem_nil
  · exact (r.hangs b p above entry).1

theorem atRoot {a : Nat} (up : Up t a 0) : a = 0 := by
  generalize same : 0 = b at up
  induction up using Up.induct r.root with
  | self => rfl
  | step b p above up inner ih => exact absurd same.symm inner

theorem notLater {a b : Nat} (up : Up t a b) : order.idxOf a ≤ order.idxOf b := by
  induction up using Up.induct r.root with
  | self => exact Nat.le_refl _
  | step b p above up inner ih => exact Nat.le_trans ih (Nat.le_of_lt (r.hangs b p above inner).2.2)

theorem heldAbove {a b : Nat} (up : Up t a b) (held : (t b).isSome = true) : (t a).isSome = true := by
  induction up using Up.induct r.root with
  | self => exact held
  | step b p above up inner ih => exact ih (r.hangs b p above inner).2.1

theorem kept {u : Nat → Option Nat} {a b : Nat} (up : Up t a b)
    (same : ∀ c, order.idxOf a < order.idxOf c → order.idxOf c ≤ order.idxOf b → u c = t c) :
    Up u a b := by
  induction up using Up.induct r.root with
  | self => exact .self
  | step b p above up inner ih =>
    have lower := (r.hangs b p above inner).2.2
    have later := Nat.lt_of_le_of_lt (r.notLater up) lower
    exact .step ((same b later (Nat.le_refl _)).trans above) (ih fun c low high =>
      same c low (Nat.le_trans high (Nat.le_of_lt lower)))

theorem lifted {d m b : Nat} (up : Up t m b) (passes : Passes next 0 d b)
    (earlier : order.idxOf d < order.idxOf m) : Passes next 0 d m := by
  induction up using Up.induct r.root with
  | self => exact passes
  | step b p above up inner ih =>
    exact ih (r.lifts b p above inner d passes (Nat.lt_of_lt_of_le earlier (r.notLater up)))

section Put
variable (o : Ordered next 0 order) {b m : Nat} (h : Moving next order place t b m)
include h

theorem putRoot : put t b m 0 = some 0 := (putOther (Ne.symm h.inner)).trans r.root

theorem earlierSame {x c : Nat} (earlier : order.idxOf c < order.idxOf b) :
    Up (put t b m) x c ↔ Up t x c := by
  refine ⟨fun up => ?_, fun up => r.kept up fun d _ high => putOther fun same =>
    Nat.not_lt_of_le high (same ▸ earlier)⟩
  induction up using Up.induct (r.putRoot h) with
  | self => exact .self
  | step c p above up inner ih =>
    have apart : c ≠ b := fun same => Nat.lt_irrefl _ (same ▸ earlier)
    rw [putOther apart] at above
    exact .step above (ih (Nat.lt_trans (r.hangs c p above inner).2.2 earlier))

theorem ofPut {x c : Nat} (up : Up (put t b m) x c) (held : (t c).isSome = true) :
    Up t x c := by
  induction up using Up.induct (r.putRoot h) with
  | self => exact .self
  | step c p above up inner ih =>
    by_cases same : c = b
    · subst same
      obtain ⟨old, hung⟩ := Option.isSome_iff_exists.mp held
      cases (putSelf t c m).symm.trans above
      have beyond : Up t m c := .step hung (r.meets c old hung inner m fun q held edge =>
        (h.meeting m).mp .self q held edge)
      exact (ih (r.heldAbove beyond held)).trans beyond
    · rw [putOther same] at above
      exact .step above (ih (r.hangs c p above inner).2.1)

include o

theorem early : ∃ q, b ∈ next q ∧ (t q).isSome = true ∧ order.idxOf q < order.idxOf b ∧ Up t m q := by
  obtain ⟨q, origin, edge, earlier⟩ := o.edge h.reached h.inner
  have held := r.done q origin (h.here ▸ earlier)
  exact ⟨q, edge, held, earlier, (h.meeting m).mp .self q held edge⟩

theorem higher : order.idxOf m < order.idxOf b := by
  obtain ⟨q, -, -, earlier, under⟩ := r.early o h
  exact Nat.lt_of_le_of_lt (r.notLater under) earlier

theorem held : (t m).isSome = true := by
  obtain ⟨q, -, held, -, under⟩ := r.early o h
  exact r.heldAbove under held

theorem putBoundSelf {d : Nat} (passes : Passes next 0 d b) : Up (put t b m) d b := by
  by_cases same : d = b
  · exact same ▸ .self
  · have beyond : Up t d m := (h.meeting d).mpr fun q held edge =>
      r.bound q held d (passes.before edge same)
    exact .step (putSelf t b m) ((r.earlierSame h (r.higher o h)).mpr beyond)

theorem putBound {c d : Nat} (up : Up t d c) (passes : Passes next 0 d c) :
    Up (put t b m) d c := by
  induction up using Up.induct r.root with
  | self => exact .self
  | step c p above up inner ih =>
    by_cases same : c = b
    · subst same
      exact r.putBoundSelf o h passes
    · refine .step ((putOther same).trans above) ?_
      rcases Nat.lt_or_eq_of_le (r.notLater up) with earlier | place
      · exact ih (r.lifts c p above inner d passes earlier)
      · obtain ⟨_, hung, _⟩ := r.hangs c p above inner
        rw [o.same (r.reached (r.heldAbove up hung)) place]
        exact .self

theorem putMeets {c p : Nat} (hung : put t b m c = some p) (inner : c ≠ 0) {x : Nat}
    (all : ∀ q, (put t b m q).isSome = true → c ∈ next q → Up (put t b m) x q) :
    Up (put t b m) x p := by
  have old (q : Nat) (held : (t q).isSome = true) (edge : c ∈ next q) : Up t x q :=
    r.ofPut h (all q (putHeld held) edge) held
  by_cases same : c = b
  · subst same
    cases (putSelf t c m).symm.trans hung
    exact (r.earlierSame h (r.higher o h)).mpr ((h.meeting x).mpr old)
  · rw [putOther same] at hung
    have beyond := r.meets c p hung inner x old
    by_cases earlier : order.idxOf p < order.idxOf b
    · exact (r.earlierSame h earlier).mpr beyond
    -- `p` was hung before this round, so one predecessor is below it and was not moved from there
    · obtain ⟨q, edge, held, -, under⟩ := r.near c p hung inner (.inr (h.here ▸ Nat.le_of_not_lt earlier))
      have stays : Up (put t b m) p q := r.kept under fun d low _ => putOther fun same =>
        earlier (same ▸ low)
      rcases (all q (putHeld held) edge).linear stays with up | up
      · exact up
      · have higher := (r.hangs c p hung inner).2.1
        have above := r.ofPut h up (r.heldAbove beyond higher)
        have place := Nat.le_antisymm (r.notLater above) (r.notLater beyond)
        rw [o.same (r.reached higher) place]
        exact .self

theorem putNear {c p : Nat} (hung : put t b m c = some p) (inner : c ≠ 0)
    (timing : order.idxOf c < place + 1 ∨ place + 1 ≤ order.idxOf p) :
    ∃ q, c ∈ next q ∧ (put t b m q).isSome = true ∧ order.idxOf q < order.idxOf c ∧
      Up (put t b m) p q := by
  by_cases same : c = b
  · subst same
    cases (putSelf t c m).symm.trans hung
    obtain ⟨q, edge, held, earlier, under⟩ := r.early o h
    exact ⟨q, edge, putHeld held, earlier, (r.earlierSame h earlier).mpr under⟩
  · rw [putOther same] at hung
    have apart : order.idxOf c ≠ order.idxOf b := fun place =>
      same (o.same (r.hangs c p hung inner).1 place)
    have here := h.here
    obtain ⟨q, edge, held, earlier, under⟩ := r.near c p hung inner
      (timing.imp (fun _ => by omega) (fun _ => by omega))
    refine ⟨q, edge, putHeld held, earlier, ?_⟩
    rcases timing with early | late
    · exact (r.earlierSame h (by omega)).mpr under
    · exact r.kept under fun d low _ => putOther fun same => by
        subst same
        omega

theorem moved : Refining next order (place + 1) (put t b m) where
  root := r.putRoot h
  hangs c p hung inner := by
    by_cases same : c = b
    · subst same
      cases (putSelf t c m).symm.trans hung
      exact ⟨h.reached, putHeld (r.held o h), r.higher o h⟩
    · rw [putOther same] at hung
      obtain ⟨reached, held, higher⟩ := r.hangs c p hung inner
      exact ⟨reached, putHeld held, higher⟩
  bound c held d passes := by
    by_cases same : c = b
    · exact same ▸ r.putBoundSelf o h (same ▸ passes)
    · rw [putOther same] at held
      exact r.putBound o h (r.bound c held d passes) passes
  lifts c p hung inner d passes earlier := by
    by_cases same : c = b
    · subst same
      cases (putSelf t c m).symm.trans hung
      obtain ⟨q, edge, -, -, under⟩ := r.early o h
      have apart : d ≠ c := fun same => absurd (r.higher o h) (Nat.not_lt_of_lt (same ▸ earlier))
      exact r.lifted under (passes.before edge apart) earlier
    · rw [putOther same] at hung
      exact r.lifts c p hung inner d passes earlier
  meets _ _ hung inner _ all := r.putMeets o h hung inner all
  near _ _ hung inner timing := r.putNear o h hung inner timing
  done c reached earlier := by
    by_cases same : c = b
    · rw [same, putSelf]
      rfl
    · have apart : order.idxOf c ≠ order.idxOf b := fun place => same (o.same reached place)
      have here := h.here
      exact putHeld (r.done c reached (by omega))

theorem lighter (changed : t b ≠ some m) : weight order (put t b m) < weight order t := by
  have less : height order (some m) < height order (t b) := by
    cases hung : t b with
    | none => exact List.idxOf_lt_length_iff.mpr ((o.mem m).mpr (r.reached (r.held o h)))
    | some p =>
      have beyond := r.meets b p hung h.inner m fun q held edge => (h.meeting m).mp .self q held edge
      refine Nat.lt_of_le_of_ne (r.notLater beyond) fun place => changed ?_
      rw [hung, o.same (r.reached (r.held o h)) place]
  refine weightLess (fun c => ?_) (by rwa [putSelf]) ((o.mem b).mpr h.reached)
  by_cases same : c = b
  · subst same
    rw [putSelf]
    exact Nat.le_of_lt less
  · exact Nat.le_of_eq (congrArg (height order) (putOther same))

end Put
end Refining

namespace Refining
variable {next : Nat → List Nat} {order : List Nat} {t : Nat → Option Nat}
  (r : Refining next order order.length t) (o : Ordered next 0 order)
include r o

theorem again : Refining next order 1 t where
  root := r.root
  hangs := r.hangs
  bound := r.bound
  lifts := r.lifts
  meets := r.meets
  near b p hung inner _ := r.near b p hung inner
    (.inl (List.idxOf_lt_length_iff.mpr ((o.mem b).mpr (r.hangs b p hung inner).1)))
  done b reached _ := r.done b reached (List.idxOf_lt_length_iff.mpr ((o.mem b).mpr reached))

theorem settled (fixed : ∀ b, Reached next [0] [] b → b ≠ 0 → ∃ p, t b = some p ∧ Meeting next t b p)
    {a b : Nat} (reached : Reached next [0] [] b) : Up t a b ↔ Passes next 0 a b := by
  have held {b : Nat} (reached : Reached next [0] [] b) : (t b).isSome = true :=
    r.done b reached (List.idxOf_lt_length_iff.mpr ((o.mem b).mpr reached))
  refine ⟨fun up around => ?_, r.bound b (held reached) a⟩
  induction around with
  | root start free =>
    cases List.mem_singleton.mp start
    exact free (List.mem_singleton.mpr (r.atRoot up).symm)
  | @step p b before edge free ih =>
    have apart : a ≠ b := fun same => free (List.mem_singleton.mpr same.symm)
    by_cases entry : b = 0
    · subst entry
      exact apart (r.atRoot up)
    · obtain ⟨m, hung, meeting⟩ := fixed b reached entry
      have beyond := (up.above hung).resolve_left apart
      exact ih before.anywhere ((meeting a).mp beyond p (held before.anywhere) edge)

end Refining
end SsaCodegen.DomTree
