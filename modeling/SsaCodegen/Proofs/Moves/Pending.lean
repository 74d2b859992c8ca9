import SsaCodegen.Proofs.Moves.Cycles
/-! Moves that stand for copies made at once. A move may overwrite a place when nothing that is still
to be copied reads it; that holds of what is ready, and along a cycle once one place of it has been
saved. What the moves leave is what the copies would have left at once. -/
namespace SsaCodegen.X64

structure Places (V : Type) where
  held : Nat → V
  temp : RegClass → Option V

namespace Places
variable {V : Type}

def put (p : Places V) (key : Nat) (v : V) : Places V :=
  { p with held := fun k => if k = key then v else p.held k }

def save (p : Places V) (cls : RegClass) (v : V) : Places V :=
  { p with temp := fun c => if c = cls then some v else p.temp c }

end Places

def Move.step? {V : Type} (p : Places V) : Move → Option (Places V)
  | .copy _ src dst => some (p.put dst (p.held src))
  | .toTemp cls src => some (p.save cls (p.held src))
  | .fromTemp cls dst => (p.temp cls).map (p.put dst)

def runMoves {V : Type} : List Move → Places V → Option (Places V)
  | [], p => some p
  | move :: rest, p => (move.step? p).bind (runMoves rest)

namespace ParallelCopy
variable {V : Type}

theorem runMovesAppend (a b : List Move) (p : Places V) :
    runMoves (a ++ b) p = (runMoves a p).bind (runMoves b) := by
  induction a generalizing p with
  | nil => rfl
  | cons move rest ih =>
    simp only [List.cons_append, runMoves, Option.bind_assoc]
    exact congrArg _ (funext ih)

structure Made (made : List Copy) (p q : Places V) : Prop where
  copied : ∀ c ∈ made, q.held c.dst = p.held c.src
  kept : ∀ k, k ∉ made.map Copy.dst → q.held k = p.held k

namespace Made
variable {made others : List Copy} {p q : Places V} {c : Copy}

theorem nothing (p : Places V) : Made [] p p := ⟨fun _ inside => (List.not_mem_nil inside).elim, fun _ _ => rfl⟩

theorem perm (m : Made made p q) (same : made.Perm others) : Made others p q where
  copied c inside := m.copied c (same.mem_iff.mpr inside)
  kept k absent := m.kept k fun listed => absent ((same.map Copy.dst).mem_iff.mp listed)

theorem put (m : Made made p q) (fresh : c.dst ∉ made.map Copy.dst) :
    Made (c :: made) p (q.put c.dst (p.held c.src)) where
  copied d inside := by
    rcases List.mem_cons.mp inside with rfl | old
    · exact if_pos rfl
    · have other : d.dst ≠ c.dst := fun same => fresh (same ▸ List.mem_map_of_mem old)
      exact (if_neg other).trans (m.copied d old)
  kept k absent := by
    obtain ⟨other, old⟩ := not_or.mp (mt List.mem_cons.mpr absent)
    exact (if_neg other).trans (m.kept k old)

theorem copy (m : Made made p q) (fresh : c.dst ∉ made.map Copy.dst) (whole : c.src ∉ made.map Copy.dst) :
    Made (c :: made) p (q.put c.dst (q.held c.src)) := by
  rw [m.kept c.src whole]
  exact m.put fresh

theorem save (m : Made made p q) (cls : RegClass) (v : V) : Made made p (q.save cls v) :=
  ⟨m.copied, m.kept⟩

end Made

def Unread (made rest : List Copy) : Prop := ∀ c ∈ made, ∀ d ∈ rest, d.src ≠ c.dst

namespace Unread
variable {made rest : List Copy} {c : Copy}

theorem whole (unread : Unread made rest) (inside : c ∈ rest) : c.src ∉ made.map Copy.dst := by
  intro listed
  obtain ⟨d, written, same⟩ := List.mem_map.mp listed
  exact unread d written c inside same.symm

theorem cons (unread : Unread made rest) (last : ∀ d ∈ rest, d.src ≠ c.dst) :
    Unread (c :: made) rest := fun d inside e later => by
  rcases List.mem_cons.mp inside with rfl | old
  · exact last e later
  · exact unread d old e later

theorem fewer (unread : Unread made rest) {less : List Copy} (part : ∀ d ∈ less, d ∈ rest) :
    Unread made less := fun c inside d listed => unread c inside d (part d listed)

end Unread

section Work
variable (work : List Copy)

def pick (done : List Nat) : List Copy := done.filterMap (work[·]?)

def left (done : List Nat) : List Copy := (work.zipIdx.filter fun e => !done.contains e.2).map Prod.fst

end Work

section Bookkeeping
variable {work : List Copy} {done : List Nat} {i key : Nat} {c : Copy}

theorem memLeft : c ∈ left work done ↔ ∃ i, work[i]? = some c ∧ i ∉ done := by
  simp only [left, List.mem_map, List.mem_filter, Prod.exists, List.mem_zipIdx_iff_getElem?]
  constructor
  · rintro ⟨_, i, ⟨found, fresh⟩, rfl⟩
    exact ⟨i, found, by simpa using fresh⟩
  · rintro ⟨i, found, fresh⟩
    exact ⟨c, i, ⟨found, by simpa using fresh⟩, rfl⟩

theorem leftNone : left work [] = work := by
  simp [left, List.zipIdx_map_fst]

theorem leftTake (found : work[i]? = some c) (fresh : i ∉ done) :
    (left work done).Perm (c :: left work (i :: done)) := by
  have entry : (c, i) ∈ work.zipIdx := List.mem_zipIdx_iff_getElem?.mpr found
  obtain ⟨before, after, split⟩ := List.append_of_mem entry
  have once : (work.zipIdx.map Prod.snd).Nodup := by
    rw [List.zipIdx_map_snd]
    exact List.nodup_range'
  rw [split, List.map_append, List.map_cons] at once
  obtain ⟨-, later, apart⟩ := List.nodup_append.mp once
  -- the number is on no other entry
  have same (part : List (Copy × Nat)) (absent : i ∉ part.map Prod.snd) :
      part.filter (fun e => !(i :: done).contains e.2) = part.filter fun e => !done.contains e.2 := by
    refine List.filter_congr fun e inside => ?_
    have other : e.2 ≠ i := fun same => absent (List.mem_map.mpr ⟨e, inside, same⟩)
    simp [other]
  have front := same before fun listed => apart i listed i List.mem_cons_self rfl
  have back := same after (List.nodup_cons.mp later).1
  have gone : (!(i :: done).contains i) = false := by simp
  have stays : (!done.contains i) = true := by simpa using fresh
  simp only [left, split, List.filter_append, List.filter_cons, front, back, gone, stays, if_true,
    Bool.false_eq_true, if_false, List.map_append, List.map_cons]
  exact List.perm_middle

theorem pickTake (found : work[i]? = some c) : pick work (i :: done) = c :: pick work done :=
  List.filterMap_cons_some found

theorem pickLeft (once : done.Nodup) (inside : ∀ i ∈ done, i < work.length) :
    work.Perm (pick work done ++ left work done) := by
  induction done with
  | nil => exact leftNone ▸ .refl _
  | cons i done ih =>
    obtain ⟨fresh, once⟩ := List.nodup_cons.mp once
    have found := List.getElem?_eq_getElem (inside i List.mem_cons_self)
    rw [pickTake found, List.cons_append]
    refine (ih once fun j later => inside j (List.mem_cons_of_mem i later)).trans ?_
    exact ((leftTake found fresh).append_left _).trans List.perm_middle

theorem readersNone : (readers work done key).isEmpty = true ↔ ∀ d ∈ left work done, d.src ≠ key := by
  rw [List.isEmpty_iff, List.eq_nil_iff_forall_not_mem]
  constructor
  · intro absent d listed same
    obtain ⟨i, found, fresh⟩ := memLeft.mp listed
    exact absent i (memReaders.mpr ⟨d, found, same, fresh⟩)
  · intro absent i reads
    obtain ⟨d, found, same, fresh⟩ := memReaders.mp reads
    exact absent d (memLeft.mpr ⟨i, found, fresh⟩) same

section Writers
variable (written : (work.map Copy.dst).Nodup)
include written

theorem sameWriter {j : Nat} {d : Copy} (found : work[i]? = some c) (also : work[j]? = some d)
    (same : c.dst = d.dst) : i = j := by
  have here : (work.map Copy.dst)[i]? = some c.dst := by simp [found]
  have there : (work.map Copy.dst)[j]? = some c.dst := by simp [also, same]
  exact (List.getElem?_inj (List.getElem?_eq_some_iff.mp here).1 written).mp (here.trans there.symm)

theorem writerIff : writer? work key = some i ↔ ∃ c, work[i]? = some c ∧ c.dst = key := by
  have listed (j : Nat) : j ∈ (work.zipIdx.filterMap fun e => if e.1.dst == key then some e.2 else none) ↔
      ∃ c, work[j]? = some c ∧ c.dst = key := by
    simp only [List.mem_filterMap, Prod.exists, List.mem_zipIdx_iff_getElem?,
      Option.ite_none_right_eq_some, beq_iff_eq, Option.some.injEq]
    constructor
    · rintro ⟨c, _, found, same, rfl⟩
      exact ⟨c, found, same⟩
    · rintro ⟨c, found, same⟩
      exact ⟨c, j, found, same, rfl⟩
  constructor
  · exact fun last => (listed i).mp (List.mem_of_getLast? last)
  · intro writes
    obtain ⟨j, last⟩ := Option.isSome_iff_exists.mp
      (List.getLast?_isSome.mpr (List.ne_nil_of_mem ((listed i).mpr writes)))
    obtain ⟨c, found, same⟩ := writes
    obtain ⟨d, also, dst⟩ := (listed j).mp (List.mem_of_getLast? last)
    rw [sameWriter written found also (same.trans dst.symm)]
    exact last

theorem pendingSome : pendingWriter? work done key = some i ↔
    i ∉ done ∧ ∃ c, work[i]? = some c ∧ c.dst = key := by
  rw [pendingWriter?, Option.filter_eq_some_iff, writerIff written, and_comm]
  simp

theorem pendingNone : pendingWriter? work done key = none ↔ ∀ d ∈ left work done, d.dst ≠ key := by
  rw [Option.eq_none_iff_forall_ne_some]
  constructor
  · intro absent d listed same
    obtain ⟨i, found, fresh⟩ := memLeft.mp listed
    exact absent i ((pendingSome written).mpr ⟨fresh, d, found, same⟩)
  · intro absent i writes
    obtain ⟨fresh, d, found, same⟩ := (pendingSome written).mp writes
    exact absent d (memLeft.mpr ⟨i, found, fresh⟩) same

end Writers
end Bookkeeping

structure Booked (work : List Copy) (done : List Nat) : Prop where
  once : done.Nodup
  inside : ∀ i ∈ done, i < work.length

namespace Booked
variable {work : List Copy} {done : List Nat} {i : Nat} {c : Copy} (booked : Booked work done)
include booked

theorem take (found : work[i]? = some c) (fresh : i ∉ done) : Booked work (i :: done) where
  once := List.nodup_cons.mpr ⟨fresh, booked.once⟩
  inside j listed := by
    rcases List.mem_cons.mp listed with rfl | old
    · exact (List.getElem?_eq_some_iff.mp found).1
    · exact booked.inside j old

theorem all : work.Perm (pick work done ++ left work done) := pickLeft booked.once booked.inside

theorem fresh (written : (work.map Copy.dst).Nodup) (later : c ∈ left work done) :
    c.dst ∉ (pick work done).map Copy.dst := by
  intro listed
  have parts := (booked.all.map Copy.dst).nodup_iff.mp written
  rw [List.map_append] at parts
  exact (List.nodup_append.mp parts).2.2 _ listed _ (List.mem_map_of_mem later) rfl

theorem lengths : done.length + (left work done).length = work.length := by
  have picked : (pick work done).length = done.length := by
    refine List.filterMap_length_eq_length.mpr fun i listed => ?_
    rw [List.getElem?_eq_getElem (booked.inside i listed)]
    rfl
  rw [booked.all.length_eq, List.length_append, picked]

end Booked

end ParallelCopy
end SsaCodegen.X64
