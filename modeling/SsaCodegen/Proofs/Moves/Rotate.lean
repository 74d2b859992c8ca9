import SsaCodegen.Proofs.Moves.Drain
/-! Breaking cycles. Among balanced copies one place is saved; the walk back from it frees a place at
each step, and where it comes out is the place that takes what was saved. -/
namespace SsaCodegen.X64.ParallelCopy

theorem Booked.leftOnce {work : List Copy} {done : List Nat} (booked : Booked work done)
    (written : (work.map Copy.dst).Nodup) :
    ((left work done).map Copy.dst).Nodup := by
  have parts := (booked.all.map Copy.dst).nodup_iff.mp written
  rw [List.map_append] at parts
  exact (List.nodup_append.mp parts).2.1

/-- A place of a cycle is saved, for copy `start` to be made last; all places that are still to be
written but one, which is free, are still to be read. -/
structure Rotating (work : List Copy) (start : Copy) (freed : Nat) (done : List Nat) : Prop
    extends Booked work done where
  held : start ∈ pick work done
  balance : (start.dst :: (left work done).map Copy.dst).Perm (freed :: (left work done).map Copy.src)

structure Rotated (V : Type) (work : List Copy) (start : Copy) (freed : Nat) (done made : List Nat)
    (moves : List Move) : Prop extends Booked work made where
  held : start ∈ pick work made
  balance : Balanced work made
  walked : ∃ walk, Walk freed walk start.dst ∧ (left work done).Perm (walk ++ left work made) ∧
    moves.length = walk.length
  grown : done ⊆ made
  runs : ∀ p q : Places V, Made ((pick work done).erase start) p q →
    ∃ r, runMoves moves q = some r ∧ r.temp = q.temp ∧ Made ((pick work made).erase start) p r

namespace Rotating
variable {work : List Copy} {start c : Copy} {freed i : Nat} {done : List Nat}
  (rotating : Rotating work start freed done)
include rotating

section Once
variable (written : (work.map Copy.dst).Nodup)
include written

theorem unread : Unread ((pick work done).erase start) (left work done) := by
  intro d inside e later same
  have parts : ((start :: (pick work done).erase start).map Copy.dst).Nodup := by
    have picked := (rotating.all.map Copy.dst).nodup_iff.mp written
    rw [List.map_append] at picked
    exact ((List.perm_cons_erase rotating.held).map Copy.dst).nodup_iff.mp (List.nodup_append.mp picked).1
  have reads : e.src ∈ freed :: (left work done).map Copy.src :=
    List.mem_cons_of_mem freed (List.mem_map_of_mem later)
  rcases List.mem_cons.mp (rotating.balance.mem_iff.mpr reads) with first | listed
  · exact (List.nodup_cons.mp parts).1 (first ▸ same ▸ List.mem_map_of_mem inside)
  · obtain ⟨g, still, writes⟩ := List.mem_map.mp listed
    have taken : d.dst ∈ (pick work done).map Copy.dst :=
      List.mem_map_of_mem (List.mem_of_mem_erase inside)
    exact rotating.toBooked.fresh written still (writes ▸ same ▸ taken)

end Once

theorem ended (never : ∀ d ∈ left work done, d.dst ≠ freed) : freed = start.dst := by
  rcases List.mem_cons.mp (rotating.balance.mem_iff.mpr List.mem_cons_self) with same | listed
  · exact same
  · obtain ⟨d, later, same⟩ := List.mem_map.mp listed
    exact absurd same (never d later)

theorem take (found : work[i]? = some c) (fresh : i ∉ done) (writes : c.dst = freed) :
    Rotating work start c.src (i :: done) where
  toBooked := rotating.toBooked.take found fresh
  held := by
    rw [pickTake found]
    exact List.mem_cons_of_mem c rotating.held
  balance := by
    have gone := leftTake found fresh
    have before := ((gone.map Copy.dst).cons start.dst).symm.trans
      (rotating.balance.trans ((gone.map Copy.src).cons freed))
    rw [List.map_cons, List.map_cons, writes] at before
    exact ((List.Perm.swap freed start.dst _).symm.trans before).cons_inv

theorem stop {V : Type} (never : ∀ d ∈ left work done, d.dst ≠ freed) :
    Rotated V work start freed done done [] where
  toBooked := rotating.toBooked
  held := rotating.held
  balance := (rotating.ended never ▸ rotating.balance).cons_inv
  walked := ⟨[], rotating.ended never ▸ .stop, .refl _, rfl⟩
  grown := List.Subset.refl done
  runs _ q m := ⟨q, rfl, rfl, m⟩

end Rotating

theorem rotates (V : Type) {work : List Copy} (written : (work.map Copy.dst).Nodup) {start : Copy}
    (fuel : Nat) {freed : Nat} {done : List Nat} (rotating : Rotating work start freed done)
    (enough : (left work done).length ≤ fuel) :
    Rotated V work start freed done (rotate work fuel freed done).2 (rotate work fuel freed done).1 := by
  induction fuel generalizing freed done with
  | zero =>
    have absent := List.eq_nil_of_length_eq_zero (Nat.le_zero.mp enough)
    exact rotating.stop (by simp [absent])
  | succ fuel ih =>
    match pending : pendingWriter? work done freed with
    | none =>
      simp only [rotate, pending]
      exact rotating.stop ((pendingNone written).mp pending)
    | some i =>
      obtain ⟨fresh, c, found, writes⟩ := (pendingSome written).mp pending
      simp only [rotate, pending, found]
      have gone := leftTake found fresh
      have one : (left work done).length = (left work (i :: done)).length + 1 := gone.length_eq
      obtain ⟨booked, held, balance, ⟨walk, goes, parts, count⟩, grown, runs⟩ :=
        ih (rotating.take found fresh writes) (by omega)
      have here : c ∈ left work done := memLeft.mpr ⟨i, found, fresh⟩
      refine ⟨booked, held, balance, ⟨c :: walk, writes ▸ .step goes, ?_, ?_⟩, ?_, fun p q m => ?_⟩
      · exact gone.trans (parts.cons c)
      · simp only [List.length_cons, count]
      · exact fun j old => grown (List.mem_cons_of_mem i old)
      · have other : c ≠ start := fun same =>
          rotating.toBooked.fresh written here (same ▸ List.mem_map_of_mem rotating.held)
        have apart : c.dst ∉ ((pick work done).erase start).map Copy.dst := fun listed =>
          rotating.toBooked.fresh written here (List.map_subset _ (List.erase_subset ..) listed)
        have next := m.copy apart ((rotating.unread written).whole here)
        rw [← List.erase_cons_tail (by simpa using other), ← pickTake found] at next
        obtain ⟨r, ran, kept, made⟩ := runs p _ next
        exact ⟨r, ran, kept, made⟩

section Balanced
variable {V : Type} {work : List Copy} {done made : List Nat} {moves : List Move} {i : Nat} {c : Copy}
  (balanced : Balanced work done) (booked : Booked work done) (found : work[i]? = some c) (fresh : i ∉ done)
include balanced booked found fresh

theorem Balanced.rotating : Rotating work c c.src (i :: done) where
  toBooked := booked.take found fresh
  held := by
    rw [pickTake found]
    exact List.mem_cons_self
  balance := by
    have gone := leftTake found fresh
    have balance : ((left work done).map Copy.dst).Perm ((left work done).map Copy.src) := balanced
    exact ((gone.map Copy.dst).symm.trans balance).trans (gone.map Copy.src)

theorem Balanced.whole (written : (work.map Copy.dst).Nodup) : c.src ∉ (pick work done).map Copy.dst := by
  intro listed
  have here : c ∈ left work done := memLeft.mpr ⟨i, found, fresh⟩
  obtain ⟨d, later, writes⟩ := List.mem_map.mp (balanced.mem_iff.mpr (List.mem_map_of_mem here))
  exact booked.fresh written later (writes ▸ listed)

variable (rotated : Rotated V work c c.src (i :: done) made moves) (written : (work.map Copy.dst).Nodup)
include rotated written

theorem Rotated.ring (other : c.src ≠ c.dst) :
    (∃ ring ∉ cycles (left work made), cycles (left work done) = insert ring (cycles (left work made))) ∧
      (left work done).length = moves.length + (left work made).length + 1 := by
  obtain ⟨walk, goes, parts, count⟩ := rotated.walked
  have whole : (left work done).Perm (c :: walk ++ left work made) :=
    (leftTake found fresh).trans (parts.cons c)
  have writes := booked.leftOnce written
  refine ⟨cyclesWalk whole (balanced.nodup_iff.mp writes) other goes writes, ?_⟩
  rw [whole.length_eq, count, List.cons_append, List.length_cons, List.length_append]

theorem Rotated.wholeRuns {p q : Places V} (m : Made (pick work done) p q) :
    ∃ r, runMoves (.toTemp c.cls c.src :: moves ++ [.fromTemp c.cls c.dst]) q = some r ∧
      Made (pick work made) p r := by
  have saved : Made ((pick work (i :: done)).erase c) p (q.save c.cls (q.held c.src)) := by
    rw [pickTake found, List.erase_cons_head]
    exact m.save c.cls _
  obtain ⟨r, ran, kept, copies⟩ := rotated.runs p _ saved
  have temp : r.temp c.cls = some (p.held c.src) := by
    rw [kept, ← m.kept c.src (balanced.whole booked found fresh written)]
    exact if_pos rfl
  have last : runMoves [.fromTemp c.cls c.dst] r = some (r.put c.dst (p.held c.src)) := by
    simp only [runMoves, Move.step?, temp, Option.map_some, Option.bind_some]
  have picked := List.perm_cons_erase rotated.held
  have apart : c.dst ∉ ((pick work made).erase c).map Copy.dst := by
    have parts := (rotated.all.map Copy.dst).nodup_iff.mp written
    rw [List.map_append] at parts
    exact (List.nodup_cons.mp ((picked.map Copy.dst).nodup_iff.mp (List.nodup_append.mp parts).1)).1
  refine ⟨r.put c.dst (p.held c.src), ?_, (copies.put apart).perm picked.symm⟩
  rw [runMovesAppend, show runMoves (.toTemp c.cls c.src :: moves) q = some r from ran]
  exact last

end Balanced

structure Broken (V : Type) (work : List Copy) (done : List Nat) (moves : List Move) : Prop where
  finite : (cycles (left work done)).Finite
  count : moves.length = (left work done).length + (cycles (left work done)).ncard
  runs : ∀ p q : Places V, Made (pick work done) p q → ∃ r, runMoves moves q = some r ∧ Made work p r

theorem cyclesNone : cycles [] = ∅ := by
  rw [Set.eq_empty_iff_forall_notMem]
  rintro ring ⟨⟨a, -, -, inside, -⟩, -, chain⟩
  obtain ⟨_, -, _, listed, -⟩ := ringNext chain inside
  exact List.not_mem_nil listed

theorem brokenNone {V : Type} {work : List Copy} {done : List Nat} (booked : Booked work done)
    (empty : left work done = []) : Broken V work done [] := by
  have all := booked.all
  rw [empty, List.append_nil] at all
  refine ⟨?_, ?_, fun _ q m => ⟨q, rfl, m.perm all.symm⟩⟩
  · rw [empty, cyclesNone]
    exact Set.finite_empty
  · rw [empty, cyclesNone, Set.ncard_empty]
    rfl

theorem breaks (V : Type) {work : List Copy} (written : (work.map Copy.dst).Nodup)
    (other : ∀ c ∈ work, c.src ≠ c.dst) (entries : List (Copy × Nat))
    (listed : ∀ e ∈ entries, work[e.2]? = some e.1) {done : List Nat} (booked : Booked work done)
    (balanced : Balanced work done) (rest : ∀ i < work.length, i ∉ done → i ∈ entries.map Prod.snd) :
    Broken V work done (breakCycles work done entries) := by
  induction entries generalizing done with
  | nil =>
    refine brokenNone booked (List.eq_nil_iff_forall_not_mem.mpr fun c later => ?_)
    obtain ⟨i, found, fresh⟩ := memLeft.mp later
    exact List.not_mem_nil (rest i (List.getElem?_eq_some_iff.mp found).1 fresh)
  | cons e entries ih =>
    obtain ⟨c, i⟩ := e
    have found : work[i]? = some c := listed (c, i) List.mem_cons_self
    have later (done' : List Nat) (grown : done ⊆ done') (taken : i ∈ done') (j : Nat) (below : j < work.length)
        (fresh : j ∉ done') : j ∈ entries.map Prod.snd := by
      rcases List.mem_cons.mp (rest j below fun old => fresh (grown old)) with rfl | later
      · exact absurd taken fresh
      · exact later
    replace listed := fun e inside => listed e (List.mem_cons_of_mem _ inside)
    by_cases old : i ∈ done
    · have again : done.contains i = true := by simpa using old
      simp only [breakCycles, again, if_true]
      exact ih listed booked balanced (later done (List.Subset.refl done) old)
    · have fresh : done.contains i = false := by simpa using old
      simp only [breakCycles, fresh, Bool.false_eq_true, if_false]
      have start := balanced.rotating booked found old
      have enough : (left work (i :: done)).length ≤ work.length := by
        have lengths := start.toBooked.lengths
        omega
      have rotated := rotates V written work.length start enough
      have more := List.Subset.trans (List.subset_cons_self i done) rotated.grown
      obtain ⟨finite, length, runs⟩ := ih listed rotated.toBooked rotated.balance
        (later _ more (rotated.grown List.mem_cons_self))
      obtain ⟨⟨ring, new, cyclic⟩, count⟩ := rotated.ring balanced booked found old written
        (other c (List.mem_of_getElem? found))
      refine ⟨cyclic ▸ finite.insert ring, ?_, fun p q m => ?_⟩
      · rw [cyclic, Set.ncard_insert_of_notMem new finite, count, List.cons_append, List.length_cons,
          List.length_append, List.length_cons, length]
        omega
      · obtain ⟨r, ran, made⟩ := rotated.wholeRuns balanced booked found old written m
        obtain ⟨s, also, all⟩ := runs p r made
        refine ⟨s, ?_, all⟩
        rw [List.append_cons, runMovesAppend, ran]
        exact also

end SsaCodegen.X64.ParallelCopy
