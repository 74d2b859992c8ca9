import SsaCodegen.Proofs.Moves.Pending
/-! Draining the ready list: every copy on it may be made, and once it is empty each copy that is
left writes a place that another one reads. -/
namespace SsaCodegen.X64.ParallelCopy

theorem leftLess {work : List Copy} {done : List Nat} {i : Nat} {c : Copy}
    (later : c ∈ left work (i :: done)) : c ∈ left work done := by
  obtain ⟨j, found, fresh⟩ := memLeft.mp later
  exact memLeft.mpr ⟨j, found, mt (List.mem_cons_of_mem i) fresh⟩

structure Draining (work : List Copy) (ready done : List Nat) : Prop extends Booked work done where
  unread : Unread (pick work done) (left work done)
  safe : ∀ i ∈ ready, ∀ c, work[i]? = some c → ∀ d ∈ left work done, d.src ≠ c.dst
  complete : ∀ i c, work[i]? = some c → i ∉ done → (∀ d ∈ left work done, d.src ≠ c.dst) → i ∈ ready

structure Drained (V : Type) (work : List Copy) (done made : List Nat) (moves : List Move) : Prop where
  drained : Draining work [] made
  cyclic : cycles (left work made) = cycles (left work done)
  count : moves.length + (left work made).length = (left work done).length
  runs : ∀ p q : Places V, Made (pick work done) p q →
    ∃ r, runMoves moves q = some r ∧ Made (pick work made) p r

section Drain
variable {work : List Copy} {ready done : List Nat} {i : Nat} {c : Copy}

theorem memFreed (written : (work.map Copy.dst).Nodup) {key j : Nat} :
    j ∈ (if (readers work done key).isEmpty then (pendingWriter? work done key).toList else []) ↔
      (∀ d ∈ left work done, d.src ≠ key) ∧ j ∉ done ∧ ∃ d, work[j]? = some d ∧ d.dst = key := by
  rw [← readersNone, ← pendingSome written]
  split <;> simp_all

theorem freedAtMostOne (work : List Copy) (done : List Nat) (key : Nat) :
    (if (readers work done key).isEmpty then (pendingWriter? work done key).toList else []).length ≤ 1 := by
  split
  · exact Option.length_toList_le
  · exact Nat.zero_le 1

namespace Draining
variable (draining : Draining work (i :: ready) done)
include draining

theorem skip (idle : ∀ c, work[i]? = some c → i ∈ done) : Draining work ready done :=
  { draining with
    safe := fun j later => draining.safe j (List.mem_cons_of_mem i later)
    complete := fun j c found fresh unread => by
      rcases List.mem_cons.mp (draining.complete j c found fresh unread) with rfl | later
      · exact absurd (idle c found) fresh
      · exact later }

theorem take (written : (work.map Copy.dst).Nodup) (found : work[i]? = some c) (fresh : i ∉ done) :
    Draining work ((if (readers work (i :: done) c.src).isEmpty then
      (pendingWriter? work (i :: done) c.src).toList else []) ++ ready) (i :: done) where
  toBooked := draining.toBooked.take found fresh
  unread := by
    rw [pickTake found]
    exact (draining.unread.fewer fun _ => leftLess).cons fun d later =>
      draining.safe i List.mem_cons_self c found d (leftLess later)
  safe j listed d also e later := by
    rcases List.mem_append.mp listed with freed | old
    · obtain ⟨absent, -, g, same, writes⟩ := (memFreed written).mp freed
      cases also.symm.trans same
      exact writes ▸ absent e later
    · exact draining.safe j (List.mem_cons_of_mem i old) d also e (leftLess later)
  complete j d also stays absent := by
    obtain ⟨other, stays⟩ := not_or.mp (mt List.mem_cons.mpr stays)
    by_cases writes : d.dst = c.src
    · exact List.mem_append_left _ ((memFreed written).mpr
        ⟨fun e later => writes ▸ absent e later, List.not_mem_cons_of_ne_of_not_mem other stays, d, also, writes⟩)
    · refine List.mem_append_right _ ?_
      have unread (e : Copy) (later : e ∈ left work done) : e.src ≠ d.dst := by
        rcases List.mem_cons.mp ((leftTake found fresh).mem_iff.mp later) with rfl | still
        · exact Ne.symm writes
        · exact absent e still
      exact (List.mem_cons.mp (draining.complete j d also stays unread)).resolve_left other

end Draining

theorem drains (V : Type) (written : (work.map Copy.dst).Nodup) (fuel : Nat)
    (draining : Draining work ready done) (enough : ready.length + (left work done).length < fuel) :
    Drained V work done (drain work fuel ready done).2 (drain work fuel ready done).1 := by
  induction fuel generalizing ready done with
  | zero => exact absurd enough (Nat.not_lt_zero _)
  | succ fuel ih =>
    match ready with
    | [] => exact ⟨draining, rfl, Nat.zero_add _, fun p q m => ⟨q, rfl, m⟩⟩
    | i :: ready =>
      rw [List.length_cons] at enough
      match found : work[i]? with
      | none =>
        simp only [drain, found]
        exact ih (draining.skip fun c present => by simp [found] at present) (by omega)
      | some c =>
        by_cases old : i ∈ done
        · have again : done.contains i = true := by simpa using old
          simp only [drain, found, again, if_true]
          exact ih (draining.skip fun _ _ => old) (by omega)
        · have fresh : done.contains i = false := by simpa using old
          simp only [drain, found, fresh, Bool.false_eq_true, if_false]
          have gone := leftTake found old
          have one : (left work done).length = (left work (i :: done)).length + 1 := gone.length_eq
          have onward := draining.take written found old
          have short := freedAtMostOne work (i :: done) c.src
          obtain ⟨empty, cyclic, count, runs⟩ := ih onward (by rw [List.length_append]; omega)
          have here : c ∈ left work done := memLeft.mpr ⟨i, found, old⟩
          refine ⟨empty, cyclic.trans ?_, ?_, fun p q m => ?_⟩
          · have unread := draining.safe i List.mem_cons_self c found
            rw [cyclesPerm gone]
            exact (cyclesUnread fun d inside => unread d (gone.mem_iff.mpr inside)).symm
          · simp only [List.length_cons]
            omega
          · have next := m.copy (draining.toBooked.fresh written here) (draining.unread.whole here)
            rw [← pickTake found] at next
            exact runs p _ next

end Drain

def Balanced (work : List Copy) (done : List Nat) : Prop :=
  ((left work done).map Copy.dst).Perm ((left work done).map Copy.src)

theorem Draining.balanced {work : List Copy} {done : List Nat} (draining : Draining work [] done)
    (written : (work.map Copy.dst).Nodup) : Balanced work done := by
  have once : ((left work done).map Copy.dst).Nodup := by
    have parts := (draining.all.map Copy.dst).nodup_iff.mp written
    rw [List.map_append] at parts
    exact (List.nodup_append.mp parts).2.1
  refine (once.subperm fun key listed => ?_).perm_of_length_le (by simp)
  obtain ⟨c, later, rfl⟩ := List.mem_map.mp listed
  obtain ⟨i, found, fresh⟩ := memLeft.mp later
  by_contra unread
  exact List.not_mem_nil (draining.complete i c found fresh fun d still same =>
    unread (List.mem_map.mpr ⟨d, still, same⟩))

theorem startFew (work : List Copy) : (work.zipIdx.filterMap fun (c, i) =>
    if (readers work [] c.dst).isEmpty then some i else none).reverse.length ≤ work.length := by
  rw [List.length_reverse]
  exact (List.length_filterMap_le ..).trans (Nat.le_of_eq List.length_zipIdx)

theorem Draining.start (work : List Copy) :
    Draining work (work.zipIdx.filterMap fun (c, i) =>
      if (readers work [] c.dst).isEmpty then some i else none).reverse [] where
  once := List.nodup_nil
  inside _ listed := (List.not_mem_nil listed).elim
  unread _ listed := (List.not_mem_nil listed).elim
  safe i listed c found := by
    simp only [List.mem_reverse, List.mem_filterMap, Prod.exists, List.mem_zipIdx_iff_getElem?,
      Option.ite_none_right_eq_some, Option.some.injEq] at listed
    obtain ⟨d, _, also, absent, rfl⟩ := listed
    cases found.symm.trans also
    exact readersNone.mp absent
  complete i c found _ unread := by
    simp only [List.mem_reverse, List.mem_filterMap, Prod.exists, List.mem_zipIdx_iff_getElem?,
      Option.ite_none_right_eq_some, Option.some.injEq]
    exact ⟨c, i, found, readersNone.mpr unread, rfl⟩

end SsaCodegen.X64.ParallelCopy
