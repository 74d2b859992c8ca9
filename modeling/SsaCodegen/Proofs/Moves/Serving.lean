import SsaCodegen.Proofs.Moves.ParallelCopy
/-! Which copy a move serves. Every move reads the source of a copy or writes its destination, and a
temporary comes in only where some copy reads what another one writes. -/
namespace SsaCodegen.X64

def Move.Serves (copies : List Copy) : Move → Prop
  | .copy cls src dst => ⟨src, dst, cls⟩ ∈ copies
  | .toTemp cls src => ∃ dst, ⟨src, dst, cls⟩ ∈ copies
  | .fromTemp cls dst => ∃ src, ⟨src, dst, cls⟩ ∈ copies

theorem Move.Serves.mono {present all : List Copy} (part : ∀ c ∈ present, c ∈ all) {m : Move}
    (serves : m.Serves present) : m.Serves all := by
  cases m with
  | copy => exact part _ serves
  | toTemp => exact serves.imp fun _ => part _
  | fromTemp => exact serves.imp fun _ => part _

def Copy.move (c : Copy) : Move := .copy c.cls c.src c.dst

namespace ParallelCopy
variable {work : List Copy}

theorem drainCopies (fuel : Nat) (ready done : List Nat) :
    ∀ m ∈ (drain work fuel ready done).1, ∃ c ∈ work, m = c.move := by
  induction fuel generalizing ready done with
  | zero => exact fun m absent => nomatch absent
  | succ fuel ih =>
    cases ready with
    | nil => exact fun m absent => nomatch absent
    | cons i ready =>
      rw [drain]
      split
      · exact ih _ _
      · rename_i c located
        split
        · exact ih _ _
        · intro m inside
          rcases List.mem_cons.mp inside with rfl | later
          · exact ⟨c, List.mem_of_getElem? located, rfl⟩
          · exact ih _ _ m later

theorem rotateCopies (fuel freed : Nat) (done : List Nat) :
    ∀ m ∈ (rotate work fuel freed done).1, ∃ c ∈ work, m = c.move := by
  induction fuel generalizing freed done with
  | zero => exact List.forall_mem_nil _
  | succ fuel ih =>
    rw [rotate]
    split
    · exact List.forall_mem_nil _
    · split
      · exact List.forall_mem_nil _
      · rename_i c located
        intro m inside
        rcases List.mem_cons.mp inside with rfl | later
        · exact ⟨c, List.mem_of_getElem? located, rfl⟩
        · exact ih _ _ m later

theorem breakCyclesServe (done : List Nat) (entries : List (Copy × Nat)) (listed : ∀ e ∈ entries, e.1 ∈ work) :
    ∀ m ∈ breakCycles work done entries, m.Serves work := by
  induction entries generalizing done with
  | nil => exact fun m absent => nomatch absent
  | cons e entries ih =>
    obtain ⟨c, i⟩ := e
    have own : c ∈ work := listed _ List.mem_cons_self
    have later := fun done => ih done fun e inside => listed e (List.mem_cons_of_mem _ inside)
    rw [breakCycles]
    split
    · exact later _
    · intro m inside
      simp only [List.cons_append, List.mem_cons, List.mem_append] at inside
      rcases inside with rfl | moved | rfl | after
      · exact ⟨c.dst, own⟩
      · obtain ⟨d, there, rfl⟩ := rotateCopies _ _ _ m moved
        exact there
      · exact ⟨c.src, own⟩
      · exact later _ m after

theorem resolveClassServes (copies : List Copy) : ∀ m ∈ resolveClass copies, m.Serves copies := by
  intro m inside
  rcases List.mem_append.mp inside with drained | broken
  · obtain ⟨c, there, rfl⟩ := drainCopies _ _ _ m drained
    exact (List.mem_filter.mp there).1
  · refine (breakCyclesServe _ _ (fun e listed => ?_) m broken).mono fun c there => (List.mem_filter.mp there).1
    exact (List.mem_zipIdx listed).2.2 ▸ List.getElem_mem _

theorem breakCyclesNone {done : List Nat} {entries : List (Copy × Nat)} (all : ∀ e ∈ entries, e.2 ∈ done) :
    breakCycles work done entries = [] := by
  induction entries with
  | nil => rfl
  | cons e entries ih =>
    obtain ⟨first, later⟩ := List.forall_mem_cons.mp all
    rw [breakCycles, if_pos (List.contains_iff_mem.mpr first)]
    exact ih later

theorem resolveClassPlain {copies : List Copy} (written : (copies.map Copy.dst).Nodup)
    (plain : ∀ c ∈ copies, ∀ d ∈ copies, d.src ≠ c.dst) :
    ∀ m ∈ resolveClass copies, ∃ c ∈ copies, m = c.move := by
  unfold resolveClass
  dsimp only
  have proper {c : Copy} (inside : c ∈ copies.filter fun c => c.src != c.dst) : c ∈ copies :=
    List.mem_of_mem_filter inside
  have once := filterOnce written fun c => c.src != c.dst
  generalize (copies.filter fun c => c.src != c.dst) = own at *
  have few := startFew own
  have drained := (drains Unit once (2 * own.length + 1) (Draining.start own)
    (by rw [leftNone]; omega)).drained
  intro m inside
  rcases List.mem_append.mp inside with moved | broken
  · obtain ⟨c, there, same⟩ := drainCopies _ _ _ m moved
    exact ⟨c, proper there, same⟩
  · rw [breakCyclesNone fun e listed => ?_] at broken
    · cases broken
    · have found := List.mem_zipIdx_iff_getElem?.mp listed
      by_contra fresh
      refine List.not_mem_nil (drained.complete e.2 e.1 found fresh fun d later => ?_)
      obtain ⟨i, located, -⟩ := memLeft.mp later
      exact plain e.1 (proper (List.mem_of_getElem? found)) d (proper (List.mem_of_getElem? located))

end ParallelCopy

theorem resolveCopiesServe (copies : List Copy) : ∀ m ∈ resolveCopies copies, m.Serves copies := by
  intro m inside
  have part (cls : RegClass) : ∀ c ∈ copies.filter (·.cls == cls), c ∈ copies := fun c => List.mem_of_mem_filter
  rcases List.mem_append.mp inside with general | float
  · exact (ParallelCopy.resolveClassServes _ m general).mono (part .gpr)
  · exact (ParallelCopy.resolveClassServes _ m float).mono (part .fpr)

theorem savedTurns {copies : List Copy} (written : (copies.map Copy.dst).Nodup) {cls : RegClass} {src : Nat}
    (saves : .toTemp cls src ∈ resolveCopies copies) :
    ∃ c ∈ copies, ∃ d ∈ copies, c.cls = cls ∧ d.cls = cls ∧ d.src = c.dst := by
  have own {k : RegClass} (saves : .toTemp cls src ∈ ParallelCopy.resolveClass (copies.filter (·.cls == k))) :
      ∃ c ∈ copies, ∃ d ∈ copies, c.cls = cls ∧ d.cls = cls ∧ d.src = c.dst := by
    obtain ⟨_, served⟩ := ParallelCopy.resolveClassServes _ _ saves
    have same : cls = k := beq_iff_eq.mp (List.mem_filter.mp served).2
    by_contra absent
    have plain : ∀ c ∈ copies.filter (·.cls == k), ∀ d ∈ copies.filter (·.cls == k), d.src ≠ c.dst := by
      intro c inside d there reads
      obtain ⟨inside, here⟩ := List.mem_filter.mp inside
      obtain ⟨there, also⟩ := List.mem_filter.mp there
      exact absent ⟨c, inside, d, there, same ▸ beq_iff_eq.mp here, same ▸ beq_iff_eq.mp also, reads⟩
    obtain ⟨_, -, moved⟩ := ParallelCopy.resolveClassPlain (ParallelCopy.filterOnce written _) plain _ saves
    exact Move.noConfusion moved
  exact (List.mem_append.mp saves).elim own own

end SsaCodegen.X64
