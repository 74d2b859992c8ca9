import SsaCodegen.Proofs.Moves.Rotate
/-! Copies made at once, one move after another: each destination takes what its source held at first,
and only a cycle costs a move more. -/
namespace SsaCodegen.X64

def Copy.keys (c : Copy) : List Nat := [c.src, c.dst]

theorem Copy.srcKey (c : Copy) : c.src ∈ c.keys := List.mem_cons_self

theorem Copy.dstKey (c : Copy) : c.dst ∈ c.keys := List.mem_cons_of_mem _ List.mem_cons_self

namespace ParallelCopy
variable {V : Type} {copies : List Copy}

def Apart (copies : List Copy) : Prop :=
  ∀ c ∈ copies, ∀ d ∈ copies, ∀ key ∈ c.keys, key ∈ d.keys → c.cls = d.cls

section Once
variable (written : (copies.map Copy.dst).Nodup)
include written

theorem filterOnce (keep : Copy → Bool) : ((copies.filter keep).map Copy.dst).Nodup :=
  written.sublist (List.filter_sublist.map _)

theorem cyclesProper : cycles (copies.filter fun c => c.src != c.dst) = cycles copies := by
  refine Set.Subset.antisymm (cyclesMono fun c inside => List.mem_of_mem_filter inside) ?_
  intro ring ⟨nontrivial, once, chain⟩
  refine ⟨nontrivial, once, chainOn chain fun a inside b _ ⟨c, listed, dst, src⟩ => ?_⟩
  refine ⟨c, List.mem_filter.mpr ⟨listed, bne_iff_ne.mpr fun same => ?_⟩, dst, src⟩
  have loop : Takes copies a a := ⟨c, listed, dst, same.trans dst⟩
  have alone : ring = ([a] : List Nat) :=
    ringsAgree (takesOne written) chain ((Cycle.chain_singleton _ a).mpr loop) once (by simp) inside (by simp)
  subst alone
  obtain ⟨x, y, other, left, right⟩ := nontrivial
  rw [Cycle.mem_coe_iff, List.mem_singleton] at left right
  exact other (left.trans right.symm)

theorem drainedBroken (V : Type) (other : ∀ c ∈ copies, c.src ≠ c.dst) {ready : List Nat}
    (start : Draining copies ready []) (few : ready.length ≤ copies.length) :
    let drained := drain copies (2 * copies.length + 1) ready []
    Broken V copies [] (drained.1 ++ breakCycles copies drained.2 copies.zipIdx) := by
  obtain ⟨empty, cyclic, count, runs⟩ := drains V written (2 * copies.length + 1) start
    (by rw [leftNone]; omega)
  have numbered (i : Nat) (below : i < copies.length) : i ∈ copies.zipIdx.map Prod.snd := by
    rw [List.zipIdx_map_snd, List.mem_range'_1]
    omega
  obtain ⟨finite, length, more⟩ := breaks V written other copies.zipIdx
    (fun e listed => List.mem_zipIdx_iff_getElem?.mp listed) empty.toBooked (empty.balanced written)
    fun i below _ => numbered i below
  refine ⟨cyclic ▸ finite, ?_, fun p q m => ?_⟩
  · rw [List.length_append, length, cyclic]
    omega
  · obtain ⟨r, ran, made⟩ := runs p q m
    obtain ⟨s, also, all⟩ := more p r made
    exact ⟨s, by rw [runMovesAppend, ran]; exact also, all⟩

theorem Made.proper {p q : Places V} (m : Made (copies.filter fun c => c.src != c.dst) p q) :
    Made copies p q where
  copied c inside := by
    by_cases same : c.src = c.dst
    · rw [same]
      refine m.kept c.dst fun listed => ?_
      obtain ⟨d, there, also⟩ := List.mem_map.mp listed
      obtain ⟨there, other⟩ := List.mem_filter.mp there
      cases List.inj_on_of_nodup_map written there inside also
      exact bne_iff_ne.mp other same
    · exact m.copied c (List.mem_filter.mpr ⟨inside, bne_iff_ne.mpr same⟩)
  kept k absent := m.kept k fun listed =>
    absent (List.map_subset _ (fun _ => List.mem_of_mem_filter) listed)

theorem classResolved (p : Places V) :
    (∃ q, runMoves (resolveClass copies) p = some q ∧ Made copies p q) ∧ (cycles copies).Finite ∧
      (resolveClass copies).length =
        (copies.countP fun c => c.src != c.dst) + (cycles copies).ncard := by
  have once := filterOnce written fun c => c.src != c.dst
  obtain ⟨finite, count, runs⟩ := drainedBroken once V
    (fun c inside => bne_iff_ne.mp (List.mem_filter.mp inside).2) (Draining.start _) (startFew _)
  rw [leftNone, cyclesProper written] at finite count
  obtain ⟨q, ran, made⟩ := runs p p (Made.nothing p)
  exact ⟨⟨q, ran, made.proper written⟩, finite, List.countP_eq_length_filter ▸ count⟩

end Once

section Classes
variable (apart : Apart copies)
include apart

theorem cyclesClass {ring : Cycle Nat} (cyclic : ring ∈ cycles copies) :
    ∃ cls, ring ∈ cycles (copies.filter (·.cls == cls)) := by
  obtain ⟨nontrivial, once, chain⟩ := cyclic
  obtain ⟨a, -, -, inside, -⟩ := id nontrivial
  obtain ⟨-, -, c, listed, writes, -⟩ := ringNext chain inside
  refine ⟨c.cls, nontrivial, once, ?_⟩
  obtain ⟨l, rfl⟩ := ringFrom inside
  refine (Cycle.chain_coe_cons _ a l).mpr (chainHands (P := fun k => ∃ d ∈ copies, k ∈ d.keys ∧ d.cls = c.cls)
    ?_ ⟨c, listed, writes ▸ c.dstKey, rfl⟩ ((Cycle.chain_coe_cons _ a l).mp chain))
  rintro x y ⟨d, here, uses, same⟩ ⟨e, there, dst, src⟩
  have also : e.cls = c.cls := (apart e there d here x (dst ▸ e.dstKey) uses).trans same
  exact ⟨⟨e, List.mem_filter.mpr ⟨there, beq_iff_eq.mpr also⟩, dst, src⟩, e, there, src ▸ e.srcKey, also⟩

theorem cyclesSplit : cycles copies =
      cycles (copies.filter (·.cls == .gpr)) ∪ cycles (copies.filter (·.cls == .fpr)) ∧
    ∀ ring ∈ cycles (copies.filter (·.cls == .gpr)), ring ∉ cycles (copies.filter (·.cls == .fpr)) := by
  constructor
  · refine Set.Subset.antisymm (fun ring cyclic => ?_) (Set.union_subset ?_ ?_)
    · obtain ⟨cls, cyclic⟩ := cyclesClass apart cyclic
      cases cls with
      | gpr => exact .inl cyclic
      | fpr => exact .inr cyclic
    · exact cyclesMono fun _ => List.mem_of_mem_filter
    · exact cyclesMono fun _ => List.mem_of_mem_filter
  · intro ring general float
    obtain ⟨⟨a, -, -, inside, -⟩, -, chain⟩ := general
    obtain ⟨-, -, c, listed, writes, -⟩ := ringNext chain inside
    obtain ⟨-, -, d, there, also, -⟩ := ringNext float.2.2 inside
    obtain ⟨listed, general⟩ := List.mem_filter.mp listed
    obtain ⟨there, float⟩ := List.mem_filter.mp there
    have same := apart c listed d there a (writes ▸ c.dstKey) (also ▸ d.dstKey)
    rw [beq_iff_eq.mp general, beq_iff_eq.mp float] at same
    exact RegClass.noConfusion same

theorem Made.classes {p q r : Places V} (general : Made (copies.filter (·.cls == .gpr)) p q)
    (float : Made (copies.filter (·.cls == .fpr)) q r) : Made copies p r := by
  have other {one two : RegClass} (differ : one ≠ two) {c : Copy} (inside : c ∈ copies) (here : c.cls = one)
      {key : Nat} (uses : key ∈ c.keys) : key ∉ (copies.filter (·.cls == two)).map Copy.dst := by
    intro listed
    obtain ⟨d, there, writes⟩ := List.mem_map.mp listed
    obtain ⟨there, cls⟩ := List.mem_filter.mp there
    exact differ (here.symm.trans ((apart c inside d there key uses (writes ▸ d.dstKey)).trans (beq_iff_eq.mp cls)))
  refine ⟨fun c inside => ?_, fun k absent => ?_⟩
  · match cls : c.cls with
    | .gpr =>
      rw [float.kept c.dst (other (by decide) inside cls c.dstKey)]
      exact general.copied c (List.mem_filter.mpr ⟨inside, beq_iff_eq.mpr cls⟩)
    | .fpr =>
      rw [← general.kept c.src (other (by decide) inside cls c.srcKey)]
      exact float.copied c (List.mem_filter.mpr ⟨inside, beq_iff_eq.mpr cls⟩)
  · have missing (cls : RegClass) : k ∉ (copies.filter (·.cls == cls)).map Copy.dst := fun listed =>
      absent (List.map_subset _ (fun _ => List.mem_of_mem_filter) listed)
    rw [float.kept k (missing .fpr), general.kept k (missing .gpr)]

end Classes

theorem countClasses (copies : List Copy) (keep : Copy → Bool) :
    (copies.filter (·.cls == .gpr)).countP keep + (copies.filter (·.cls == .fpr)).countP keep =
      copies.countP keep := by
  induction copies with
  | nil => rfl
  | cons c rest ih =>
    rw [List.countP_cons, ← ih]
    cases cls : c.cls <;> simp [cls, List.countP_cons] <;> omega

end ParallelCopy

theorem copiesMade {V : Type} {copies : List Copy} (written : (copies.map Copy.dst).Nodup)
    (apart : ParallelCopy.Apart copies) (p : Places V) :
    ∃ q, runMoves (resolveCopies copies) p = some q ∧ ParallelCopy.Made copies p q := by
  open ParallelCopy in
  obtain ⟨⟨q, ran, general⟩, -⟩ := classResolved (filterOnce written (·.cls == .gpr)) p
  obtain ⟨⟨r, also, float⟩, -⟩ := classResolved (filterOnce written (·.cls == .fpr)) q
  refine ⟨r, ?_, .classes apart general float⟩
  rw [resolveCopies, runMovesAppend, ran]
  exact also

/-- The moves, one after another, do what the copies would do at once; a temporary is read only after
it has been written, and each cycle costs one move. -/
theorem copiesAtOnce {V : Type} (copies : List Copy) (written : (copies.map Copy.dst).Nodup)
    (apart : ParallelCopy.Apart copies) (held : Nat → V) :
    ∃ after, runMoves (resolveCopies copies) ⟨held, fun _ => none⟩ = some after ∧
      (∀ c ∈ copies, after.held c.dst = held c.src) ∧
      (∀ key, key ∉ copies.map Copy.dst → after.held key = held key) ∧
      (ParallelCopy.cycles copies).Finite ∧
      (resolveCopies copies).length =
        (copies.countP fun c => c.src != c.dst) + (ParallelCopy.cycles copies).ncard := by
  open ParallelCopy in
  obtain ⟨after, ran, made⟩ := copiesMade written apart ⟨held, fun _ => none⟩
  obtain ⟨-, finite, count⟩ := classResolved (filterOnce written (·.cls == .gpr)) ⟨held, fun _ => none⟩
  obtain ⟨-, infinite, more⟩ := classResolved (filterOnce written (·.cls == .fpr)) ⟨held, fun _ => none⟩
  obtain ⟨both, other⟩ := cyclesSplit apart
  refine ⟨after, ran, made.copied, made.kept, both ▸ finite.union infinite, ?_⟩
  rw [resolveCopies, List.length_append, count, more, both,
    Set.ncard_union_eq (Set.disjoint_left.mpr fun ring => other ring) finite infinite, ← countClasses copies]
  omega

theorem exchangedAtOnce :
    let copies : List Copy := [⟨0, 1, .gpr⟩, ⟨1, 0, .gpr⟩, ⟨1, 2, .gpr⟩, ⟨16, 17, .fpr⟩]
    (copies.map Copy.dst).Nodup ∧ ParallelCopy.Apart copies ∧ (ParallelCopy.cycles copies).ncard = 1 ∧
      ∃ after, runMoves (resolveCopies copies) ⟨fun key => key, fun _ => none⟩ = some after ∧
        after.held 0 = 1 ∧ after.held 1 = 0 ∧ after.held 2 = 1 ∧ after.held 17 = 16 ∧ after.held 3 = 3 := by
  intro copies
  have once : (copies.map Copy.dst).Nodup := by decide
  have apart : ParallelCopy.Apart copies := by
    unfold ParallelCopy.Apart
    decide
  obtain ⟨after, ran, copied, kept, -, count⟩ := copiesAtOnce copies once apart fun key => key
  have moves : (resolveCopies copies).length = 5 := by decide
  have pairs : (copies.countP fun c => c.src != c.dst) = 4 := by decide
  exact ⟨once, apart, by omega, after, ran, copied ⟨1, 0, .gpr⟩ (by decide), copied ⟨0, 1, .gpr⟩ (by decide),
    copied ⟨1, 2, .gpr⟩ (by decide), copied ⟨16, 17, .fpr⟩ (by decide), kept 3 (by decide)⟩

end SsaCodegen.X64
