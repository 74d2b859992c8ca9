import SsaCodegen.Target.RegisterFile
/-! Copies that happen at once, carried out one after another. Places are keys. A copy
may go ahead once nobody still has to read its destination; what is left are cycles,
each broken by saving one source in a temporary of the class. -/
namespace SsaCodegen.X64

structure Copy where
  src : Nat
  dst : Nat
  cls : RegClass
  deriving DecidableEq, Repr, Inhabited

inductive Move where
  | copy (cls : RegClass) (src dst : Nat)
  | toTemp (cls : RegClass) (src : Nat)
  | fromTemp (cls : RegClass) (dst : Nat)
  deriving DecidableEq, Repr, Inhabited

namespace ParallelCopy

def readers (work : List Copy) (done : List Nat) (key : Nat) : List Nat :=
  work.zipIdx.filterMap fun (c, i) => if c.src == key && !done.contains i then some i else none

theorem memReaders {work : List Copy} {done : List Nat} {key i : Nat} :
    i ∈ readers work done key ↔ ∃ c, work[i]? = some c ∧ c.src = key ∧ i ∉ done := by
  simp only [readers, List.mem_filterMap, Prod.exists, List.mem_zipIdx_iff_getElem?,
    Option.ite_none_right_eq_some, Bool.and_eq_true, beq_iff_eq]
  constructor
  · rintro ⟨c, _, found, reads, same⟩
    cases same
    exact ⟨c, found, by simpa using reads⟩
  · rintro ⟨c, found, reads⟩
    exact ⟨c, i, found, by simpa using reads, rfl⟩

def writer? (work : List Copy) (key : Nat) : Option Nat :=
  (work.zipIdx.filterMap fun (c, i) => if c.dst == key then some i else none).getLast?

def pendingWriter? (work : List Copy) (done : List Nat) (key : Nat) : Option Nat :=
  (writer? work key).filter fun i => !done.contains i

/-- Makes the copies on the ready list, the newest first; a key that has lost its last
reader makes its writer ready. Yields the moves and which copies are made. -/
def drain (work : List Copy) : Nat → List Nat → List Nat → List Move × List Nat
  | 0, _, done => ([], done)
  | _, [], done => ([], done)
  | fuel + 1, i :: ready, done =>
    match work[i]? with
    | none => drain work fuel ready done
    | some c =>
      if done.contains i then drain work fuel ready done
      else
        let done := i :: done
        let freed :=
          if (readers work done c.src).isEmpty then (pendingWriter? work done c.src).toList
          else []
        let (moves, made) := drain work fuel (freed ++ ready) done
        (.copy c.cls c.src c.dst :: moves, made)

def rotate (work : List Copy) : Nat → Nat → List Nat → List Move × List Nat
  | 0, _, done => ([], done)
  | fuel + 1, freed, done =>
    match pendingWriter? work done freed with
    | none => ([], done)
    | some i =>
      match work[i]? with
      | none => ([], done)
      | some c =>
        let (moves, made) := rotate work fuel c.src (i :: done)
        (.copy c.cls c.src c.dst :: moves, made)

def breakCycles (work : List Copy) (done : List Nat) : List (Copy × Nat) → List Move
  | [] => []
  | (c, i) :: rest =>
    if done.contains i then breakCycles work done rest
    else
      let (moves, made) := rotate work work.length c.src (i :: done)
      .toTemp c.cls c.src :: moves ++ .fromTemp c.cls c.dst :: breakCycles work made rest

def resolveClass (copies : List Copy) : List Move :=
  let work := copies.filter fun c => c.src != c.dst
  let ready := work.zipIdx.filterMap fun (c, i) =>
    if (readers work [] c.dst).isEmpty then some i else none
  let (moves, done) := drain work (2 * work.length + 1) ready.reverse []
  moves ++ breakCycles work done work.zipIdx

end ParallelCopy

def resolveCopies (copies : List Copy) : List Move :=
  ParallelCopy.resolveClass (copies.filter (·.cls == .gpr)) ++
    ParallelCopy.resolveClass (copies.filter (·.cls == .fpr))

end SsaCodegen.X64
