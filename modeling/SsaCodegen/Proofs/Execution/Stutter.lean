import SsaCodegen.Proofs.Execution.Simulation
/-! Runs of different length. One function may pass more blocks than the other to get to the
same point, as long as it gets there. -/
namespace SsaCodegen
open Semantics

/-- Runs of the second function see and show the same and end the same as those of the first,
though they may pass more blocks until then. -/
def SameRuns (f g : Func) : Prop :=
  ∀ (World : Type) (o : Surroundings World) (args : List Word) (world : World) (n : Nat),
    ∃ m, n ≤ m ∧ run o g args world m = run o f args world n

namespace Semantics
variable {World : Type} {o : Surroundings World} {f g : Func}

def runFrom (o : Surroundings World) (f : Func) (n : Nat) : Exit World → Outcome World
  | .jumps b args s => runBlocks o f n b args s
  | .ends ending s => ⟨s.trace, s.world, some ending⟩

def after (o : Surroundings World) (f : Func) : Nat → Exit World → Exit World
  | 0, exit => exit
  | _ + 1, .ends ending s => .ends ending s
  | k + 1, .jumps b args s => after o f k (runBlock o f b args s)

theorem runBlocksSucc (n b : Nat) (args : List Word) (s : State World) :
    runBlocks o f (n + 1) b args s = runFrom o f n (runBlock o f b args s) := by
  rw [runBlocks]
  cases runBlock o f b args s <;> rfl

theorem runFromAfter (k m : Nat) (x : Exit World) :
    runFrom o f (k + m) x = runFrom o f m (after o f k x) := by
  induction k generalizing x with
  | zero => rw [Nat.zero_add, after]
  | succ k ih =>
    cases x with
    | ends ending s => rfl
    | jumps b args s =>
      rw [after, ← ih, Nat.add_right_comm]
      exact runBlocksSucc _ b args s

inductive ExitsMeet (related : Nat → List Word → State World → Nat → List Word → State World → Prop) :
    Exit World → Exit World → Prop where
  | jumps {b args s c words t} (next : related b args s c words t) :
    ExitsMeet related (.jumps b args s) (.jumps c words t)
  | ends {ending s t} (beside : Beside s t) : ExitsMeet related (.ends ending s) (.ends ending t)

theorem runBlocksInStep
    (related : Nat → List Word → State World → Nat → List Word → State World → Prop)
    (beside : ∀ b args s c words t, related b args s c words t → Beside s t)
    (meets : ∀ b args s c words t, related b args s c words t →
      ExitsMeet related (runBlock o f b args s) (runBlock o g c words t))
    (n : Nat) {b c : Nat} {args words : List Word} {s t : State World}
    (start : related b args s c words t) : runBlocks o g n c words t = runBlocks o f n b args s := by
  induction n generalizing b c args words s t with
  | zero => exact (beside _ _ _ _ _ _ start).outcome none
  | succ n ih =>
    have exits := meets _ _ _ _ _ _ start
    rw [runBlocks, runBlocks]
    generalize runBlock o f b args s = x, runBlock o g c words t = y at exits
    cases exits with
    | jumps next => exact ih next
    | ends beside => exact beside.outcome _

theorem runBlocksMeet
    (related : Nat → List Word → State World → Nat → List Word → State World → Prop)
    (beside : ∀ b args s c words t, related b args s c words t → Beside s t)
    (meets : ∀ b args s c words t, related b args s c words t →
      ∃ k, ExitsMeet related (runBlock o f b args s) (after o g k (runBlock o g c words t)))
    (n : Nat) {b c : Nat} {args words : List Word} {s t : State World}
    (start : related b args s c words t) :
    ∃ m, n ≤ m ∧ runBlocks o g m c words t = runBlocks o f n b args s := by
  induction n generalizing b c args words s t with
  | zero => exact ⟨0, Nat.le_refl 0, (beside _ _ _ _ _ _ start).outcome none⟩
  | succ n ih =>
    obtain ⟨k, exits⟩ := meets _ _ _ _ _ _ start
    rw [runBlocksSucc]
    have further (m : Nat) : runBlocks o g (k + m + 1) c words t =
        runFrom o g m (after o g k (runBlock o g c words t)) := by
      rw [runBlocksSucc, runFromAfter]
    generalize runBlock o f b args s = x, after o g k (runBlock o g c words t) = y at exits further
    cases exits with
    | jumps next =>
      obtain ⟨m, later, same⟩ := ih next
      exact ⟨k + m + 1, by omega, (further m).trans same⟩
    | ends beside => exact ⟨k + n + 1, by omega, (further n).trans (beside.outcome _)⟩

end Semantics

namespace SameRuns
variable {f g h : Func}

theorem ofEqual (same : ∀ (World : Type) (o : Surroundings World) (args : List Word) (world : World)
    (n : Nat), run o g args world n = run o f args world n) : SameRuns f g :=
  fun World o args world n => ⟨n, Nat.le_refl n, same World o args world n⟩

theorem refl (f : Func) : SameRuns f f := ofEqual fun _ _ _ _ _ => rfl

theorem trans (first : SameRuns f g) (second : SameRuns g h) : SameRuns f h := by
  intro World o args world n
  obtain ⟨m, le, same⟩ := first World o args world n
  obtain ⟨k, le', same'⟩ := second World o args world m
  exact ⟨k, Nat.le_trans le le', same'.trans same⟩

end SameRuns
end SsaCodegen
