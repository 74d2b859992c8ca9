import SsaCodegen.Proofs.Execution.Equations
import SsaCodegen.Proofs.Execution.Simulation
/-! Motion of pure instructions. It does not matter where they stand as long as functions are
well-formed. A value known to both runs was computed by both, from operands known to both. -/
namespace SsaCodegen
open Semantics

def effects (insts : List Inst) : List Inst := insts.filter fun i => !i.op.isPure

theorem effectsPure {i : Inst} (pure : i.op.isPure = true) (rest : List Inst) :
    effects (i :: rest) = effects rest := List.filter_cons_of_neg (by simp [pure])

theorem effectsOther {i : Inst} (other : i.op.isPure = false) (rest : List Inst) :
    effects (i :: rest) = i :: effects rest := List.filter_cons_of_pos (by simp [other])

structure Rearranged (f g : Func) : Prop where
  kin : Kin f g
  rest : ∀ b, effects (g.block b).insts = effects (f.block b).insts
  insts : g.insts.Perm f.insts

namespace Rearranged

theorem refl (f : Func) : Rearranged f f := ⟨⟨rfl, rfl, rfl, fun _ => rfl⟩, fun _ => rfl, .refl _⟩

theorem symm {f g : Func} (r : Rearranged f g) : Rearranged g f :=
  ⟨r.kin.symm, fun b => (r.rest b).symm, r.insts.symm⟩

theorem trans {f g h : Func} (r : Rearranged f g) (q : Rearranged g h) : Rearranged f h :=
  ⟨r.kin.trans q.kin, fun b => (q.rest b).trans (r.rest b), q.insts.trans r.insts⟩

end Rearranged

namespace Semantics
variable {World : Type} {o : Surroundings World} {f g : Func} {known also : Nat → Prop}

structure Abreast (known also : Nat → Prop) (s t : State World) : Prop extends Beside s t where
  regs : ∀ v, known v → also v → t.regs v = s.regs v

theorem Abreast.symm {s t : State World} (abreast : Abreast known also s t) : Abreast also known t s where
  world := abreast.world.symm
  trace := abreast.trace.symm
  regs v right left := (abreast.regs v left right).symm

theorem Abreast.mono {fewer less : Nat → Prop} {s t : State World} (abreast : Abreast known also s t)
    (left : ∀ v, fewer v → known v) (right : ∀ v, less v → also v) : Abreast fewer less s t :=
  ⟨abreast.toBeside, fun v one two => abreast.regs v (left v one) (right v two)⟩

section Step
variable (r : Rearranged f g) {i : Inst} {rest insts : List Inst} {s t u v : State World}
  (left : Poised o f known (i :: rest) s.regs) (right : Poised o g also insts t.regs)
  (abreast : Abreast known also s t)
include r left right abreast

theorem pureAbreast (pure : i.op.isPure = true) (goes : step o f i s = .next u) :
    Abreast (fun v => known v ∨ i.result = some v) also u t := by
  obtain ⟨words, word, reads, computes, rfl⟩ := pureSteps pure goes
  refine ⟨⟨abreast.world, abreast.trace⟩, fun v held there => ?_⟩
  change t.regs v = write i s.regs word v
  by_cases own : i.result = some v
  · have listed : i ∈ g.insts := r.insts.mem_iff.mpr (left.listed i List.mem_cons_self)
    obtain ⟨others, other, reads', computes', holds⟩ := right.solved i listed pure v own there
    have same : readOperands g i t.regs = readOperands f i s.regs := by
      rw [r.kin.readOperands]
      exact readSame fun id used => abreast.regs id (left.orderly.1 id used)
        (right.operands i listed v own there id used)
    rw [same, reads] at reads'
    cases reads'
    rw [r.kin.compute, computes] at computes'
    cases computes'
    simp [holds, write, own, assign]
  · rw [writeOther own]
    exact abreast.regs v (held.resolve_right own) there

end Step

theorem Poised.pureNext (ok : WellFormed f) {i : Inst} {rest : List Inst} {s : State World}
    (poised : Poised o f known (i :: rest) s.regs) (pure : i.op.isPure = true) :
    ∃ u, step o f i s = .next u := by
  obtain ⟨bb, there, listed⟩ := List.mem_flatMap.mp (poised.listed i List.mem_cons_self)
  obtain ⟨words, word, -, -, goes⟩ := pureGoes o (ok.sound bb there i listed).toFitInst pure
    fun id used => poised.defined id (poised.orderly.1 id used)
  exact ⟨_, goes⟩

theorem sharedStep (okF : WellFormed f) (r : Rearranged f g) {i : Inst} {rest others : List Inst}
    {s t : State World} (left : Poised o f known (i :: rest) s.regs)
    (right : Poised o g also (i :: others) t.regs) (abreast : Abreast known also s t) :
    (∃ u v, step o f i s = .next u ∧ step o g i t = .next v ∧
      Abreast (fun v => known v ∨ i.result = some v) (fun v => also v ∨ i.result = some v) u v) ∨
    ∃ x y, step o f i s = .exits x ∧ step o g i t = .exits y ∧
      ExitsAlike (fun _ => Abreast (fun v => known v ∨ ∃ j ∈ i :: rest, j.result = some v)
        fun v => also v ∨ ∃ j ∈ i :: others, j.result = some v) x y := by
  have same : ∀ id ∈ i.usedTemps, t.regs id = s.regs id := fun id used =>
    abreast.regs id (left.orderly.1 id used) (right.orderly.1 id used)
  have reads : readOperands g i t.regs = readOperands f i s.regs := by
    rw [r.kin.readOperands]
    exact readSame same
  have alike : Alike f g i i := .ofKin r.kin i
  cases last : i.isTerminator with
  | true =>
    right
    rcases lastStep (o := o) alike last abreast.toBeside reads with
      ⟨words, edge, -, -, takes, takes'⟩ | ⟨ending, u, v, ends, ends', beside⟩
    · refine ⟨_, _, takes, takes', .ofEdge r.kin rfl abreast.toBeside (argsSame same edge) fun b => ?_⟩
      cases left.ended [] i rest rfl last
      cases right.ended [] i others rfl last
      obtain ⟨bb, there, listed⟩ := List.mem_flatMap.mp (left.listed i List.mem_cons_self)
      have quiet := resultOfTerminator (okF.sound bb there i listed).shape last
      exact abreast.mono (fun v held => by simpa [quiet] using held) fun v held => by
        simpa [quiet] using held
    · exact ⟨_, _, ends, ends', .ends beside⟩
  | false =>
    rcases plainStep (o := o) alike last abreast.toBeside reads with
      ⟨word, u, v, goes, goes', beside, one, two⟩ | ⟨ending, u, v, ends, ends', beside⟩
    · refine .inl ⟨u, v, goes, goes', beside, fun w held there => ?_⟩
      rw [one, two]
      by_cases own : i.result = some w
      · simp [write, own, assign]
      · rw [writeOther own, writeOther own]
        exact abreast.regs w (held.resolve_right own) (there.resolve_right own)
    · exact .inr ⟨_, _, ends, ends', .ends beside⟩

def GoAbreast (o : Surroundings World) (f g : Func) (known also : Nat → Prop) (insts others : List Inst)
    (s t : State World) : Prop :=
  ExitsAlike (fun _ => Abreast (fun v => known v ∨ ∃ i ∈ insts, i.result = some v)
      fun v => also v ∨ ∃ i ∈ others, i.result = some v)
    (runInsts o f insts s) (runInsts o g others t)

theorem GoAbreast.symm {insts others : List Inst} {s t : State World}
    (go : GoAbreast o f g known also insts others s t) : GoAbreast o g f also known others insts t s := by
  unfold GoAbreast at go ⊢
  generalize runInsts o f insts s = x, runInsts o g others t = y at go
  cases go with
  | jumps next => exact .jumps next.symm
  | ends beside => exact .ends ⟨beside.world.symm, beside.trace.symm⟩

theorem GoAbreast.pure (okF : WellFormed f) (r : Rearranged f g) {i : Inst} {rest others : List Inst}
    {s t : State World} (left : Poised o f known (i :: rest) s.regs)
    (right : Poised o g also others t.regs) (abreast : Abreast known also s t)
    (pure : i.op.isPure = true)
    (further : ∀ u, Poised o f (fun v => known v ∨ i.result = some v) rest u.regs →
      Abreast (fun v => known v ∨ i.result = some v) also u t →
      GoAbreast o f g (fun v => known v ∨ i.result = some v) also rest others u t) :
    GoAbreast o f g known also (i :: rest) others s t := by
  obtain ⟨u, goes⟩ := left.pureNext okF pure
  have go := further u (left.next okF goes) (pureAbreast r left right abreast pure goes)
  unfold GoAbreast at go ⊢
  rw [runInsts, goes]
  refine go.map fun _ _ _ _ _ _ abreast => abreast.mono (fun v held => ?_) fun v => id
  simpa [or_assoc] using held

variable (okF : WellFormed f) (okG : WellFormed g) (r : Rearranged f g)
include okF okG r

theorem GoAbreast.shared {i j : Inst} {rest others : List Inst} (other : i.op.isPure = false)
    (other' : j.op.isPure = false) (same : effects (j :: others) = effects (i :: rest)) {s t : State World}
    (left : Poised o f known (i :: rest) s.regs) (right : Poised o g also (j :: others) t.regs)
    (abreast : Abreast known also s t)
    (further : ∀ u v, effects others = effects rest →
      Poised o f (fun w => known w ∨ i.result = some w) rest u.regs →
      Poised o g (fun w => also w ∨ j.result = some w) others v.regs →
      Abreast (fun w => known w ∨ i.result = some w) (fun w => also w ∨ j.result = some w) u v →
      GoAbreast o f g (fun w => known w ∨ i.result = some w) (fun w => also w ∨ j.result = some w)
        rest others u v) : GoAbreast o f g known also (i :: rest) (j :: others) s t := by
  rw [effectsOther other, effectsOther other'] at same
  obtain ⟨rfl, tails⟩ := List.cons.inj same
  unfold GoAbreast at further ⊢
  rw [runInsts, runInsts]
  rcases sharedStep okF r left right abreast with ⟨u, v, goes, goes', next⟩ | ⟨x, y, exits, exits', alike⟩
  · rw [goes, goes']
    refine (further u v tails (left.next okF goes) (right.next okG goes') next).map
      fun _ _ _ _ _ _ abreast => abreast.mono (fun w held => ?_) fun w held => ?_
    · simpa [or_assoc] using held
    · simpa [or_assoc] using held
  · rw [exits, exits']
    exact alike

theorem instsAbreast (n : Nat) {insts others : List Inst} (size : insts.length + others.length ≤ n)
    (same : effects others = effects insts) {s t : State World}
    (left : Poised o f known insts s.regs) (right : Poised o g also others t.regs)
    (abreast : Abreast known also s t) : GoAbreast o f g known also insts others s t := by
  induction n generalizing known also insts others s t with
  | zero =>
    obtain ⟨one, two⟩ := Nat.add_eq_zero_iff.mp (Nat.le_zero.mp size)
    cases List.eq_nil_of_length_eq_zero one
    cases List.eq_nil_of_length_eq_zero two
    exact .ends abreast.toBeside
  | succ n ih =>
    have behind {j : Inst} {more : List Inst} (first : others = j :: more) (pure : j.op.isPure = true) :
        GoAbreast o f g known also insts others s t := by
      subst first
      rw [List.length_cons] at size
      refine (GoAbreast.pure okG r.symm right left abreast.symm pure fun u right abreast => .symm ?_).symm
      exact ih (by omega) ((effectsPure pure more).symm.trans same) left right abreast.symm
    cases insts with
    | nil =>
      cases others with
      | nil => exact .ends abreast.toBeside
      | cons j more =>
        cases pure : j.op.isPure with
        | true => exact behind rfl pure
        | false => exact nomatch (effectsOther pure more).symm.trans same
    | cons i rest =>
      rw [List.length_cons] at size
      cases pure : i.op.isPure with
      | true =>
        refine .pure okF r left right abreast pure fun u left abreast => ?_
        exact ih (by omega) (same.trans (effectsPure pure rest)) left right abreast
      | false =>
        cases others with
        | nil => exact nomatch same.trans (effectsOther pure rest)
        | cons j more =>
          cases pure' : j.op.isPure with
          | true => exact behind rfl pure'
          | false =>
            rw [List.length_cons] at size
            exact .shared okF okG r pure pure' same left right abreast fun u v tails left right abreast =>
              ih (by omega) tails left right abreast

def Abut (o : Surroundings World) (f g : Func) (b : Nat) (s t : State World) : Prop :=
  Settled o f b s.regs ∧ Settled o g b t.regs ∧
    Abreast (fun v => ¬ Missing f v (f.block b).label) (fun v => ¬ Missing g v (g.block b).label) s t

theorem blockAbreast {b : Nat} {args : List Word} {s t : State World} (abut : Abut o f g b s t) :
    ExitsAlike (Abut o f g) (runBlock o f b args s) (runBlock o g b args t) := by
  obtain ⟨left, right, abreast⟩ := abut
  by_cases enough : args.length = (f.block b).params.length
  · have enough' : args.length = (g.block b).params.length := by rw [r.kin.params, enough]
    have one : runBlock o f b args s = runInsts o f (f.block b).insts
        { s with regs := bind (f.block b).params args s.regs } := if_pos enough
    have two : runBlock o g b args t = runInsts o g (g.block b).insts
        { t with regs := bind (g.block b).params args t.regs } := if_pos enough'
    have start : Abreast (KnownAt f (f.block b)) (KnownAt g (g.block b))
        { s with regs := bind (f.block b).params args s.regs }
        { t with regs := bind (g.block b).params args t.regs } := by
      refine ⟨⟨abreast.world, abreast.trace⟩, fun v held there => ?_⟩
      rw [r.kin.params]
      refine bindSame enough fun other => abreast.regs v (held.resolve_right other) (there.resolve_right ?_)
      rwa [Block.paramIds, r.kin.params]
    rw [one, two]
    refine (instsAbreast okF okG r _ (Nat.le_refl _) (r.rest b) (left.poised okF enough)
      (right.poised okG enough') start).map fun c words u v jumps jumps' abreast => ?_
    have jumps := one.trans jumps
    have jumps' := two.trans jumps'
    refine ⟨left.next okF jumps, right.next okG jumps', abreast.mono (fun v known => ?_) fun v known => ?_⟩
    · exact left.known okF jumps known
    · exact right.known okG jumps' known
  · have one : runBlock o f b args s = .ends .stuck s := if_neg enough
    have two : runBlock o g b args t = .ends .stuck t := if_neg (by rwa [r.kin.params])
    rw [one, two]
    exact .ends abreast.toBeside

theorem motionRuns (args : List Word) (world : World) (n : Nat) :
    run o g args world n = run o f args world n := by
  refine runBlocksTogether (fun _ _ _ abut => abut.2.2.toBeside)
    (fun _ _ _ _ => blockAbreast okF okG r) n 0 args ⟨.start okF _, .start okG _, ⟨rfl, rfl⟩, ?_⟩
  exact fun v known => absurd (Arrived.nothingKnown okF v) known

end Semantics
end SsaCodegen
