import SsaCodegen.Proofs.Execution.Motion
import SsaCodegen.Proofs.Ir.Prune
/-! Pruning keeps runs. Nothing that is left reads what goes, so the two runs agree on everything
else, and a branch that compares goes where the branch on the comparison went. -/
namespace SsaCodegen
open Semantics Structure

structure PrunedTo (gone : Nat → Prop) (f g : Func) : Prop where
  wellFormed : WellFormed f
  signature : g.signature = f.signature
  types : g.valueTypes = f.valueTypes
  blocks : PrunedBlocks g gone f.blocks g.blocks
  unread : ∀ j ∈ g.insts, ∀ id ∈ j.usedTemps, ¬ gone id

namespace PrunedTo
variable {gone : Nat → Prop} {f g : Func} (p : PrunedTo gone f g)
include p

theorem rewrites : Rewrites f g := ⟨p.signature, p.types ▸ List.prefix_refl _, p.blocks.heads⟩

theorem kin : Kin f g := .ofRewrites p.rewrites p.types

theorem insts {b : Nat} {bb : Block} (there : f.blocks[b]? = some bb) :
    Pruned g gone bb.insts (g.block b).insts ∧
      ∀ j ∈ (g.block b).insts, ∀ id ∈ j.usedTemps, ¬ gone id := by
  have head := p.rewrites.headAt b
  rw [there, Option.map_some] at head
  obtain ⟨c, located, -⟩ := Option.map_eq_some_iff.mp head
  rw [Func.blockAt located]
  exact ⟨(p.blocks.blockAt there located).2, fun j listed => p.unread j
    (Func.memInsts (List.mem_of_getElem? located) listed)⟩

section Step
variable {World : Type} {o : Surroundings World} {known : Nat → Prop} {i : Inst} {rest : List Inst}
  {s t : State World} (poised : Poised o f known (i :: rest) s.regs)
  (abreast : Abreast known (fun v => ¬ gone v) s t)
include poised abreast

omit p in
theorem dropped (ok : WellFormed f) (isPure : i.op.isPure = true) (removed : ∀ v, i.result = some v → gone v) :
    ∃ u, step o f i s = .next u ∧
      Abreast (fun v => known v ∨ i.result = some v) (fun v => ¬ gone v) u t := by
  have fit := (ok.inst (poised.listed i List.mem_cons_self)).1.toFitInst
  obtain ⟨words, word, -, -, goes⟩ := pureGoes o fit isPure fun v used => poised.defined v (poised.orderly.1 v used)
  refine ⟨_, goes, ⟨abreast.world, abreast.trace⟩, fun v held stays => ?_⟩
  have other : i.result ≠ some v := fun result => stays (removed v result)
  exact (abreast.regs v (held.resolve_right other) stays).trans (writeOther other).symm

omit p poised in
theorem written {u v : State World} (beside : Beside u v) {word : Word}
    (left : u.regs = write i s.regs word) (right : v.regs = write i t.regs word) :
    Abreast (fun v => known v ∨ i.result = some v) (fun v => ¬ gone v) u v where
  toBeside := beside
  regs w held stays := by
    rw [left, right]
    by_cases own : i.result = some w
    · simp [write, own, assign]
    · rw [writeOther own, writeOther own, abreast.regs w (held.resolve_right own) stays]

variable (read : ∀ id ∈ i.usedTemps, ¬ gone id)
include read

theorem readsAlike : readOperands g i t.regs = readOperands f i s.regs := by
  rw [p.kin.readOperands]
  exact readSame fun id used => abreast.regs id (poised.orderly.1 id used) (read id used)

end Step

section Fused
variable {World : Type} {o : Surroundings World} {known : Nat → Prop} {first last fused : Inst}
  {s t : State World}

omit p in
theorem comparesTo {i : Inst} (op : i.op = .icmp) {words : List Word} {word : Word}
    (computes : compute o f i words = some word) :
    ∃ a b, words = [a, b] ∧ word = BitVec.ofNat 64 (comparison f i a b).toNat := by
  unfold compute at computes
  rw [op] at computes
  rcases words with _ | ⟨a, _ | ⟨b, _ | ⟨c, rest⟩⟩⟩
  · cases computes
  · cases computes
  · exact ⟨a, b, rfl, (Option.some.inj computes).symm⟩
  · cases computes

omit p in
theorem compareResult {i : Inst} (fit : FitInst f i) (op : i.op = .icmp) : i.ty = .b1 := by
  have types := fit.types
  simp only [typeMessages, op, List.append_eq_nil_iff, complainUnlessIff, beq_iff_eq] at types
  exact types.1

omit p in
theorem truthKept (truth : Bool) : Ty.b1.canonical (BitVec.ofNat 64 truth.toNat) ≠ 0 ↔ truth = true := by
  cases truth <;> decide

omit p in
theorem branchSteps {i : Inst} {id : Nat} (op : i.op = .brif) (operands : i.operands = [.temp id]) {word : Word}
    (held : s.regs id = some word) :
    step o f i s = .exits (takeEdge f i (if word ≠ 0 then 0 else 1) s) := by
  have reads : readOperands f i s.regs = some [word] := by
    simp [readOperands, operands, readAs, held]
  have last : i.isTerminator = true := by rw [Inst.isTerminator, op]; rfl
  refine stepTakes o last reads ?_
  unfold depart
  rw [op]

omit p in
theorem compareSteps {i : Inst} (op : i.op = .brIcmp) {a b : Word}
    (reads : readOperands f i s.regs = some [a, b]) :
    step o f i s = .exits (takeEdge f i (if comparison f i a b then 0 else 1) s) := by
  have last : i.isTerminator = true := by rw [Inst.isTerminator, op]; rfl
  refine stepTakes o last reads ?_
  unfold depart
  rw [op]

theorem fusedAlike (poised : Poised o f known [first, last] s.regs)
    (abreast : Abreast known (fun v => ¬ gone v) s t) (fuses : Fuses g first last fused)
    (removed : ∀ v, first.result = some v → gone v) (read : ∀ id ∈ fused.usedTemps, ¬ gone id) :
    ExitsAlike (fun _ => Abreast (fun v => known v ∨ ∃ i ∈ [first, last], i.result = some v) fun v => ¬ gone v)
      (runInsts o f [first, last] s) (runInsts o g [fused] t) := by
  have fit := (p.wellFormed.inst (poised.listed first List.mem_cons_self)).1.toFitInst
  have isPure : first.op.isPure = true := by
    rw [fuses.compares]
    rfl
  obtain ⟨words, word, reads, computes, goes⟩ :=
    pureGoes o fit isPure fun v used => poised.defined v (poised.orderly.1 v used)
  obtain ⟨a, b, rfl, rfl⟩ := comparesTo fuses.compares computes
  obtain ⟨id, result, operands⟩ := fuses.reads
  obtain ⟨u, moves, after⟩ := dropped poised abreast p.wellFormed isPure removed
  cases goes.symm.trans moves
  have later := poised.next p.wellFormed goes
  -- what the new branch reads was known before the comparison
  have knows (v : Nat) (used : v ∈ fused.usedTemps) : known v ∨ first.result = some v :=
    (fuses.uses v used).elim (fun here => .inl (poised.orderly.1 v here)) (later.orderly.1 v)
  have agrees (v : Nat) (used : v ∈ fused.usedTemps) : t.regs v = s.regs v :=
    abreast.regs v ((knows v used).resolve_right fun result => read v used (removed v result)) (read v used)
  have width : compareTy g fused = compareTy f first := by
    rw [p.kin.compareTy]
    simp only [compareTy, Inst.operand, fuses.operands]
  have readsFused : readOperands g fused t.regs = some [a, b] := by
    have same (k : Nat) : operandTy g fused k = operandTy f first k := by
      simp only [operandTy, fuses.both, fuses.compares, width]
    rw [readSame agrees, ← reads]
    unfold readOperands
    simp only [fuses.operands, same]
  have compares : comparison g fused = comparison f first := by
    unfold comparison
    rw [width, fuses.intCond]
  have held : write first s.regs (BitVec.ofNat 64 (comparison f first a b).toNat) id =
      some (Ty.b1.canonical (BitVec.ofNat 64 (comparison f first a b).toNat)) := by
    simp [write, result, assign, compareResult fit fuses.compares]
  rw [runInsts, goes, runInsts]
  dsimp only
  rw [runInsts, branchSteps fuses.branches operands held, compareSteps fuses.both readsFused, compares]
  simp only [truthKept]
  refine .ofEdge p.kin fuses.targets after.toBeside (fun params => ?_) fun _ => ?_
  · have edge (k : Nat) : fused.argsOf k = last.argsOf k := by rw [Inst.argsOf, fuses.args, Inst.argsOf]
    rw [← edge]
    exact argsSame (fun v used => after.regs v (knows v used) (read v used)) _ params
  · exact after.mono (fun v held => by simpa [fuses.quiet] using held) fun _ stays => stays

theorem instsAlike {insts others : List Inst} (pruned : Pruned g gone insts others)
    (read : ∀ j ∈ others, ∀ id ∈ j.usedTemps, ¬ gone id) {known : Nat → Prop} {s t : State World}
    (poised : Poised o f known insts s.regs) (abreast : Abreast known (fun v => ¬ gone v) s t) :
    ExitsAlike (fun _ => Abreast (fun v => known v ∨ ∃ i ∈ insts, i.result = some v) fun v => ¬ gone v)
      (runInsts o f insts s) (runInsts o g others t) := by
  have ok := p.wellFormed
  induction pruned generalizing known s t with
  | nil => exact .ends abreast.toBeside
  | @keep i is js tail ih =>
    have reads := p.readsAlike poised abreast (read i List.mem_cons_self)
    have alike : Alike f g i i := .ofKin p.kin i
    rw [runInsts, runInsts]
    cases last : i.isTerminator with
    | false =>
      rcases plainStep (o := o) alike last abreast.toBeside reads with
        ⟨word, u, v, goes, goes', beside, left, right⟩ | ⟨ending, u, v, ends, ends', beside⟩
      · rw [goes, goes']
        refine (ih (fun j later => read j (List.mem_cons_of_mem _ later)) (poised.next ok goes)
          (written abreast beside left right)).map fun _ _ _ _ _ _ after => after.mono ?_ fun _ stays => stays
        exact fun w held => by simpa [or_assoc] using held
      · rw [ends, ends']
        exact .ends beside
    | true =>
      rcases lastStep (o := o) alike last abreast.toBeside reads with
        ⟨words, edge, -, -, takes, takes'⟩ | ⟨ending, u, v, ends, ends', beside⟩
      · rw [takes, takes']
        refine .ofEdge p.kin rfl abreast.toBeside (fun params => ?_) fun _ => abreast.mono ?_ fun _ stays => stays
        · exact argsSame (fun id used => abreast.regs id (poised.orderly.1 id used) (read i List.mem_cons_self id used))
            edge params
        · cases poised.ended [] i is rfl last
          have quiet := resultOfTerminator (ok.inst (poised.listed i List.mem_cons_self)).1.shape last
          exact fun w held => by simpa [quiet] using held
      · rw [ends, ends']
        exact .ends beside
  | @drop i is js isPure removed tail ih =>
    obtain ⟨u, goes, after⟩ := dropped poised abreast ok isPure removed
    rw [runInsts, goes]
    refine (ih read (poised.next ok goes) after).map fun _ _ _ _ _ _ after => after.mono ?_ fun _ stays => stays
    exact fun w held => by simpa [or_assoc] using held
  | fuse fuses removed => exact p.fusedAlike poised abreast fuses removed (read _ List.mem_cons_self)

def Enters (o : Surroundings World) (f : Func) (gone : Nat → Prop) (b : Nat) (s t : State World) : Prop :=
  Settled o f b s.regs ∧ Abreast (fun v => ¬ Missing f v (f.block b).label) (fun v => ¬ gone v) s t

theorem blockAlike {b : Nat} {args : List Word} {s t : State World} (enters : Enters o f gone b s t) :
    ExitsAlike (Enters o f gone) (runBlock o f b args s) (runBlock o g b args t) := by
  obtain ⟨settled, abreast⟩ := enters
  have ok := p.wellFormed
  obtain ⟨pruned, read⟩ := p.insts settled.inside
  unfold runBlock
  dsimp only
  rw [p.kin.params]
  split
  · rename_i enough
    have start : Abreast (KnownAt f (f.block b)) (fun v => ¬ gone v)
        { s with regs := bind (f.block b).params args s.regs }
        { t with regs := bind (f.block b).params args t.regs } :=
      ⟨⟨abreast.world, abreast.trace⟩, fun v known stays => bindSame enough fun other =>
        abreast.regs v (known.resolve_right other) stays⟩
    refine (p.instsAlike pruned read (settled.poised ok enough) start).map ?_
    intro c words u v jumps _ after
    have jumps : runBlock o f b args s = .jumps c words u := by
      unfold runBlock
      dsimp only
      rw [if_pos enough, jumps]
    exact ⟨settled.next ok jumps, after.mono (fun w known => settled.known ok jumps known) fun _ stays => stays⟩
  · exact .ends abreast.toBeside

theorem runs (o : Surroundings World) (args : List Word) (world : World) (n : Nat) :
    run o g args world n = run o f args world n :=
  runBlocksTogether (fun _ _ _ enters => enters.2.toBeside) (fun _ _ _ _ => p.blockAlike) n 0 args
    ⟨.start p.wellFormed _, ⟨rfl, rfl⟩, fun v known => absurd (Arrived.nothingKnown p.wellFormed v) known⟩

end Fused

end PrunedTo
end SsaCodegen
