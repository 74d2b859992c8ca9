import Mathlib.Data.List.Basic
import SsaCodegen.Proofs.Execution.Defined
import SsaCodegen.Proofs.Ir.Types
/-! Equations between values. A pure instruction computes its result from its operands alone,
and while the result is known none of the operands is written anew. So wherever a run arrives,
every known result of a pure instruction is what the instruction would compute there. -/
namespace SsaCodegen

theorem Flows.monoOn {f : Func} {lets pass : Block → Prop} {label : String}
    (flows : Flows f lets label) (le : ∀ b ∈ f.blocks, lets b → pass b) : Flows f pass label := by
  induction flows with
  | entry first => exact .entry first
  | edge inside before through target ih => exact .edge inside ih (le _ inside through) target

def OperandsKnown (f : Func) (known : Nat → Prop) : Prop :=
  ∀ i ∈ f.insts, ∀ v, i.result = some v → known v → ∀ w ∈ i.usedTemps, known w

def Orderly (f : Func) (known : Nat → Prop) : List Inst → Prop
  | [] => True
  | inst :: rest =>
    (∀ id ∈ inst.usedTemps, known id) ∧
    (∀ w, inst.result = some w → ¬ known w ∧
      ∀ i ∈ f.insts, ∀ v, i.result = some v → known v → w ∉ i.usedTemps) ∧
    Orderly f (fun v => known v ∨ inst.result = some v) rest

theorem Orderly.ofSplits {f : Func} {known : Nat → Prop} {insts : List Inst}
    (ok : ∀ before inst after, insts = before ++ inst :: after →
      (∀ id ∈ inst.usedTemps, known id ∨ ∃ j ∈ before, j.result = some id) ∧
      ∀ w, inst.result = some w → ¬ (known w ∨ ∃ j ∈ before, j.result = some w) ∧
        ∀ i ∈ f.insts, ∀ v, i.result = some v → (known v ∨ ∃ j ∈ before, j.result = some v) →
          w ∉ i.usedTemps) : Orderly f known insts := by
  induction insts generalizing known with
  | nil => trivial
  | cons inst rest ih =>
    have first := ok [] inst rest rfl
    simp only [List.not_mem_nil, false_and, exists_false, or_false] at first
    refine ⟨first.1, first.2, ih fun before i after same => ?_⟩
    have later := ok (inst :: before) i after (by rw [same]; rfl)
    simpa [or_assoc] using later

namespace WellFormed
variable {f : Func} (ok : WellFormed f)
include ok

theorem missingOwn {bb : Block} (inside : bb ∈ f.blocks) (reaches : Reaches f bb.label) {v : Nat}
    (own : v ∈ bb.definedIds) : Missing f v bb.label :=
  (FlowGraph.missingAtDefinition (fun _ other also => Func.oneHome ok.once other inside also own)
    reaches).elim id id

theorem readKnown {home : Block} (there : home ∈ f.blocks) (reaches : Reaches f home.label) {i : Inst}
    (placed : i ∈ home.insts) {w : Nat} (used : w ∈ i.usedTemps) :
    ¬ Missing f w home.label ∨ w ∈ home.definedIds := by
  obtain ⟨before, after, split⟩ := List.append_of_mem placed
  have available := ok.available home there reaches
  rw [split] at available
  rcases available.split used with (known | param) | ⟨j, early, result⟩
  · exact .inl known
  · exact .inr (Block.memDefinedIds.mpr (.inl param))
  · exact .inr (Block.memDefinedIds.mpr (.inr ⟨j, split ▸ List.mem_append_left _ early, result⟩))

theorem readsMissing {bb : Block} (inside : bb ∈ f.blocks) (reaches : Reaches f bb.label) {w v : Nat}
    (own : w ∈ bb.definedIds) {i : Inst} (listed : i ∈ f.insts) (result : i.result = some v)
    (used : w ∈ i.usedTemps) : Missing f v bb.label := by
  obtain ⟨home, there, placed⟩ := List.mem_flatMap.mp listed
  have defines : v ∈ home.definedIds := Block.memDefinedIds.mpr (.inr ⟨i, placed, result⟩)
  have only : ∀ b ∈ f.blocks, v ∈ b.definedIds → b = home := fun b other also =>
    Func.oneHome ok.once other there also defines
  -- the path that first arrives here comes without the result, or leads to its home around here
  have first : Flows f (fun b => True ∧ b ≠ bb) bb.label :=
    (FlowGraph.firstAtBlock bb reaches).elim id And.left
  rcases FlowGraph.firstAtDefinition only first with missing | ⟨arrives, -, apart⟩
  · exact missing.mono fun b both => both.2
  · have absent : Missing f w home.label := arrives.monoOn fun b other both also =>
      both.1.2 (Func.oneHome ok.once other inside also own)
    rcases ok.readKnown there arrives.reaches placed used with known | also
    · exact absurd absent known
    · exact absurd (Func.oneHome ok.once there inside also own) apart

theorem operandsKnown (label : String) : OperandsKnown f (fun v => ¬ Missing f v label) := by
  intro i listed v result known w used missing
  obtain ⟨home, there, placed⟩ := List.mem_flatMap.mp listed
  have defines : v ∈ home.definedIds := Block.memDefinedIds.mpr (.inr ⟨i, placed, result⟩)
  have only : ∀ b ∈ f.blocks, v ∈ b.definedIds → b = home := fun b other also =>
    Func.oneHome ok.once other there also defines
  rcases FlowGraph.firstAtDefinition only missing with around | ⟨arrives, absent⟩
  · exact known (around.mono fun b both => both.2)
  · rcases ok.readKnown there arrives.reaches placed used with held | own
    · exact held (arrives.mono fun b both => both.1)
    · exact absent own

theorem startKnown {bb : Block} (inside : bb ∈ f.blocks) : OperandsKnown f (KnownAt f bb) := by
  intro i listed v result known w used
  refine known.elim (fun held => .inl (ok.operandsKnown bb.label i listed v result held w used)) ?_
  exact fun param => absurd param (Func.resultNotParam ok.once listed result inside)

theorem orderly {bb : Block} (inside : bb ∈ f.blocks) (reaches : Reaches f bb.label) :
    Orderly f (KnownAt f bb) bb.insts := by
  refine .ofSplits fun before inst after split => ?_
  have available := ok.available bb inside reaches
  rw [split] at available
  refine ⟨fun id used => available.split used, fun w own => ?_⟩
  have here : inst ∈ bb.insts := split ▸ List.mem_append_right _ List.mem_cons_self
  have defined : w ∈ bb.definedIds := Block.memDefinedIds.mpr (.inr ⟨inst, here, own⟩)
  have fresh : ¬ KnownAt f bb w := fun known =>
    known.elim (fun held => held (ok.missingOwn inside reaches defined)) fun param =>
      Block.paramNotResult (Func.definedOnceIn ok.once inside) param here own
  have place : bb.insts[before.length]? = some inst := by simp [split]
  have notBefore (early : List Inst) (shorter : early <+: before) :
      ¬ ∃ j ∈ early, j.result = some w := by
    rintro ⟨j, listed, result⟩
    obtain ⟨n, located⟩ := List.getElem?_of_mem (shorter.subset listed)
    have below := (List.getElem?_eq_some_iff.mp located).1
    have same := Block.resultIndex (Func.definedOnceIn ok.once inside)
      (by rw [split, List.getElem?_append_left below, located]) place result own
    omega
  refine ⟨fun known => known.elim fresh (notBefore before (List.prefix_refl _)), ?_⟩
  intro i listed v result known used
  rcases known with (held | param) | ⟨j, early, same⟩
  · exact held (ok.readsMissing inside reaches defined listed result used)
  · exact Func.resultNotParam ok.once listed result inside param
  · cases Func.oneDefinition ok.once listed (Func.memInsts inside
      (split ▸ List.mem_append_left _ early)) result same
    obtain ⟨first, rest, parts⟩ := List.append_of_mem early
    have available := ok.available bb inside reaches
    rw [split, parts, List.append_assoc, List.cons_append] at available
    exact (available.split used).elim fresh (notBefore first (parts ▸ List.prefix_append ..))

end WellFormed

namespace Semantics
variable {World : Type} {o : Surroundings World} {f g : Func}

theorem pureComputes (o : Surroundings World) {inst : Inst} (fit : FitInst f inst)
    (pure : inst.op.isPure = true) {words : List Word} (enough : words.length = inst.operands.length) :
    ∃ word, compute o f inst words = some word := by
  obtain ⟨⟨low, high⟩, -, -⟩ := Structure.shapeIff.mp fit.shape
  unfold compute
  cases op : inst.op <;> rw [op] at low high pure <;> try exact absurd pure (by decide)
  case fadd | fsub | fmul | fdiv | fcmp | fcvtFromSint | fcvtToSint => exact ⟨_, rfl⟩
  all_goals
    simp only [Opcode.info, Opcode.unary, Opcode.binary] at low high
    replace high := high.resolve_left (by decide)
    rw [← enough] at low high
  case funcAddr =>
    cases List.eq_nil_of_length_eq_zero (Nat.le_zero.mp high)
    exact ⟨_, rfl⟩
  case iconst | bconst | fconst | copy | ireduce | sextend | uextend =>
    obtain ⟨a, rfl⟩ := List.length_eq_one_iff.mp (Nat.le_antisymm high low)
    exact ⟨_, rfl⟩
  case select =>
    obtain ⟨c, a, b, rfl⟩ := List.length_eq_three.mp (Nat.le_antisymm high low)
    exact ⟨_, rfl⟩
  all_goals
    obtain ⟨a, b, rfl⟩ := List.length_eq_two.mp (Nat.le_antisymm high low)
    exact ⟨_, rfl⟩

theorem pureActs (o : Surroundings World) (f : Func) {inst : Inst} (pure : inst.op.isPure = true)
    {words : List Word} {world : World} :
    affect o f inst words world = .ends [] .stuck := by
  unfold affect
  cases op : inst.op <;> rw [op] at pure <;> first | rfl | exact absurd pure (by decide)

theorem purePlain {inst : Inst} (pure : inst.op.isPure = true) : inst.isTerminator = false :=
  plainOfPure pure

theorem pureSteps {inst : Inst} (pure : inst.op.isPure = true) {s u : State World}
    (next : step o f inst s = .next u) : ∃ words word, readOperands f inst s.regs = some words ∧
      compute o f inst words = some word ∧ u = { s with regs := write inst s.regs word } := by
  cases reads : readOperands f inst s.regs with
  | none => simp [step, reads] at next
  | some words =>
    cases computes : compute o f inst words with
    | none => simp [step, reads, purePlain pure, act, computes, pureActs o f pure] at next
    | some word =>
      rw [stepComputes reads (purePlain pure) computes] at next
      exact ⟨words, word, rfl, computes, (Step.next.inj next).symm⟩

theorem mapMSame {α β γ : Type} {as : List α} {bs : List β} {p : α → Option γ} {q : β → Option γ}
    (length : bs.length = as.length) (same : ∀ (k : Nat) a b, as[k]? = some a → bs[k]? = some b → q b = p a) :
    bs.mapM q = as.mapM p := by
  induction as generalizing bs with
  | nil =>
    cases List.eq_nil_of_length_eq_zero length
    rfl
  | cons a as ih =>
    cases bs with
    | nil => cases length
    | cons b bs =>
      rw [List.mapM_cons, List.mapM_cons, same 0 a b rfl rfl,
        ih (Nat.succ.inj length) fun k a b left right => same (k + 1) a b left right]

theorem mapMIff {α β : Type} {as : List α} {bs : List β} {p : α → Option β} : as.mapM p = some bs ↔
    bs.length = as.length ∧ ∀ (k : Nat) a, as[k]? = some a → p a = bs[k]? := by
  induction as generalizing bs with
  | nil => simp [eq_comm]
  | cons a as ih =>
    cases bs with
    | nil => simp [List.mapM_cons, Option.bind_eq_some_iff]
    | cons b bs =>
      have cons : (a :: as).mapM p = some (b :: bs) ↔ p a = some b ∧ as.mapM p = some bs := by
        simp [List.mapM_cons, Option.bind_eq_some_iff]
      rw [cons, ih, List.length_cons, List.length_cons, Nat.succ_inj]
      constructor
      · rintro ⟨first, length, rest⟩
        refine ⟨length, fun k x located => ?_⟩
        cases k with
        | zero => cases located; exact first
        | succ k => exact rest k x located
      · rintro ⟨length, all⟩
        exact ⟨all 0 a rfl, length, fun k x located => all (k + 1) x located⟩

theorem mapMSome {α β : Type} {as : List α} {p : α → Option β} (each : ∀ a ∈ as, ∃ b, p a = some b) :
    ∃ bs, as.mapM p = some bs ∧ bs.length = as.length := by
  induction as with
  | nil => exact ⟨[], rfl, rfl⟩
  | cons a as ih =>
    obtain ⟨b, first⟩ := each a List.mem_cons_self
    obtain ⟨bs, rest, length⟩ := ih fun a later => each a (List.mem_cons_of_mem _ later)
    exact ⟨b :: bs, by rw [List.mapM_cons, first, rest]; rfl, congrArg Nat.succ length⟩

theorem readsAll {inst : Inst} {regs : Registers} (defined : ∀ id ∈ inst.usedTemps, IsDefined regs id) :
    ∃ words, readOperands f inst regs = some words ∧ words.length = inst.operands.length := by
  have each : ∀ a ∈ inst.operands.zipIdx, ∃ word, readAs regs (operandTy f inst a.2) a.1 = some word := by
    rintro ⟨v, k⟩ listed
    have inside : v ∈ inst.operands := (List.mem_zipIdx' listed).2 ▸ List.getElem_mem _
    cases v with
    | temp id => exact Option.isSome_iff_exists.mp (defined id (Inst.operandUsed inside))
    | _ => exact ⟨_, rfl⟩
  obtain ⟨words, reads, length⟩ := mapMSome each
  exact ⟨words, reads, length.trans List.length_zipIdx⟩

theorem pureGoes (o : Surroundings World) {inst : Inst} (fit : FitInst f inst)
    (pure : inst.op.isPure = true) {s : State World} (defined : ∀ id ∈ inst.usedTemps, IsDefined s.regs id) :
    ∃ words word, readOperands f inst s.regs = some words ∧ compute o f inst words = some word ∧
      step o f inst s = .next { s with regs := write inst s.regs word } := by
  obtain ⟨words, reads, length⟩ := readsAll (f := f) defined
  obtain ⟨word, computes⟩ := pureComputes o fit pure length
  exact ⟨words, word, reads, computes, stepComputes reads (purePlain pure) computes⟩

theorem readSame {inst : Inst} {regs other : Registers}
    (same : ∀ id ∈ inst.usedTemps, other id = regs id) :
    readOperands f inst other = readOperands f inst regs := by
  unfold readOperands
  refine mapMSame rfl fun k a b left right => ?_
  cases left.symm.trans right
  obtain ⟨v, n⟩ := a
  have listed : v ∈ inst.operands := (List.mem_zipIdx' (List.mem_of_getElem? left)).2 ▸ List.getElem_mem _
  cases v with
  | temp id => exact same id (Inst.operandUsed listed)
  | _ => rfl

theorem argsSame {inst : Inst} {regs other : Registers}
    (same : ∀ id ∈ inst.usedTemps, other id = regs id) (edge : Nat) (params : List Param) :
    readArgs params (inst.argsOf edge) other = readArgs params (inst.argsOf edge) regs := by
  unfold readArgs
  refine mapMSame rfl fun k a b left right => ?_
  cases left.symm.trans right
  obtain ⟨v, p⟩ := a
  have inside : v ∈ inst.argsOf edge := (List.of_mem_zip (List.mem_of_getElem? left)).1
  rw [Inst.argsOf, List.getD_eq_getElem?_getD] at inside
  cases located : inst.targetArgs[edge]? with
  | none => simp [located] at inside
  | some args =>
    rw [located] at inside
    cases v with
    | temp id => exact same id (Inst.argUsed (List.mem_of_getElem? located) inside)
    | _ => rfl

def Equation (o : Surroundings World) (f : Func) (inst : Inst) (v : Nat) (regs : Registers) : Prop :=
  ∃ words word, readOperands f inst regs = some words ∧ compute o f inst words = some word ∧
    regs v = some (inst.ty.canonical word)

theorem Equation.keep {inst : Inst} {v : Nat} {regs other : Registers} (holds : Equation o f inst v regs)
    (own : other v = regs v) (same : ∀ id ∈ inst.usedTemps, other id = regs id) :
    Equation o f inst v other := by
  obtain ⟨words, word, reads, computes, held⟩ := holds
  exact ⟨words, word, (readSame same).trans reads, computes, own.trans held⟩

def Solved (o : Surroundings World) (f : Func) (known : Nat → Prop) (regs : Registers) : Prop :=
  ∀ i ∈ f.insts, i.op.isPure = true → ∀ v, i.result = some v → known v → Equation o f i v regs

theorem Solved.mono {known fewer : Nat → Prop} {regs : Registers} (solved : Solved o f known regs)
    (le : ∀ v, fewer v → known v) : Solved o f fewer regs :=
  fun i listed pure v result held => solved i listed pure v result (le v held)

section Runs
variable (ok : WellFormed f)
include ok

theorem solvedStart {bb : Block} (inside : bb ∈ f.blocks) (reaches : Reaches f bb.label)
    {regs : Registers} (solved : Solved o f (fun v => ¬ Missing f v bb.label) regs) (words : List Word) :
    Solved o f (KnownAt f bb) (bind bb.params words regs) := by
  intro i listed pure v result known
  have noParam := Func.resultNotParam ok.once listed result inside
  have held := known.resolve_right noParam
  refine (solved i listed pure v result held).keep (bindOther noParam) fun id used => ?_
  refine bindOther fun param => held ?_
  exact ok.readsMissing inside reaches (Block.memDefinedIds.mpr (.inl param)) listed result used

theorem solvedStep {known : Nat → Prop} {inst : Inst} {rest : List Inst} {s u : State World}
    (inside : inst ∈ f.insts) (orderly : Orderly f known (inst :: rest)) (solved : Solved o f known s.regs)
    (next : step o f inst s = .next u) :
    Solved o f (fun v => known v ∨ inst.result = some v) u.regs := by
  obtain ⟨reads, fresh, -⟩ := orderly
  obtain ⟨word, regs⟩ := stepNext next
  intro i listed pure v result held
  by_cases own : inst.result = some v
  · cases Func.oneDefinition ok.once listed inside result own
    obtain ⟨words, word, operands, computes, rfl⟩ := pureSteps pure next
    refine ⟨words, word, (readSame fun id used => writeOther fun also => ?_).trans operands, computes, ?_⟩
    · exact (fresh id also).1 (reads id used)
    · simp [write, own, assign]
  · have old := held.resolve_right own
    rw [regs]
    refine (solved i listed pure v result old).keep (writeOther own) fun id used => writeOther fun also => ?_
    exact (fresh id also).2 i listed v result old used

omit ok in
theorem solvedEdge {bb : Block} (inside : bb ∈ f.blocks) {label : String} (target : label ∈ bb.targets)
    {regs : Registers}
    (solved : Solved o f (fun v => KnownAt f bb v ∨ ∃ i ∈ bb.insts, i.result = some v) regs) :
    Solved o f (fun v => ¬ Missing f v label) regs := by
  refine solved.mono fun v known => ?_
  rcases knownAlong inside target known with before | here
  · exact .inl (.inl before)
  · exact (Block.memDefinedIds.mp here).imp_left .inr

structure Poised (o : Surroundings World) (f : Func) (known : Nat → Prop) (insts : List Inst)
    (regs : Registers) : Prop where
  listed : ∀ i ∈ insts, i ∈ f.insts
  ended : ∀ before i after, insts = before ++ i :: after → i.isTerminator = true → after = []
  operands : OperandsKnown f known
  orderly : Orderly f known insts
  defined : ∀ v, known v → IsDefined regs v
  solved : Solved o f known regs

theorem Poised.next {known : Nat → Prop} {i : Inst} {rest : List Inst} {s u : State World}
    (poised : Poised o f known (i :: rest) s.regs) (goes : step o f i s = .next u) :
    Poised o f (fun v => known v ∨ i.result = some v) rest u.regs where
  listed j later := poised.listed j (List.mem_cons_of_mem _ later)
  ended before j after split := poised.ended (i :: before) j after (by rw [split]; rfl)
  operands j listed v result held w used := by
    rcases held with before | own
    · exact .inl (poised.operands j listed v result before w used)
    · cases Func.oneDefinition ok.once listed (poised.listed i List.mem_cons_self) result own
      exact .inl (poised.orderly.1 w used)
  orderly := poised.orderly.2.2
  defined v held := (stepDefines goes).mpr (held.imp_left (poised.defined v))
  solved := solvedStep ok (poised.listed i List.mem_cons_self) poised.orderly poised.solved goes

theorem Poised.jumps {known : Nat → Prop} {insts : List Inst} {s u : State World} {t : Nat}
    {args : List Word} (poised : Poised o f known insts s.regs)
    (jumps : runInsts o f insts s = .jumps t args u) :
    Solved o f (fun v => known v ∨ ∃ i ∈ insts, i.result = some v) u.regs := by
  induction insts generalizing known s with
  | nil => cases jumps
  | cons i rest ih =>
    have listed := poised.listed i List.mem_cons_self
    unfold runInsts at jumps
    split at jumps
    · rename_i middle goes
      refine (ih (poised.next ok goes) jumps).mono fun v held => ?_
      simpa [or_assoc] using held
    · rename_i exit exits
      subst jumps
      obtain ⟨ends, rfl, -⟩ := stepJumps exits
      cases poised.ended [] i rest rfl ends
      obtain ⟨bb, there, placed⟩ := List.mem_flatMap.mp listed
      have quiet := resultOfTerminator (ok.sound bb there i placed).shape ends
      exact poised.solved.mono fun v held => by simpa [quiet] using held

omit ok in
structure Settled (o : Surroundings World) (f : Func) (b : Nat) (regs : Registers) : Prop
    extends Arrived f b regs where
  solved : Solved o f (fun v => ¬ Missing f v (f.block b).label) regs

namespace Settled

theorem start (regs : Registers) : Settled o f 0 regs where
  toArrived := .start ok regs
  solved _ _ _ v _ known := absurd (Arrived.nothingKnown ok v) known

variable {b : Nat} {regs : Registers}

theorem poised (settled : Settled o f b regs) {words : List Word}
    (enough : words.length = (f.block b).params.length) :
    Poised o f (KnownAt f (f.block b)) (f.block b).insts (bind (f.block b).params words regs) :=
  have inside := List.mem_of_getElem? settled.inside
  { listed := fun _ => Func.memInsts inside
    ended := fun _ _ _ split ends => terminatorLast (ok.ended _ inside) split ends
    operands := ok.startKnown inside
    orderly := ok.orderly inside settled.reached
    defined := fun _ known => bindDefined enough (known.symm.imp_right (settled.defined _))
    solved := solvedStart ok inside settled.reached settled.solved words }

theorem next {s u : State World} {t : Nat} {words args : List Word} (settled : Settled o f b s.regs)
    (jumps : runBlock o f b words s = .jumps t args u) : Settled o f t u.regs where
  toArrived := settled.toArrived.next ok jumps
  solved := by
    have target := settled.toArrived.exits ok jumps
    unfold runBlock at jumps
    dsimp only at jumps
    split at jumps
    · rename_i enough
      exact solvedEdge (List.mem_of_getElem? settled.inside) target
        ((settled.poised ok enough).jumps ok jumps)
    · cases jumps

theorem known {s u : State World} {t : Nat} {words args : List Word} (settled : Settled o f b s.regs)
    (jumps : runBlock o f b words s = .jumps t args u) {v : Nat}
    (known : ¬ Missing f v (f.block t).label) :
    KnownAt f (f.block b) v ∨ ∃ i ∈ (f.block b).insts, i.result = some v := by
  rcases knownAlong (List.mem_of_getElem? settled.inside) (settled.exits ok jumps) known with before | here
  · exact .inl (.inl before)
  · exact (Block.memDefinedIds.mp here).imp_left .inr

end Settled
end Runs
end Semantics
end SsaCodegen
