import SsaCodegen.Proofs.Ir.Substitute
import SsaCodegen.Proofs.Opt.FoldedSteps
/-! Constant folding keeps runs. Recorded constants hold wherever they are defined, since each
value has one definition, and what is read is defined. So a folded function goes from state to
state as the original does. -/
namespace SsaCodegen
open Semantics Structure
open ConstantFold (Known fold? foldInsts foldBlocks foldBinary exponent?)

def ConstantOf (g : Func) (id : Nat) (word : Word) : Prop :=
  ∃ inst ∈ g.insts, inst.result = some id ∧ (inst.op = .iconst ∨ inst.op = .bconst) ∧
    ∃ v rest, inst.operands = v :: rest ∧ v.intPayload = word

def Records (g : Func) (known : Known) : Prop :=
  ∀ id word, known.getD id none = some word → ConstantOf g id word

def Constant (g : Func) (regs : Registers) : Prop :=
  ∀ id constant word, ConstantOf g id constant → regs id = some word → word = constant

theorem recordsNext {g : Func} {known : Known} (records : Records g known) {inst : Inst}
    (inside : inst ∈ g.insts) : Records g (known.record inst) := by
  have added {id : Nat} {v : Value} {rest : List Value} (result : inst.result = some id)
      (op : inst.op = .iconst ∨ inst.op = .bconst) (operands : inst.operands = v :: rest) :
      Records g (known.set id (some v.intPayload)) := by
    intro other word found
    rw [List.getD_eq_getElem?_getD, List.getElem?_set] at found
    split at found
    · rename_i same
      subst same
      split at found
      · exact ⟨inst, inside, result, op, v, rest, operands, Option.some.inj found⟩
      · cases found
    · exact records other word (by rwa [List.getD_eq_getElem?_getD])
  unfold Known.record
  split
  · rename_i op result operands
    exact added result (.inl op) operands
  · rename_i op result operands
    exact added result (.inr op) operands
  · exact records

theorem recordsNone (g : Func) (n : Nat) : Records g (List.replicate n none) := by
  intro id word found
  rw [List.getD_eq_getElem?_getD, List.getElem?_replicate] at found
  split at found <;> cases found

theorem literalHeld {g : Func} {inst : Inst} (fit : FitInst g inst) (extended : inst.Extended g)
    (op : inst.op = .iconst ∨ inst.op = .bconst) {v : Value} {rest : List Value}
    (operands : inst.operands = v :: rest) : rest = [] ∧
      inst.ty.canonical v.intPayload = v.intPayload ∧
      ∀ regs, readAs regs (operandTy g inst 0) v = some v.intPayload := by
  obtain ⟨w, alone, -⟩ := constantOperand fit (by rcases op with op | op <;> rw [op] <;> rfl)
  cases operands.symm.trans alone
  have literal := extended.1 (v, 0) (by rw [alone]; exact List.mem_cons_self)
  have types := fit.types
  rcases op with op | op
  · simp only [typeMessages, op, alone, firstOperand, List.append_eq_nil_iff, complainUnlessIff] at types
    cases v with
    | int word =>
      have read : operandTy g inst 0 = inst.ty := by simp only [operandTy, op]
      have held : inst.ty.canonical word = word := by
        rw [read] at literal
        cases ty : inst.ty with
        | i32 => exact literal ty
        | b1 => simp [ty, Ty.isInt, Ty.isRef] at types
        | _ => rfl
      refine ⟨rfl, held, fun regs => ?_⟩
      rw [read, readAs, held]
      rfl
    | _ => simp [isIntConst] at types
  · simp only [typeMessages, op, alone, firstOperand, List.append_eq_nil_iff, complainUnlessIff,
      beq_iff_eq] at types
    cases v with
    | bool flag =>
      refine ⟨rfl, ?_, fun regs => rfl⟩
      rw [types.2]
      cases flag <;> rfl
    | _ => simp [isBoolConst] at types

section Single
variable {g : Func} (ok : WellFormed g)
include ok

theorem bindConstant {bb : Block} (home : bb ∈ g.blocks) {words : List Word} {regs : Registers}
    (constant : Constant g regs) : Constant g (bind bb.params words regs) := by
  intro id value word defines holds
  have ⟨inst, inside, result, _⟩ := defines
  rw [bindOther (Func.resultNotParam ok.once inside result home)] at holds
  exact constant _ value word defines holds

variable (extended : SignExtended g)
include extended

theorem constantGiven {World : Type} (o : Surroundings World) {id : Nat} {word : Word}
    (constant : ConstantOf g id word) : (g.valueType id).canonical word = word ∧
      ∃ inst ∈ g.insts, inst.result = some id ∧
        ∀ s, step o g inst s = .next { s with regs := assign s.regs id word } := by
  obtain ⟨inst, inside, result, op, v, rest, operands, rfl⟩ := constant
  obtain ⟨bb, home, listed⟩ := List.mem_flatMap.mp inside
  have sound := ok.sound bb home inst listed
  obtain ⟨rfl, held, reads⟩ := literalHeld sound.toFitInst (extended inst inside) op operands
  have ty : g.valueType id = inst.ty := by
    rw [Func.valueType, List.getD_eq_getElem?_getD,
      (ok.declared bb home).results inst listed id result]
    rfl
  refine ⟨by rw [ty, held], inst, inside, result, fun s => ?_⟩
  have plain : inst.isTerminator = false := by
    rw [Inst.isTerminator]
    rcases op with op | op <;> rw [op] <;> rfl
  have operand : readOperands g inst s.regs = some [v.intPayload] := by
    rw [readOperands, operands]
    simp [reads]
  have computes : compute o g inst [v.intPayload] = some v.intPayload := by
    unfold compute
    rcases op with op | op <;> rw [op]
  rw [stepComputes operand plain computes, write, result]
  simp only [held]

theorem stepConstant {World : Type} {o : Surroundings World} {inst : Inst} {s u : State World}
    (inside : inst ∈ g.insts) (constant : Constant g s.regs) (next : step o g inst s = .next u) :
    Constant g u.regs := by
  intro id value word defines holds
  obtain ⟨-, definition, there, result, gives⟩ := constantGiven ok extended o defines
  -- only its one definition writes the value, and that writes the constant
  by_cases own : inst.result = some id
  · cases Func.oneDefinition ok.once inside there own result
    cases next.symm.trans (gives s)
    dsimp only [assign] at holds
    rw [if_pos rfl] at holds
    exact (Option.some.inj holds).symm
  · obtain ⟨given, regs⟩ := stepNext next
    refine constant id value word defines ?_
    rwa [regs, writeOther own] at holds

end Single

section Blocks
variable {f g : Func}

theorem foldInstsRecord {known : Known} {insts : List Inst} (records : Records g known)
    (inside : ∀ j ∈ (foldInsts f known insts).1, j ∈ g.insts) :
    Records g (foldInsts f known insts).2 := by
  induction insts generalizing known with
  | nil => exact records
  | cons i rest ih =>
    refine ih (recordsNext records (inside _ List.mem_cons_self)) fun j later => ?_
    exact inside j (List.mem_cons_of_mem _ later)

theorem foldBlocksRecord {known : Known} {blocks : List Block} (records : Records g known)
    (inside : ∀ bb ∈ foldBlocks f known blocks, ∀ j ∈ bb.insts, j ∈ g.insts) (n : Nat) (b : Block)
    (there : (foldBlocks f known blocks)[n]? = some b) : ∃ (a : Block) (known : Known),
      blocks[n]? = some a ∧ Records g known ∧ b = { a with insts := (foldInsts f known a.insts).1 } := by
  induction blocks generalizing known n with
  | nil => cases there
  | cons bb rest ih =>
    cases n with
    | zero => exact ⟨bb, known, rfl, records, (Option.some.inj there).symm⟩
    | succ n =>
      refine ih (foldInstsRecord records (inside _ List.mem_cons_self)) (fun b later => ?_) n there
      exact inside b (List.mem_cons_of_mem _ later)

variable {World : Type} (o : Surroundings World) (kin : Kin f g) (okF : WellFormed f)
  (okG : WellFormed g) (extendedF : SignExtended f) (extendedG : SignExtended g)
include kin okF okG extendedF extendedG

theorem instsAlike {insts : List Inst} {known : Known} {among : Nat → Prop} {s : State World}
    (was : ∀ i ∈ insts, i ∈ f.insts) (now : ∀ j ∈ (foldInsts f known insts).1, j ∈ g.insts)
    (records : Records g known) (available : Available among insts)
    (defined : ∀ v, among v → IsDefined s.regs v) (constant : Constant g s.regs) :
    runInsts o g (foldInsts f known insts).1 s = runInsts o f insts s ∧
      ∀ t args u, runInsts o f insts s = .jumps t args u → Constant g u.regs := by
  -- both runs go through what remains of the block, with the constants recorded so far
  induction insts generalizing known among s with
  | nil => exact ⟨rfl, fun t args u jumps => nomatch jumps⟩
  | cons i rest ih =>
    have made : (foldInsts f known (i :: rest)).1 = (fold? f known i).getD i ::
        (foldInsts f (known.record ((fold? f known i).getD i)) rest).1 := rfl
    rw [made] at now ⊢
    generalize folds : (fold? f known i).getD i = j at now ⊢
    have there := now j List.mem_cons_self
    have told : Told f known s.regs i := by
      refine ⟨fun id used => defined id (available.1 id used), fun id used word recorded => ?_⟩
      have known := records id word recorded
      obtain ⟨given, holds⟩ := Option.isSome_iff_exists.mp (defined id (available.1 id used))
      rw [holds, constant id word given known holds, ← kin.valueType]
      exact ⟨rfl, (constantGiven okG extendedG o known).1⟩
    have sound : SoundInst f i := by
      obtain ⟨bb, home, listed⟩ := List.mem_flatMap.mp (was i List.mem_cons_self)
      exact okF.sound bb home i listed
    have same : step o g j s = step o f i s := by
      rw [kin.step, ← folds]
      exact foldSteps o told (extendedF i (was i List.mem_cons_self)) sound.toFitInst
    rw [runInsts, runInsts, same]
    cases steps : step o f i s with
    | next u =>
      refine ih (fun i later => was i (List.mem_cons_of_mem _ later))
        (fun j later => now j (List.mem_cons_of_mem _ later)) (recordsNext records there) available.2 ?_
        (stepConstant okG extendedG there constant (same.trans steps))
      exact fun v known => (stepDefines steps).mpr (known.imp_left (defined v))
    | exits exit =>
      refine ⟨rfl, fun t args u jumps => ?_⟩
      dsimp only at jumps
      rw [jumps] at steps
      obtain ⟨-, rfl, -⟩ := stepJumps steps
      exact constant

end Blocks

open ConstantFold in
theorem foldedBlocks (f : Func) (n : Nat) (b : Block) (there : (foldConstants f).1.blocks[n]? = some b) :
    ∃ (a : Block) (known : Known), f.blocks[n]? = some a ∧ Records (foldConstants f).1 known ∧
      b = { a with insts := (foldInsts f known a.insts).1 } := by
  have blocks : (foldConstants f).1.blocks =
      foldBlocks f (List.replicate f.numValues none) f.blocks := by
    unfold foldConstants
    dsimp only
    split <;> rfl
  rw [blocks] at there
  refine foldBlocksRecord (recordsNone _ _) (fun bb home j listed => ?_) n b there
  exact Func.memInsts (blocks ▸ home) listed

theorem foldedFrom {f : Func} {j : Inst} (inside : j ∈ (foldConstants f).1.insts) :
    ∃ i known, i ∈ f.insts ∧ j = (fold? f known i).getD i := by
  obtain ⟨b, home, listed⟩ := List.mem_flatMap.mp inside
  obtain ⟨n, there⟩ := List.getElem?_of_mem home
  obtain ⟨a, known, was, -, rfl⟩ := foldedBlocks f n b there
  obtain ⟨k, located⟩ := List.getElem?_of_mem listed
  obtain ⟨i, known, old, made⟩ := ConstantFold.foldInstsAt.2 k j located
  exact ⟨i, known, Func.memInsts (List.mem_of_getElem? was) (List.mem_of_getElem? old), made⟩

theorem foldedRewrites (f : Func) : Rewrites f (foldConstants f).1 := by
  obtain ⟨known, blocks, types, signature⟩ := ConstantFold.folded f
  refine ⟨signature, types ▸ List.prefix_refl _, List.ext_getElem? fun n => ?_⟩
  rw [List.getElem?_map, List.getElem?_map, blocks]
  cases there : (foldBlocks f known f.blocks)[n]? with
  | none =>
    rw [List.getElem?_eq_none_iff, ConstantFold.foldBlocksAt.1] at there
    rw [List.getElem?_eq_none there]
  | some b =>
    obtain ⟨a, known, was, rfl⟩ := ConstantFold.foldBlocksAt.2 n b there
    rw [was]
    rfl

theorem foldedKin (f : Func) : Kin f (foldConstants f).1 := by
  obtain ⟨-, -, types, -⟩ := ConstantFold.folded f
  exact .ofRewrites (foldedRewrites f) types

theorem foldedExtended {f : Func} (clean : Clean f) (extended : SignExtended f) :
    SignExtended (foldConstants f).1 := by
  intro j inside
  obtain ⟨i, known, old, rfl⟩ := foldedFrom inside
  obtain ⟨a, home, listed⟩ := List.mem_flatMap.mp old
  have made : ((fold? f known i).getD i).Extended f :=
    foldExtended (extended i old) (clean.wellFormed.sound a home i listed)
  refine ⟨fun e operand => (foldedKin f).operandTy ▸ made.1 e operand, fun e edge bb inside named => ?_⟩
  obtain ⟨c, there, pair⟩ := (foldedRewrites f).pairOf inside
  obtain ⟨label, params⟩ := (foldedRewrites f).sameHead pair
  rw [params]
  exact made.2 e edge c there (label ▸ named)

theorem foldedBlockRuns {World : Type} (o : Surroundings World) {f : Func} (clean : Clean f)
    (extended : SignExtended f) {b : Nat} (words : List Word) {s : State World}
    (arrived : Arrived f b s.regs) (constant : Constant (foldConstants f).1 s.regs) :
    runBlock o (foldConstants f).1 b words s = runBlock o f b words s ∧
      ∀ t args u, runBlock o f b words s = .jumps t args u → Constant (foldConstants f).1 u.regs := by
  have kin := foldedKin f
  have okG := (foldConstantsClean clean).wellFormed
  have extendedG := foldedExtended clean extended
  have heads := (foldedRewrites f).headAt b
  rw [arrived.inside] at heads
  obtain ⟨bb, there, -⟩ := Option.map_eq_some_iff.mp heads
  obtain ⟨a, known, was, records, made⟩ := foldedBlocks f b bb there
  cases Option.some.inj (arrived.inside.symm.trans was)
  have home := List.mem_of_getElem? there
  have block : (foldConstants f).1.block b = bb := Func.blockAt there
  have params : bb.params = (f.block b).params := by rw [made]
  have insts : bb.insts = (foldInsts f known (f.block b).insts).1 := by rw [made]
  unfold runBlock
  dsimp only
  rw [block, params, insts]
  split
  · rename_i enough
    refine instsAlike o kin clean.wellFormed okG extended extendedG
      (fun i listed => Func.memInsts (List.mem_of_getElem? arrived.inside) listed)
      (fun j listed => Func.memInsts home (insts ▸ listed)) records
      (arrived.available clean.wellFormed) (fun v known => arrived.known enough known) ?_
    exact params ▸ bindConstant okG home constant
  · exact ⟨rfl, fun t args u jumps => nomatch jumps⟩

theorem foldedTraps {f : Func} {inst : Inst} (inside : inst ∈ (foldConstants f).1.insts)
    (traps : inst.op.info.mayTrap = true) : inst ∈ f.insts := by
  obtain ⟨i, known, old, made⟩ := foldedFrom inside
  cases folds : fold? f known i with
  | none =>
    rw [folds] at made
    exact made ▸ old
  | some j =>
    rw [folds] at made
    rw [made, Option.getD_some, foldTotal folds] at traps
    cases traps

theorem foldedRuns {World : Type} (o : Surroundings World) {f : Func} (clean : Clean f)
    (extended : SignExtended f) (args : List Word) (world : World) (n : Nat) :
    run o (foldConstants f).1 args world n = run o f args world n := by
  refine runBlocksAlike (fun b s => Arrived f b s.regs ∧ Constant (foldConstants f).1 s.regs)
    ?_ n 0 args ⟨.start clean.wellFormed _, fun id constant word defines absent => nomatch absent⟩
  intro b words s ⟨arrived, constant⟩
  obtain ⟨same, keeps⟩ := foldedBlockRuns o clean extended words arrived constant
  exact ⟨same, fun t args u jumps => ⟨arrived.next clean.wellFormed jumps, keeps t args u jumps⟩⟩

open Arithmetic in
/-- Folding keeps a function well-formed and its runs the same, whatever surrounds them. The
arithmetic that it does is that of the runs, and it makes nothing that could trap. -/
theorem foldingKeepsRuns (f : Func) (verified : verifyFunction f = []) (tidy : Tidy f)
    (extended : SignExtended f) :
    verifyFunction (foldConstants f).1 = [] ∧ SignExtended (foldConstants f).1 ∧
    (∀ (World : Type) (o : Surroundings World) (args : List Word) (world : World) (n : Nat),
      run o (foldConstants f).1 args world n = run o f args world n) ∧
    (∀ (ty : Ty) (op : Opcode) (a b : Word), ty.isInt = true →
      foldBinary op a b ty = operate op ty a b) ∧
    (∀ (ty : Ty) (a b : Word) (k : Nat), ty.isInt = true → k < ty.bits →
      b.setWidth ty.bits = BitVec.twoPow ty.bits k → exponent? b ty = some k ∧
        operate .imul ty a b = operate .ishl ty a (BitVec.ofNat 64 k) ∧
        operate .udiv ty a b = operate .ushr ty a (BitVec.ofNat 64 k) ∧
        operate .urem ty a b = operate .band ty a (BitVec.ofNat 64 ((1 <<< k) - 1))) ∧
    ∀ inst ∈ (foldConstants f).1.insts, inst.op.info.mayTrap = true → inst ∈ f.insts := by
  have clean : Clean f := ⟨verifiedIff.mp verified, tidy⟩
  refine ⟨verifiedIff.mpr (foldConstantsClean clean).wellFormed, foldedExtended clean extended,
    fun World o args world n => foldedRuns o clean extended args world n,
    fun ty op a b int => foldsToResult int op a b, fun ty a b k int below same => ?_,
    fun inst inside traps => foldedTraps inside traps⟩
  have power := (exponentIff int).mpr ⟨below, same⟩
  exact ⟨power, timesPower int power a, overPower int power a, modPower int power a⟩

def eighthOrTrap : Func :=
  { signature := { params := [.i32], returns := [.i32] }
    blocks := [
      { label := "entry", params := [⟨0, .i32⟩]
        insts := [
          { result := some 1, op := .iconst, ty := .i32, operands := [.int (-8)] },
          { result := some 2, op := .iadd, ty := .i32, operands := [.temp 1, .int 4] },
          { result := some 3, op := .icmp, ty := .b1, operands := [.int (-5), .temp 2], intCond := .ult },
          { result := some 4, op := .udiv, ty := .i32, operands := [.temp 0, .int 8] },
          { op := .brif, operands := [.temp 3], targets := ["small", "other"],
            targetArgs := [[.temp 4], []] }] },
      { label := "small", params := [⟨5, .i32⟩]
        insts := [
          { result := some 6, op := .srem, ty := .i32, operands := [.temp 1, .temp 5] },
          { op := .ret, operands := [.temp 6] }] },
      { label := "other"
        insts := [
          { result := some 7, op := .udiv, ty := .i32, operands := [.temp 1, .int 0] },
          { op := .ret, operands := [.temp 7] }] }]
    valueTypes := [.i32, .i32, .i32, .b1, .i32, .i32, .i32, .i32] }

theorem eighthOrTrapFolds : verifyFunction eighthOrTrap = [] ∧ Tidy eighthOrTrap ∧
    SignExtended eighthOrTrap ∧
    (foldConstants eighthOrTrap).1.insts.map Inst.op =
      [.iconst, .iconst, .bconst, .ushr, .jump, .srem, .ret, .udiv, .ret] ∧
    run nowhere (foldConstants eighthOrTrap).1 [24] () 3 = run nowhere eighthOrTrap [24] () 3 ∧
    (run nowhere eighthOrTrap [24] () 3).ending = some (.returned [-2]) ∧
    (run nowhere eighthOrTrap [7] () 3).trace = [.trap .integerDivisionByZero] := by
  have verified : verifyFunction eighthOrTrap = [] := by decide +kernel
  have tidy : Tidy eighthOrTrap := by
    unfold Tidy Inst.Tidy
    decide
  have extended : SignExtended eighthOrTrap := by decide +kernel
  have runs := (foldingKeepsRuns eighthOrTrap verified tidy extended).2.2.1 Unit nowhere [24] () 3
  exact ⟨verified, tidy, extended, by decide +kernel, runs, by decide +kernel, by decide +kernel⟩

end SsaCodegen
