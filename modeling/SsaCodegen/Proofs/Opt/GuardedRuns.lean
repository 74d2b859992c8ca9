import Mathlib.Data.List.Forall2
import SsaCodegen.Decimal.Binary64
import SsaCodegen.Proofs.Execution.Routes
import SsaCodegen.Proofs.Opt.NanGuard
import SsaCodegen.Proofs.Verify.Structure
/-! Runs of guarded functions. Whatever the float operations compute, as long as a word is
unordered with itself just when it is a NaN, a guarded function runs as the function did in
surroundings where arithmetic gives the canonical NaN for every NaN. -/
namespace SsaCodegen
open NanGuard Semantics

def isNan (word : Word) : Bool := (Decimal.Binary64.ofBits word).isNan

def TellsNans {World : Type} (o : Surroundings World) : Prop :=
  ∀ word, o.float .fcmp .uno .b1 [word, word] ≠ 0 ↔ isNan word = true

def Surroundings.quieted {World : Type} (o : Surroundings World) : Surroundings World :=
  { o with
    float := fun op cond ty words =>
      let raw := o.float op cond ty words
      if isFloatArithmetic op && isNan raw then 0x7ff8000000000000#64 else raw }

namespace Semantics
variable {World : Type} {o : Surroundings World} {f : Func} {i : Inst}

theorem stepQuieted (other : isFloatArithmetic i.op = false) (s : State World) :
    step o.quieted f i s = step o f i s := by
  have float : o.quieted.float i.op = o.float i.op := by
    funext cond ty words
    simp only [Surroundings.quieted, other, Bool.false_and, Bool.false_eq_true, if_false]
  have computes : compute o.quieted f i = compute o f i := by
    unfold compute
    rw [float]
    rfl
  unfold step act
  rw [computes]
  rfl

theorem stepArithmetic (float : isFloatArithmetic i.op = true) {s : State World} {words : List Word}
    (reads : readOperands f i s.regs = some words) : step o f i s =
      .next { s with regs := write i s.regs (o.float i.op i.floatCond i.ty words) } := by
  refine stepComputes reads (arithmeticInfo float).1 ?_
  unfold compute
  cases op : i.op <;> first | rfl | (rw [op] at float; exact absurd float (by decide))

end Semantics

namespace NanGuard

def nanTest (raw check : Nat) (pos : SourcePos) : Inst :=
  { result := some check, op := .fcmp, ty := .b1, floatCond := .uno,
    operands := [.temp raw, .temp raw], pos := pos }

def nanChoice (raw check result : Nat) (pos : SourcePos) : Inst :=
  { result := some result, op := .select, ty := .f64,
    operands := [.temp check, canonicalNan, .temp raw], pos := pos }

inductive Guarded (n : Nat) : List Inst → List Inst → Prop where
  | nil : Guarded n [] []
  | keep {i is js} (other : isFloatArithmetic i.op = false) (later : Guarded n is js) :
    Guarded n (i :: is) (i :: js)
  | guard {i raw check result is js} (float : isFloatArithmetic i.op = true)
      (defines : i.result = some result) (new : n ≤ raw) (apart : raw < check) (later : Guarded n is js) :
    Guarded n (i :: is)
      ({ i with result := some raw } :: nanTest raw check i.pos :: nanChoice raw check result i.pos :: js)

structure GuardedBlock (n : Nat) (a b : Block) : Prop where
  head : b.head = a.head
  insts : Guarded n a.insts b.insts

theorem arithmeticResult {i : Inst} (shape : Structure.shapeMessages i = [])
    (float : isFloatArithmetic i.op = true) : i.result.isSome = true := by
  refine Structure.pureResult shape ?_
  revert float
  cases i.op <;> decide

theorem guardInstsGuarded {insts : List Inst}
    (shapes : ∀ i ∈ insts, Structure.shapeMessages i = []) {n next : Nat} (le : n ≤ next) :
    Guarded n insts (guardInsts next insts).1 ∧ next ≤ (guardInsts next insts).2 := by
  induction insts generalizing next with
  | nil => exact ⟨.nil, Nat.le_refl next⟩
  | cons i rest ih =>
    have shape := shapes i List.mem_cons_self
    have later := fun j listed => shapes j (List.mem_cons_of_mem _ listed)
    unfold guardInsts
    split
    · rename_i result float defines
      obtain ⟨guarded, after⟩ := ih later (Nat.le_add_right_of_le (k := 2) le)
      exact ⟨.guard float defines le (Nat.lt_succ_self next) guarded, Nat.le_of_add_right_le after⟩
    · rename_i unguarded
      obtain ⟨guarded, after⟩ := ih later le
      refine ⟨.keep (Bool.eq_false_iff.mpr fun float => ?_) guarded, after⟩
      obtain ⟨result, defines⟩ := Option.isSome_iff_exists.mp (arithmeticResult shape float)
      exact unguarded result float defines

theorem guardBlocksGuarded {blocks : List Block}
    (shapes : ∀ bb ∈ blocks, ∀ i ∈ bb.insts, Structure.shapeMessages i = []) {n next : Nat} (le : n ≤ next) :
    List.Forall₂ (GuardedBlock n) blocks (guardBlocks next blocks).1 := by
  induction blocks generalizing next with
  | nil => exact .nil
  | cons bb rest ih =>
    obtain ⟨guarded, after⟩ := guardInstsGuarded (shapes bb List.mem_cons_self) le
    exact .cons ⟨rfl, guarded⟩ (ih (fun b later => shapes b (List.mem_cons_of_mem _ later))
      (Nat.le_trans le after))

section Run
variable {World : Type} {o : Surroundings World} {f g : Func}

theorem testStep {raw check : Nat} {pos : SourcePos} {s : State World} {word : Word}
    (held : s.regs raw = some word) : step o g (nanTest raw check pos) s = .next { s with
      regs := assign s.regs check (Ty.b1.canonical (o.float .fcmp .uno .b1 [word, word])) } := by
  have reads : readOperands g (nanTest raw check pos) s.regs = some [word, word] := by
    simp [readOperands, nanTest, readAs, held]
  exact stepComputes reads rfl rfl

theorem choiceStep {raw check result : Nat} {pos : SourcePos} {s : State World} {word flag : Word}
    (held : s.regs raw = some word) (tested : s.regs check = some flag) :
    step o g (nanChoice raw check result pos) s = .next { s with
      regs := assign s.regs result (if flag ≠ 0 then 0x7ff8000000000000#64 else word) } := by
  have reads : readOperands g (nanChoice raw check result pos) s.regs =
      some [flag, 0x7ff8000000000000#64, word] := by
    simp [readOperands, nanChoice, readAs, canonicalNan, held, tested]
  exact stepComputes reads rfl rfl

theorem choiceQuiets (tells : TellsNans o) {op : Opcode} (float : isFloatArithmetic op = true)
    (cond : FloatCond) (ty : Ty) (words : List Word) {word : Word} (raw : o.float op cond ty words = word) :
    (if Ty.b1.canonical (o.float .fcmp .uno .b1 [word, word]) ≠ 0 then 0x7ff8000000000000#64 else word) =
      o.quieted.float op cond ty words := by
  have same : Ty.b1.canonical (o.float .fcmp .uno .b1 [word, word]) ≠ 0 ↔ isNan word = true := by
    rw [← tells word]
    by_cases zero : o.float .fcmp .uno .b1 [word, word] = 0 <;> simp [Ty.canonical, zero]
  simp only [Surroundings.quieted, float, Bool.true_and, raw, same]

theorem guardRun (tells : TellsNans o) {i : Inst} {raw check : Nat} (result : Nat)
    (float : isFloatArithmetic i.op = true) (ty : i.ty = .f64) (apart : raw < check) {t : State World}
    {words : List Word} (reads : readOperands g { i with result := some raw } t.regs = some words)
    (rest : List Inst) : ∃ regs,
      runInsts o g ({ i with result := some raw } :: nanTest raw check i.pos ::
        nanChoice raw check result i.pos :: rest) t =
      runInsts o g rest { t with
        regs := assign regs result (o.quieted.float i.op i.floatCond i.ty words) } ∧
      ∀ v < raw, regs v = t.regs v := by
  obtain ⟨word, computed⟩ : ∃ word, o.float i.op i.floatCond i.ty words = word := ⟨_, rfl⟩
  have arithmetic : step o g { i with result := some raw } t = .next { t with regs := assign t.regs raw word } := by
    refine (stepArithmetic (i := { i with result := some raw }) float reads).trans ?_
    dsimp only
    rw [computed, write, ty]
    rfl
  have held : assign t.regs raw word raw = some word := if_pos rfl
  have kept (flag : Word) : assign (assign t.regs raw word) check flag raw = some word :=
    (if_neg (Nat.ne_of_lt apart)).trans held
  refine ⟨assign (assign t.regs raw word) check
    (Ty.b1.canonical (o.float .fcmp .uno .b1 [word, word])), ?_, fun v small => ?_⟩
  · rw [runInsts, arithmetic]
    dsimp only
    rw [runInsts, testStep held]
    dsimp only
    rw [runInsts, choiceStep (kept _) (if_pos rfl), choiceQuiets tells float _ _ _ computed]
  · exact (if_neg (Nat.ne_of_lt (Nat.lt_trans small apart))).trans (if_neg (Nat.ne_of_lt small))

theorem edgeBelow (ok : WellFormed f) (r : Rewrites f g) {i : Inst} (inside : i ∈ f.insts) (edge : Nat)
    {s t : State World} (below : Below f.numValues s t) :
    ExitsAlike (fun _ => Below f.numValues) (takeEdge f i edge s) (takeEdge g i edge t) := by
  have old (id : Nat) (used : id ∈ i.usedTemps) : t.regs id = s.regs id :=
    below.regs id (ok.idBelow ((ok.inst inside).1.defined id used))
  unfold takeEdge
  rw [findBlockSame r.labels]
  cases i.targets[edge]?.bind f.findBlock? with
  | none => exact .ends below.toBeside
  | some b =>
    dsimp only
    rw [r.blockParams, argsSame old]
    cases readArgs (f.block b).params (i.argsOf edge) s.regs with
    | none => exact .ends below.toBeside
    | some words => exact .jumps below

theorem guardedRuns (tells : TellsNans o) (ok : WellFormed f) (r : Rewrites f g) {is js : List Inst}
    (guarded : Guarded f.numValues is js) (inside : ∀ i ∈ is, i ∈ f.insts) {s t : State World}
    (below : Below f.numValues s t) :
    ExitsAlike (fun _ => Below f.numValues) (runInsts o.quieted f is s) (runInsts o g js t) := by
  have old {i : Inst} (here : i ∈ f.insts) : ∀ id ∈ i.usedTemps, id < f.numValues :=
    fun id used => ok.idBelow ((ok.inst here).1.defined id used)
  have self (i : Inst) : ∃ targets args, i = { i with targets := targets, targetArgs := args } := ⟨_, _, rfl⟩
  induction guarded generalizing s t with
  | nil => exact .ends below.toBeside
  | @keep i is js other later ih =>
    have here := inside i List.mem_cons_self
    have alike : Alike f g i i := .ofExtends r.toExtends (old here) (self i)
    have reads := readsBelow r.toExtends (old here) (self i) below
    rw [runInsts, runInsts, stepQuieted other]
    cases ends : i.isTerminator with
    | true =>
      rcases lastStep (o := o) alike ends below.toBeside reads with
        ⟨words, edge, -, -, takes, takes'⟩ | ⟨ending, u, v, ends, ends', beside⟩
      · rw [takes, takes']
        exact edgeBelow ok r here edge below
      · rw [ends, ends']
        exact .ends beside
    | false =>
      rcases plainStep (o := o) alike ends below.toBeside reads with
        ⟨word, u, v, goes, goes', beside, left, right⟩ | ⟨ending, u, v, ends, ends', beside⟩
      · rw [goes, goes']
        exact ih (fun j listed => inside j (List.mem_cons_of_mem _ listed)) (below.wrote beside left right)
      · rw [ends, ends']
        exact .ends beside
  | @guard i raw check result is js float defines new apart later ih =>
    have here := inside i List.mem_cons_self
    have ty := arithmeticTy float (ok.inst here).1.types
    have reads : readOperands g { i with result := some raw } t.regs = readOperands f i s.regs :=
      readsBelow r.toExtends (old here) (self i) below
    cases held : readOperands f i s.regs with
    | none =>
      rw [runInsts, runInsts, step, step, reads, held]
      exact .ends below.toBeside
    | some words =>
      obtain ⟨regs, runs, kept⟩ := guardRun tells result float ty apart (reads.trans held) js
      rw [runs, runInsts, stepArithmetic float held]
      refine ih (fun j listed => inside j (List.mem_cons_of_mem _ listed)) ?_
      have before : Below f.numValues s { t with regs := regs } :=
        ⟨⟨below.world, below.trace⟩, fun v small => (kept v (Nat.lt_of_lt_of_le small new)).trans (below.regs v small)⟩
      refine before.wrote ⟨below.world, below.trace⟩ rfl ?_
      rw [write, defines, ty]
      rfl

end Run

theorem canonicalizeNansRewrites (f : Func) : Rewrites f (canonicalizeNans f).1 :=
  ⟨rfl, List.prefix_append _ _, guardHeads f.numValues f.blocks⟩

theorem canonicalizeNansGuarded {f : Func} (ok : WellFormed f) :
    List.Forall₂ (GuardedBlock f.numValues) f.blocks (canonicalizeNans f).1.blocks :=
  guardBlocksGuarded (fun bb there i listed => (ok.sound bb there i listed).shape) (Nat.le_refl _)

theorem guardedAt {n : Nat} {as bs : List Block} (guarded : List.Forall₂ (GuardedBlock n) as bs) (k : Nat) :
    Guarded n (as.getD k default).insts (bs.getD k default).insts := by
  induction guarded generalizing k with
  | nil => exact .nil
  | cons first _ ih =>
    cases k with
    | zero => exact first.insts
    | succ k => exact ih k

theorem canonicalizeNansRuns {f : Func} (ok : WellFormed f) {World : Type} {o : Surroundings World}
    (tells : TellsNans o) (args : List Word) (world : World) (n : Nat) :
    run o (canonicalizeNans f).1 args world n = run o.quieted f args world n := by
  have r := canonicalizeNansRewrites f
  refine runBlocksTogether (fun _ _ _ (below : Below f.numValues _ _) => below.toBeside)
    (fun b args s t below => ?_) n 0 args ⟨⟨rfl, rfl⟩, fun _ _ => rfl⟩
  unfold runBlock
  dsimp only
  rw [r.blockParams]
  split
  · refine guardedRuns tells ok r (guardedAt (canonicalizeNansGuarded ok) b) (fun i listed => ?_)
      ⟨⟨below.world, below.trace⟩, fun v small => bindWords (.refl _ _) (below.regs v small)⟩
    obtain ⟨bb, there, inside⟩ := Func.memBlock Block.insts rfl listed
    exact Func.memInsts (List.mem_of_getElem? there) inside
  · exact .ends below.toBeside

theorem nanTestReads {raw check v : Nat} {pos : SourcePos} :
    v ∈ (nanTest raw check pos).usedTemps ↔ v = raw := by
  simp [nanTest, Inst.usedTemps, Inst.uses, Value.temp?]

theorem nanChoiceReads {raw check result v : Nat} {pos : SourcePos} :
    v ∈ (nanChoice raw check result pos).usedTemps ↔ v = check ∨ v = raw := by
  simp [nanChoice, canonicalNan, Inst.usedTemps, Inst.uses, Value.temp?, eq_comm]

namespace Guarded
variable {n : Nat} {is js : List Inst}

theorem behind (guarded : Guarded n is js) {before after : List Inst} {j : Inst}
    (split : js = before ++ j :: after) (float : isFloatArithmetic j.op = true) :
    ∃ raw check result rest, j.result = some raw ∧ n ≤ raw ∧
      after = nanTest raw check j.pos :: nanChoice raw check result j.pos :: rest := by
  induction guarded generalizing before with
  | nil => simp at split
  | @keep i is js other later ih =>
    cases before with
    | nil =>
      cases split
      exact absurd float (Bool.eq_false_iff.mp other)
    | cons _ before => exact ih (List.cons.inj split).2
  | @guard i raw check result is js float' defines new apart later ih =>
    rcases before with _ | ⟨_, _ | ⟨_, _ | ⟨_, before⟩⟩⟩
    · cases split
      exact ⟨raw, check, result, js, rfl, new, rfl⟩
    · cases split
      cases float
    · cases split
      cases float
    · exact ih (List.cons.inj (List.cons.inj (List.cons.inj split).2).2).2

theorem reader (guarded : Guarded n is js) (old : ∀ i ∈ is, ∀ id ∈ i.usedTemps, id < n) {k : Inst}
    (listed : k ∈ js) {v : Nat} (used : v ∈ k.usedTemps) (new : n ≤ v) :
    ∃ before j raw check result after,
      js = before ++ j :: nanTest raw check j.pos :: nanChoice raw check result j.pos :: after ∧
      j.result = some raw ∧
      (v = raw ∧ (k = nanTest raw check j.pos ∨ k = nanChoice raw check result j.pos) ∨ v = check) := by
  induction guarded with
  | nil => cases listed
  | @keep i is js other later ih =>
    rcases List.mem_cons.mp listed with rfl | behind
    · exact absurd (old _ List.mem_cons_self v used) (Nat.not_lt.mpr new)
    · obtain ⟨before, j, raw, check, result, after, split, found⟩ :=
        ih (fun i inside => old i (List.mem_cons_of_mem _ inside)) behind
      exact ⟨i :: before, j, raw, check, result, after, by rw [split, List.cons_append], found⟩
  | @guard i raw check result is js float defines fresh apart later ih =>
    simp only [List.mem_cons] at listed
    rcases listed with rfl | rfl | rfl | behind
    · exact absurd (old i List.mem_cons_self v used) (Nat.not_lt.mpr new)
    · exact ⟨[], _, raw, check, result, js, rfl, rfl, .inl ⟨nanTestReads.mp used, .inl rfl⟩⟩
    · refine ⟨[], _, raw, check, result, js, rfl, rfl, ?_⟩
      exact (nanChoiceReads.mp used).symm.imp_left fun same => ⟨same, .inr rfl⟩
    · obtain ⟨before, j, raw', check', result', after, split, found⟩ :=
        ih (fun i inside => old i (List.mem_cons_of_mem _ inside)) behind
      exact ⟨_ :: _ :: _ :: before, j, raw', check', result', after, by rw [split]; rfl, found⟩

end Guarded

theorem rawReads {f g : Func} (ok : WellFormed f) (made : WellFormed g)
    (guarded : List.Forall₂ (GuardedBlock f.numValues) f.blocks g.blocks) {b : Block} (there : b ∈ g.blocks)
      {before after : List Inst} {j : Inst}
    (split : b.insts = before ++ j :: after) (float : isFloatArithmetic j.op = true) :
    ∃ raw check result rest, j.result = some raw ∧ f.numValues ≤ raw ∧
      after = nanTest raw check j.pos :: nanChoice raw check result j.pos :: rest ∧
      ∀ k ∈ g.insts, raw ∈ k.usedTemps → k = nanTest raw check j.pos ∨ k = nanChoice raw check result j.pos := by
  obtain ⟨m, located⟩ := List.getElem?_of_mem there
  have pairAt {m : Nat} {b : Block} (located : g.blocks[m]? = some b) :
      ∃ a ∈ f.blocks, Guarded f.numValues a.insts b.insts := by
    obtain ⟨right, rfl⟩ := List.getElem?_eq_some_iff.mp located
    have left := guarded.length_eq.symm ▸ right
    exact ⟨f.blocks[m], List.getElem_mem _, (guarded.get left right).insts⟩
  obtain ⟨a, -, here⟩ := pairAt located
  obtain ⟨raw, check, result, rest, defines, new, rfl⟩ := here.behind split float
  refine ⟨raw, check, result, rest, defines, new, rfl, fun k inside used => ?_⟩
  obtain ⟨c, home, listed⟩ := List.mem_flatMap.mp inside
  obtain ⟨m', located'⟩ := List.getElem?_of_mem home
  obtain ⟨a', source, other⟩ := pairAt located'
  obtain ⟨before', j', raw', check', result', after', split', defines', found⟩ :=
    other.reader (fun i old id used => ok.idBelow ((ok.sound a' source i old).defined id used)) listed used new
  have inB : raw ∈ b.definedIds := Block.memDefinedIds.mpr
    (.inr ⟨j, split ▸ List.mem_append_right _ List.mem_cons_self, defines⟩)
  rcases found with ⟨rfl, found⟩ | rfl
  · have inC : raw ∈ c.definedIds := Block.memDefinedIds.mpr
      (.inr ⟨j', split' ▸ List.mem_append_right _ List.mem_cons_self, defines'⟩)
    cases Func.definedInOneBlock made.once located located' inB inC
    cases located.symm.trans located'
    have first : b.insts[before.length]? = some j := by simp [split]
    have second : b.insts[before'.length]? = some j' := by simp [split']
    have place := Block.resultIndex (Func.definedOnceIn made.once there) first second defines defines'
    obtain ⟨-, same⟩ := List.append_inj (split.symm.trans split') place
    simp only [List.cons.injEq] at same
    obtain ⟨rfl, test, choice, -⟩ := same
    rwa [test, choice]
  · have test : nanTest raw' raw j'.pos ∈ g.insts := Func.memInsts home (by simp [split'])
    have self : j ∈ g.insts := Func.memInsts there (by simp [split])
    cases Func.oneDefinition made.once self test defines rfl
    cases float

end NanGuard

/-- Guards leave a function in order. It runs as before but for NaNs, whatever the float operations
compute; only guards read raw results, and all else is as it was. -/
theorem canonicalizeNansQuiets (f : Func) (verified : verifyFunction f = []) :
    let g := (canonicalizeNans f).1
    verifyFunction g = [] ∧
    (∀ (World : Type) (o : Surroundings World), TellsNans o →
      ∀ (args : List Word) (world : World) (n : Nat), run o g args world n = run o.quieted f args world n) ∧
    List.Forall₂ (GuardedBlock f.numValues) f.blocks g.blocks ∧
    (∀ b ∈ g.blocks, ∀ before i after, b.insts = before ++ i :: after → isFloatArithmetic i.op = true →
      ∃ raw check result rest, i.result = some raw ∧ f.numValues ≤ raw ∧
        after = nanTest raw check i.pos :: nanChoice raw check result i.pos :: rest ∧
        ∀ j ∈ g.insts, raw ∈ j.usedTemps → j = nanTest raw check i.pos ∨ j = nanChoice raw check result i.pos) ∧
    f.valueTypes <+: g.valueTypes ∧ g = { f with blocks := g.blocks, valueTypes := g.valueTypes } := by
  have ok := verifiedIff.mp verified
  have made := canonicalizeNansWellFormed ok
  have guarded := canonicalizeNansGuarded ok
  exact ⟨verifiedIff.mpr made, fun World o tells => canonicalizeNansRuns ok tells, guarded,
    fun b there before i after split float => rawReads ok made guarded there split float,
    List.prefix_append _ _, rfl⟩

def payloads : Surroundings Unit :=
  { nowhere with
    float := fun op _ _ words =>
      match op, words with
      | .fcmp, [a, b] => if isNan a || isNan b then 1 else 0
      | .fdiv, _ => 0xfff8000000000001
      | .fadd, [a, _] => a
      | _, _ => 0 }

def quotients : Func :=
  { signature := { params := [.f64], returns := [.f64] }
    blocks := [
      { label := "entry", params := [⟨0, .f64⟩]
        insts := [{ op := .jump, targets := ["loop"], targetArgs := [[.temp 0]] }] },
      { label := "loop", params := [⟨1, .f64⟩]
        insts := [
          { result := some 2, op := .fdiv, ty := .f64, operands := [.temp 1, .temp 1] },
          { result := some 3, op := .fadd, ty := .f64, operands := [.temp 2, .temp 1] },
          { result := some 4, op := .fcmp, ty := .b1, floatCond := .uno, operands := [.temp 1, .temp 1] },
          { op := .brif, operands := [.temp 4], targets := ["done", "loop"], targetArgs := [[], [.temp 3]] }] },
      { label := "done", insts := [{ op := .ret, operands := [.temp 3] }] }]
    valueTypes := [.f64, .f64, .f64, .f64, .b1] }

theorem quotientsQuieted :
    let g := (canonicalizeNans quotients).1
    verifyFunction quotients = [] ∧ TellsNans payloads ∧ verifyFunction g = [] ∧
    (g.blocks.map fun bb => bb.insts.map Inst.op) =
      [[.jump], [.fdiv, .fcmp, .select, .fadd, .fcmp, .select, .fcmp, .brif], [.ret]] ∧
    run payloads g [1] () 4 = run payloads.quieted quotients [1] () 4 ∧
    (run payloads.quieted quotients [1] () 4).ending = some (.returned [0x7ff8000000000000]) ∧
    (run payloads quotients [1] () 4).ending = some (.returned [0xfff8000000000001]) := by
  have verified : verifyFunction quotients = [] := by decide +kernel
  have tells : TellsNans payloads := fun word => by simp [payloads]
  obtain ⟨after, runs, -⟩ := canonicalizeNansQuiets quotients verified
  exact ⟨verified, tells, after, by decide +kernel, runs Unit payloads tells [1] () 4,
    by decide +kernel, by decide +kernel⟩

end SsaCodegen
