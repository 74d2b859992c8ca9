import SsaCodegen.Proofs.Execution.Machine
import SsaCodegen.Proofs.Layout.Branches
/-! Which way conditions go. Emitted code tests the low half of the word that a condition holds,
whatever its type; folding looks at the whole word of a condition that it knows. -/
namespace SsaCodegen
namespace X64

namespace Machine

def Holds (f : Func) (m : Machine) (v : Value) (word : BitVec 64) : Prop :=
  match v with
  | .temp id =>
    match f.location id with
    | .reg n => m.regs (gprOf n) = word
    | .slot s => m.word (m.address (gprOf rbp) (Lower.slotDisp f s)) = word
    | .unassigned => False
  | literal => literal.intPayload = word

structure Scratched (m n : Machine) : Prop where
  memory : n.memory = m.memory
  regs : ∀ r, r ≠ gprOf rax → n.regs r = m.regs r

theorem Scratched.set (m : Machine) (word : BitVec 64) : m.Scratched (m.set (gprOf rax) word) :=
  ⟨rfl, fun _ other => if_neg other⟩

theorem getSet (m : Machine) (r : Gpr) (word : BitVec 64) : (m.set r word).regs r = word := if_pos rfl

end Machine

section Runs
variable {f : Func} {m : Machine} {position : Nat} {word : BitVec 64}

theorem loadRuns {v : Value} (holds : m.Holds f v word) (rest : List Asm) : ∃ n,
    run position (Lower.loadGpr f rax v false ++ rest) m =
        run (position + Asm.sizes (Lower.loadGpr f rax v false)) rest n ∧
      (n.regs (gprOf rax)).setWidth 32 = word.setWidth 32 ∧ m.Scratched n := by
  have literal (w : BitVec 64) : ∃ n, run position (Lower.materialize rax w false :: rest) m =
      run (position + (Lower.materialize rax w false).size) rest n ∧
      (n.regs (gprOf rax)).setWidth 32 = w.setWidth 32 ∧ m.Scratched n :=
    ⟨_, run.inst rest rfl rfl, by simp [Machine.getSet], .set m _⟩
  cases v with
  | temp id =>
    simp only [Machine.Holds] at holds
    simp only [Lower.loadGpr, Lower.loadLocation]
    cases home : f.location id with
    | unassigned => simp [home] at holds
    | slot s =>
      simp only [home] at holds
      refine ⟨_, run.inst rest rfl rfl, ?_, .set m _⟩
      rw [Machine.getSet, holds]
    | reg n =>
      simp only [home] at holds
      simp only [Lower.moveReg, Lower.moveGpr]
      split
      · rename_i same
        exact ⟨m, rfl, by rw [← same, holds], ⟨rfl, fun _ _ => rfl⟩⟩
      · refine ⟨_, run.inst rest rfl rfl, ?_, .set m _⟩
        rw [Machine.getSet, holds]
  | int w =>
    cases holds
    exact literal _
  | bool flag =>
    cases holds
    exact literal _
  | float bits =>
    cases holds
    exact literal _

theorem testRuns {inst : Inst} (holds : m.Holds f (inst.operand 0) word) (rest : List Asm) : ∃ n,
    run position (Lower.testCondition f inst ++ rest) m =
        run (position + Asm.sizes (Lower.testCondition f inst)) rest n ∧
      n.flags.zero = (word.setWidth 32 == 0) ∧ m.Scratched n := by
  obtain ⟨n, loads, low, scratched⟩ :=
    loadRuns holds (.inst (.test (gprOf rax) (gprOf rax) false) :: rest)
  generalize tested : ({ n with
    flags := .ofLogic ((n.regs (gprOf rax) &&& n.regs (gprOf rax)).setWidth 32) } : Machine) = n'
  have steps : (MachineInst.test (gprOf rax) (gprOf rax) false).step? n = some n' := congrArg some tested
  refine ⟨n', ?_, ?_, ?_⟩
  · rw [Lower.testCondition, List.append_assoc, List.singleton_append, loads, run.inst rest rfl steps,
      Asm.sizesAppend, Asm.sizes, Asm.sizes, Nat.add_zero, Nat.add_assoc]
  · rw [← tested]
    simp only [Flags.ofLogic, BitVec.and_self, low]
  · subst tested
    exact ⟨scratched.memory, scratched.regs⟩

def edgeOf (word : BitVec 64) : Nat := if word.setWidth 32 = 0 then 1 else 0

theorem brifRuns {inst : Inst} {b : Nat} (leaving : Leaving f b (position + instructionSize f inst) inst)
    (op : inst.op = .brif) (holds : m.Holds f (inst.operand 0) word)
    (next : ∀ start, f.blockOffsets[b + 1]? = some start → start = position + instructionSize f inst) :
    ∃ n t target, run position (lowerInst f inst) m = some (n, .reached (target : Nat)) ∧
      f.findBlock? (inst.target (edgeOf word)) = some t ∧ f.blockOffsets[t]? = some target ∧
      m.Scratched n := by
  have code := lowerLeaves f leaving.recipe leaving.branch
  simp only [Lower.approach, Lower.leave, op] at code
  obtain ⟨n, tests, zero, scratched⟩ := testRuns holds (Lower.branch f inst .ne)
  have ends : position + Asm.sizes (Lower.testCondition f inst) + Asm.sizes (Lower.branch f inst .ne) =
      position + instructionSize f inst := by
    rw [instructionSize, code, sizeAssemble, Asm.sizesAppend, Nat.add_assoc]
  rw [code, tests]
  generalize position + Asm.sizes (Lower.testCondition f inst) = start at ends
  rw [sizesOfBranch f inst .ne 0, ← Nat.add_assoc] at ends
  obtain ⟨-, always, first, second, served₁, served₂⟩ := leaving.conditional (.inl op) ends
  have size := Nat.add_right_cancel
    ((sizesOfBranch f inst .ne 0).symm.trans (sizesOfBranch f inst .ne first))
  rw [size] at ends served₁
  rw [lowerBranch served₁.named, run.jumpIf _ (served₁.reach always)]
  simp only [Cond.holds, zero, Bool.not_eq_true', beq_eq_false_iff_ne, ne_eq, edgeOf]
  by_cases low : word.setWidth 32 = 0
  · obtain ⟨t, found, starts⟩ := served₂.named.1
    refine ⟨n, t, second, ?_, by rwa [if_pos low], starts, scratched⟩
    rw [if_neg (not_not_intro low)]
    by_cases falls : inst.enc.form .other = .fallthrough
    -- without a second branch the code ends where the next block starts
    · have same := served₂.falls falls
      cases found.symm.trans same
      rw [falls, next second starts, ← ends, falls]
      rfl
    · rw [lowerJump served₂.named falls, run.jump _ ?_]
      rw [sizeOfJump falls, ends]
      exact served₂.reach falls
  · obtain ⟨t, found, starts⟩ := served₁.named.1
    exact ⟨n, t, first, by rw [if_pos low], by rwa [if_neg low], starts, scratched⟩

theorem trapnzRuns {inst : Inst} (recipe : inst.enc.recipe? = some .trapnz)
    (holds : m.Holds f (inst.operand 0) word) :
    ∃ n, run position (lowerInst f inst) m = some (n, if word.setWidth 32 = 0 then
        .reached (position + instructionSize f inst : Nat) else .trapped) ∧ m.Scratched n := by
  have code : lowerInst f inst =
      Lower.testCondition f inst ++ .inst (.jccShort .e 2) :: Lower.trap inst := by
    simp only [lowerInst, recipe, Lower.trapnz, List.append_assoc, List.singleton_append]
  obtain ⟨n, tests, zero, scratched⟩ := testRuns holds (.inst (.jccShort .e 2) :: Lower.trap inst)
  have size : instructionSize f inst = Asm.sizes (Lower.testCondition f inst) + 4 := by
    rw [instructionSize, sizeAssemble, code, Asm.sizesAppend]
    rfl
  refine ⟨n, ?_, scratched⟩
  rw [code, tests, size, ← Nat.add_assoc]
  generalize position + Asm.sizes (Lower.testCondition f inst) = start
  -- the branch over the trap
  have skips : (MachineInst.jccShort .e 2).reaches? start = some ((start + 4 : Nat) : Int) := by
    have two : signedOf [(2 : Byte)] = 2 := by decide
    show some (((start + 2 : Nat) : Int) + signedOf [(2 : Byte)]) = _
    rw [two]
    rfl
  rw [run.branch _ rfl, skips]
  by_cases low : word.setWidth 32 = 0
  · have taken : Cond.e.holds n.flags = true := zero.trans (beq_iff_eq.mpr low)
    rw [if_pos low, if_pos taken]
    rfl
  · have passed : ¬ Cond.e.holds n.flags = true := fun taken =>
      low (beq_iff_eq.mp (zero.symm.trans taken))
    rw [if_neg low, if_neg passed]
    rfl

end Runs

theorem startsNext {offset b x y z : Nat} {sizes : List Nat} (here : (startsFrom offset sizes)[b]? = some x)
    (next : (startsFrom offset sizes)[b + 1]? = some y) (size : sizes[b]? = some z) : y = x + z := by
  induction sizes generalizing offset b with
  | nil => cases size
  | cons first rest ih =>
    cases b with
    | succ b => exact ih here next size
    | zero =>
      cases here
      cases size
      cases rest with
      | nil => cases next
      | cons _ _ => exact (Option.some.inj next).symm

def TestsLowHalf (f : Func) : Prop :=
  ∀ (b : Nat) (bb : Block) (before : List Inst) (inst : Inst) (after : List Inst) (start : Nat),
    f.blocks[b]? = some bb → bb.insts = before ++ inst :: after → f.blockOffsets[b]? = some start →
    ∀ (m : Machine) (word : BitVec 64), m.Holds f (inst.operand 0) word →
      let position := start + codeSize f before
      (inst.op = .brif → ∃ n t target, run position (lowerInst f inst) m = some (n, .reached (target : Nat)) ∧
        f.findBlock? (inst.target (edgeOf word)) = some t ∧ f.blockOffsets[t]? = some target ∧
        m.Scratched n) ∧
      (inst.op = .trapnz → ∃ n, run position (lowerInst f inst) m =
          some (n, if word.setWidth 32 = 0 then .reached (position + instructionSize f inst : Nat) else .trapped) ∧
        m.Scratched n)

theorem testsLowHalf {limit : Nat} {f : Func} {info : CodeInfo} (ok : WellFormed f) (fitted : Fitted f)
    (aimed : Layout.Aimed f) (laid : LaidOut limit f info) (small : limit < 2147483648) :
    TestsLowHalf f := by
  have real := realizesLayout laid
  have total : f.constantPoolOffset < 2147483648 := by
    have fits := laid.fits
    rw [laid.sizes] at fits
    exact Nat.lt_of_le_of_lt (Nat.le_trans (Nat.le_add_right ..) fits) small
  intro b bb before inst after start found split starts m word holds
  have home := List.mem_of_getElem? found
  have inside : inst ∈ bb.insts := split ▸ List.mem_append_right _ List.mem_cons_self
  constructor
  · intro op
    have leaving := leavingBlock ok real fitted aimed total found split starts (by rw [op]; rfl)
    refine brifRuns leaving op holds fun next there => ?_
    rw [real.starts] at starts there
    have size : (f.blocks.map (Layout.blockSize f))[b]? = some (Layout.blockSize f bb) := by
      rw [List.getElem?_map, found, Option.map_some]
    cases terminatorLast (ok.ended bb home) split (by rw [Inst.isTerminator, op]; rfl)
    rw [startsNext starts there size, Nat.add_assoc]
    congr 1
    show codeSize f bb.insts = _
    rw [split, codeSizeAppend]
    rfl
  · intro op
    have recipe := (fitted inst (Func.memInsts home inside)).recipe
    rw [op] at recipe
    exact trapnzRuns recipe holds

end X64

namespace ConstantFold
open X64 (edgeOf)

theorem foldBranchKeeps {known : Known} {inst j : Inst} {word : BitVec 64}
    (holds : known.value? (inst.operand 0) = some word) (folds : foldBranch known inst = some j) :
    j.targets = [inst.target (edgeOf word)] ↔
      inst.target 0 = inst.target 1 ∨ (word.setWidth 32 = 0 → word = 0) := by
  have kept : j.targets = [inst.target (if word = 0 then 1 else 0)] := by
    unfold foldBranch at folds
    split at folds
    · rename_i cond others first second operands targets
      have operand : inst.operand 0 = cond := by simp [Inst.operand, operands]
      rw [← operand, holds, Option.map_some] at folds
      cases folds
      rfl
    · cases folds
  rw [kept, List.singleton_inj, edgeOf]
  by_cases zero : word = 0
  · subst zero
    simp
  · rw [if_neg zero]
    by_cases low : word.setWidth 32 = 0
    · rw [if_pos low]
      exact ⟨.inl, fun keeps => keeps.elim id fun all => absurd (all low) zero⟩
    · rw [if_neg low]
      exact ⟨fun _ => .inr fun absent => absurd absent low, fun _ => rfl⟩

end ConstantFold

namespace Session
open X64 ConstantFold

theorem compiledTests {s u : Session} {t : Target} {f : Func} {info : CodeInfo}
    (verified : verifyFunction f = []) (tidy : Tidy f) (small : t.limits.functionLimit ≤ 2147483647)
    (done : (s.setFunction f).compile t = (u, .ok info)) : TestsLowHalf u.func := by
  have ends := compileEnds s t ⟨verifiedIff.mp verified, tidy⟩
  rw [done] at ends
  obtain ⟨⟨g, relaxed⟩, -⟩ := relaxedCompile done
  exact testsLowHalf ends.wellFormed ends.fitted (relaxBranchesAimed relaxed) (laidOutRelax relaxed)
    (Nat.lt_succ_of_le small)

theorem compiledConditionsTestLowHalf (s : Session) (t : Target) (f : Func)
    (verified : verifyFunction f = []) (tidy : Tidy f) (small : t.limits.functionLimit ≤ 2147483647)
    (u : Session) (info : CodeInfo) (done : (s.setFunction f).compile t = (u, .ok info)) :
    TestsLowHalf u.func ∧ ∀ (known : Known) (inst j : Inst) (word : BitVec 64),
      known.value? (inst.operand 0) = some word → foldBranch known inst = some j →
      (j.targets = [inst.target (edgeOf word)] ↔
        inst.target 0 = inst.target 1 ∨ (word.setWidth 32 = 0 → word = 0)) :=
  ⟨compiledTests verified tidy small done, fun _ _ _ _ => foldBranchKeeps⟩

def highHalf : Func :=
  { signature := { returns := [.i64] }
    blocks := [
      { label := "entry"
        insts := [
          { op := .brif, operands := [.int 0x100000000], targets := ["set", "clear"],
            targetArgs := [[], []] }] },
      { label := "set", insts := [{ op := .ret, operands := [.int 1] }] },
      { label := "clear", insts := [{ op := .ret, operands := [.int 0] }] }] }

theorem highHalfTests : verifyFunction highHalf = [] ∧ Tidy highHalf ∧
    ∃ u info, (Session.setFunction {} highHalf).compile { flags := { optLevel := .fastest } } =
        (u, .ok info) ∧ TestsLowHalf u.func ∧ ∀ (known : Known) (inst j : Inst) (word : BitVec 64),
          known.value? (inst.operand 0) = some word → foldBranch known inst = some j →
          (j.targets = [inst.target (edgeOf word)] ↔
            inst.target 0 = inst.target 1 ∨ (word.setWidth 32 = 0 → word = 0)) := by
  have verified : verifyFunction highHalf = [] := by decide
  have tidy : Tidy highHalf := by
    unfold Tidy Inst.Tidy
    decide
  obtain ⟨u, info, done⟩ := compiledOf (s := Session.setFunction {} highHalf)
    (t := { flags := { optLevel := .fastest } }) (by decide +kernel)
  exact ⟨verified, tidy, u, info, done, compiledConditionsTestLowHalf {} { flags := { optLevel := .fastest } }
    highHalf verified tidy (by decide) u info done⟩

/-- The condition is not zero and folding keeps the first edge, but the code takes the second. -/
theorem highHalfTakesSecond : verifyFunction highHalf = [] ∧
    (foldConstants highHalf).1.blocks.head?.map Block.targets = some ["set"] ∧
    ∃ u info before branch target,
      (Session.setFunction {} highHalf).compile { flags := { optLevel := .fastest } } = (u, .ok info) ∧
      u.func.blocks.head?.map Block.insts = some (before ++ [branch]) ∧ branch.op = .brif ∧
      branch.operands = [.int 0x100000000] ∧ branch.targets = ["set", "clear"] ∧
      u.func.findBlock? "clear" = some 2 ∧ u.func.blockOffsets[2]? = some target ∧
      ∀ m, ∃ n, run (codeSize u.func before) (lowerInst u.func branch) m = some (n, .reached (target : Nat)) := by
  have verified : verifyFunction highHalf = [] := by decide
  have tidy : Tidy highHalf := by
    unfold Tidy Inst.Tidy
    decide
  have folds : (foldConstants highHalf).1.blocks.head?.map Block.targets = some ["set"] := by decide
  obtain ⟨u, info, done⟩ := compiledOf (s := Session.setFunction {} highHalf)
    (t := { flags := { optLevel := .fastest } }) (by decide +kernel)
  have code : ∀ f, f = ((Session.setFunction {} highHalf).compile
      { flags := { optLevel := .fastest } }).1.func → f.blocks.head?.map (fun bb => bb.insts.map fun i =>
        (i.op, i.operands, i.targets)) = some [(.prologue, [], []),
          (.brif, [.int 0x100000000], ["set", "clear"])] ∧ f.findBlock? "clear" = some 2 ∧
      f.blockOffsets[0]? = some 0 ∧ f.blockOffsets[2]? = some 22 := by
    rintro f rfl
    decide +kernel
  obtain ⟨insts, clear, start, target⟩ := code u.func (by rw [done])
  have tests := compiledTests verified tidy (by decide) done
  obtain ⟨entry, first, listed⟩ := Option.map_eq_some_iff.mp insts
  have found : u.func.blocks[0]? = some entry := by rw [← List.head?_eq_getElem?, first]
  obtain ⟨opening, later, split, -, listed⟩ := List.map_eq_cons_iff.mp listed
  obtain ⟨branch, absent, rfl, same, listed⟩ := List.map_eq_cons_iff.mp listed
  cases List.map_eq_nil_iff.mp listed
  simp only [Prod.mk.injEq] at same
  obtain ⟨op, operands, targets⟩ := same
  refine ⟨verified, folds, u, info, [opening], branch, 22, done, by rw [first, Option.map_some, split]; rfl,
    op, operands, targets, clear, target, fun m => ?_⟩
  have holds : m.Holds u.func (branch.operand 0) 0x100000000 := by
    rw [Inst.operand, operands]
    rfl
  have edge : branch.target (edgeOf 0x100000000) = "clear" := by
    rw [Inst.target, targets]
    decide
  obtain ⟨n, t, offset, ran, named, starts, -⟩ :=
    (tests 0 entry [opening] branch [] 0 found split start m _ holds).1 op
  rw [edge, clear] at named
  cases named
  rw [target] at starts
  cases starts
  rw [Nat.zero_add] at ran
  exact ⟨n, ran⟩

end Session
end SsaCodegen
