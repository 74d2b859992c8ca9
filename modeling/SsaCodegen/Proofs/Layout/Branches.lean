import SsaCodegen.Proofs.Layout.Emission
import SsaCodegen.Proofs.Layout.Relative
import SsaCodegen.Proofs.Pipeline.Compile
/-! Where branches lead. A layout is final when no branch is widened any more, so every short
branch reaches its block; an edge falls through only to the block laid out next, and neither
placing nor widening changes that. -/
namespace SsaCodegen
namespace X64
namespace Layout

def Falls (next : Option String) (i : Inst) : Prop :=
  i.op.isBranch = true →
    match i.enc.recipe? with
    | some .jump => i.enc.form .taken = .fallthrough → next = some (i.target 0)
    | some .brif | some .brIcmp => i.enc.form .taken ≠ .fallthrough ∧
        (i.enc.form .other = .fallthrough → next = some (i.target 1))
    | _ => True

def FallsThrough : List Block → Prop
  | [] => True
  | bb :: rest => (∀ i ∈ bb.insts, Falls (rest.head?.map Block.label) i) ∧ FallsThrough rest

theorem recipeWithForm (e : Encoding) (edge : Edge) (form : BranchForm) :
    (e.withForm edge form).recipe? = e.recipe? := rfl

theorem initialFalls {next : Option String} {label : String}
    (falls : initialForm next label = .fallthrough) : next = some label := by
  unfold initialForm at falls
  split at falls
  · rename_i same
    exact beq_iff_eq.mp same
  · cases falls

theorem initBranchFalls (next : Option String) (i : Inst) : Falls next (initBranch next i) := by
  have apart (e : Encoding) (form : BranchForm) : (e.withForm .other form).form .taken = e.form .taken :=
    e.formWithOther form (by decide)
  unfold initBranch
  split
  · rename_i other
    exact fun branch => absurd branch (by simpa using other)
  · split <;> rename_i recipe <;> intro _ <;> simp only [recipeWithForm, recipe]
    · exact fun falls => initialFalls ((Encoding.formWithForm ..).symm.trans falls)
    all_goals simp only [apart, Encoding.formWithForm]
    · exact ⟨by decide, initialFalls⟩
    · exact ⟨by decide, initialFalls⟩

structure Widened (i j : Inst) : Prop where
  formless : j.formless = i.formless
  forms : ∀ edge, j.enc.form edge = i.enc.form edge ∨ j.enc.form edge = .near

namespace Widened

theorem refl (i : Inst) : Widened i i := ⟨rfl, fun _ => .inl rfl⟩

theorem trans {i j k : Inst} (a : Widened i j) (b : Widened j k) : Widened i k :=
  ⟨b.formless.trans a.formless, fun edge => (b.forms edge).elim
    (fun same => (a.forms edge).imp same.trans same.trans) .inr⟩

theorem falls {next : Option String} {i j : Inst} (w : Widened i j) (falls : Falls next i) :
    Falls next j := by
  have op : j.op = i.op := formlessRead w.formless Inst.op
  have recipe : j.enc.recipe? = i.enc.recipe? := formlessRead w.formless fun i => i.enc.recipe?
  have target (k : Nat) : j.target k = i.target k := formlessRead w.formless (Inst.target · k)
  have back {edge : Edge} (falls : j.enc.form edge = .fallthrough) : i.enc.form edge = .fallthrough :=
    (w.forms edge).elim (fun same => same.symm.trans falls) fun near => nomatch near.symm.trans falls
  intro branch
  have was := falls (op ▸ branch)
  rw [recipe]
  split at was
  · rw [target]
    exact fun absent => was (back absent)
  · rw [target]
    exact ⟨fun absent => was.1 (back absent), fun absent => was.2 (back absent)⟩
  · rw [target]
    exact ⟨fun absent => was.1 (back absent), fun absent => was.2 (back absent)⟩
  · trivial

end Widened

theorem widenEdgeWidened (f : Func) (edge : Edge) (label : String) (branchEnd : Int) (i : Inst) :
    Widened i (widenEdge f edge label branchEnd i) := by
  refine ⟨widenEdgeFormless .., fun e => ?_⟩
  unfold widenEdge
  split
  · by_cases same : e = edge
    · exact .inr (same ▸ Encoding.formWithForm ..)
    · exact .inl (Encoding.formWithOther _ _ same)
  · exact .inl rfl

theorem widenBranchWidened (f : Func) (instEnd : Nat) (i : Inst) :
    Widened i (widenBranch f instEnd i) := by
  unfold widenBranch
  split
  · exact .refl i
  · split
    · exact widenEdgeWidened ..
    · exact (widenEdgeWidened ..).trans (widenEdgeWidened ..)
    · exact (widenEdgeWidened ..).trans (widenEdgeWidened ..)
    · exact .refl i

theorem initBlocksFall (blocks : List Block) : FallsThrough (initBlocks blocks) := by
  induction blocks with
  | nil => trivial
  | cons bb rest ih =>
    refine ⟨fun i inside => ?_, ih⟩
    obtain ⟨was, -, rfl⟩ := List.mem_map.mp inside
    have next : (initBlocks rest).head?.map Block.label = rest.head?.map Block.label := by
      rw [← List.head?_map, (headersInit rest).1, List.head?_map]
    rw [next]
    exact initBranchFalls _ was

theorem memWidened {f : Func} {offset : Nat} {insts : List Inst} {j : Inst}
    (inside : j ∈ widenInsts f offset insts) : ∃ i ∈ insts, Widened i j := by
  induction insts generalizing offset with
  | nil => cases inside
  | cons i rest ih =>
    rcases List.mem_cons.mp inside with rfl | later
    · refine ⟨i, List.mem_cons_self, ?_⟩
      split
      · exact widenBranchWidened ..
      · exact .refl i
    · obtain ⟨was, listed, widened⟩ := ih later
      exact ⟨was, List.mem_cons_of_mem _ listed, widened⟩

theorem widenBlocksFall {f : Func} {offset : Nat} {blocks : List Block} (falls : FallsThrough blocks) :
    FallsThrough (widenBlocks f offset blocks) := by
  induction blocks generalizing offset with
  | nil => trivial
  | cons bb rest ih =>
    refine ⟨fun j inside => ?_, ih falls.2⟩
    obtain ⟨i, listed, widened⟩ := memWidened inside
    rw [← List.head?_map, (headersWiden ..).1, List.head?_map]
    exact widened.falls (falls.1 i listed)

def Final (f : Func) : Prop := widenBlocks f 0 f.blocks = f.blocks

theorem relaxFinal {limit rounds codeEnd : Nat} {f g : Func}
    (done : relax limit rounds f = (g, .ok codeEnd)) (falls : FallsThrough f.blocks) :
    FallsThrough g.blocks ∧ Final g := by
  induction rounds generalizing f with
  | zero => cases done
  | succ rounds ih =>
    simp only [relax] at done
    split at done
    · cases done
    · split at done
      -- rounds end when a sweep changes nothing
      · rename_i same
        cases done
        exact ⟨falls, beq_iff_eq.mp same⟩
      · exact ih done (widenBlocksFall falls)

theorem widenInstsAt {f : Func} {offset : Nat} {insts before after : List Inst} {inst : Inst}
    (same : widenInsts f offset insts = insts) (split : insts = before ++ inst :: after)
    (addressed : offset + codeSize f before + instructionSize f inst ≤ lastOffset) :
    widenBranch f (offset + codeSize f before + instructionSize f inst) inst = inst := by
  induction before generalizing offset insts with
  | nil =>
    subst split
    exact (if_pos addressed).symm.trans (List.cons_eq_cons.mp same).1
  | cons i rest ih =>
    subst split
    have behind : offset + codeSize f (i :: rest) = offset + instructionSize f i + codeSize f rest :=
      (Nat.add_assoc ..).symm
    rw [behind] at addressed ⊢
    exact ih (List.cons_eq_cons.mp same).2 rfl addressed

theorem widenBlocksAt {f : Func} {offset : Nat} {blocks before after : List Block} {bb : Block}
    (same : widenBlocks f offset blocks = blocks) (split : blocks = before ++ bb :: after) :
    widenInsts f (endFrom offset (before.map (blockSize f))) bb.insts = bb.insts := by
  induction before generalizing offset blocks with
  | nil =>
    subst split
    exact congrArg Block.insts (List.cons_eq_cons.mp same).1
  | cons first rest ih =>
    subst split
    exact ih (List.cons_eq_cons.mp same).2 rfl

theorem Final.steady {f : Func} {b start : Nat} {bb : Block} {before after : List Inst} {inst : Inst}
    (final : Final f) (starts : f.blockOffsets = startsFrom 0 (f.blocks.map (blockSize f)))
    (found : f.blocks[b]? = some bb) (begins : f.blockOffsets[b]? = some start)
    (split : bb.insts = before ++ inst :: after)
    (addressed : start + codeSize f before + instructionSize f inst ≤ lastOffset) :
    widenBranch f (start + codeSize f before + instructionSize f inst) inst = inst := by
  obtain ⟨inside, rfl⟩ := List.getElem?_eq_some_iff.mp found
  have blocks : f.blocks = f.blocks.take b ++ f.blocks[b] :: f.blocks.drop (b + 1) := by
    rw [← List.drop_eq_getElem_cons inside, List.take_append_drop]
  have place : ((f.blocks.take b).map (blockSize f)).length = b := by
    rw [List.length_map, List.length_take_of_le (Nat.le_of_lt inside)]
  have ends : endFrom 0 ((f.blocks.take b).map (blockSize f)) = start := by
    have there := @startsFromAt 0 ((f.blocks.take b).map (blockSize f)) (blockSize f f.blocks[b])
      ((f.blocks.drop (b + 1)).map (blockSize f))
    rw [place, ← List.map_cons, ← List.map_append, ← blocks, ← starts, begins] at there
    exact (Option.some.inj there).symm
  exact widenInstsAt (ends ▸ widenBlocksAt final blocks) split addressed

theorem notTooFar {f : Func} {edge : Edge} {label : String} {branchEnd : Int} {i : Inst}
    (same : (widenEdge f edge label branchEnd i).enc.form edge = i.enc.form edge) :
    tooFar f i edge label branchEnd = false := by
  cases far : tooFar f i edge label branchEnd with
  | false => rfl
  | true =>
    have short : i.enc.form edge = .short := by
      simp only [tooFar, Bool.and_eq_true, beq_iff_eq] at far
      exact far.1
    simp only [widenEdge, far, if_true, Encoding.formWithForm, short] at same
    cases same

theorem notTooFarBoth {f : Func} {first second : String} {condEnd instEnd : Int} {i : Inst}
    (same : widenEdge f .other second instEnd (widenEdge f .taken first condEnd i) = i) :
    tooFar f i .taken first condEnd = false ∧ tooFar f i .other second instEnd = false := by
  have kept (j : Inst) : (widenEdge f .other second instEnd j).enc.form .taken = j.enc.form .taken := by
    unfold widenEdge
    split
    · exact Encoding.formWithOther _ _ (by decide)
    · rfl
  have near := notTooFar ((kept _).symm.trans (congrArg (·.enc.form .taken) same))
  have inner : widenEdge f .taken first condEnd i = i := by
    rw [widenEdge, if_neg (by simp [near])]
  rw [inner] at same
  exact ⟨near, notTooFar (congrArg (·.enc.form .other) same)⟩

theorem fallsAt {blocks : List Block} {b : Nat} {bb : Block} {i : Inst} (falls : FallsThrough blocks)
    (found : blocks[b]? = some bb) (inside : i ∈ bb.insts) :
    Falls (blocks[b + 1]?.map Block.label) i := by
  induction blocks generalizing b with
  | nil => cases found
  | cons first rest ih =>
    cases b with
    | zero =>
      cases found
      rw [List.getElem?_cons_succ, ← List.head?_eq_getElem?]
      exact falls.1 i inside
    | succ b => exact ih falls.2 found

structure Aimed (f : Func) : Prop where
  falls : FallsThrough f.blocks
  final : Final f

theorem finalPool {f : Func} (pool : Nat) (final : Final f) :
    Final { f with constantPoolOffset := pool } := by
  generalize moved : ({ f with constantPoolOffset := pool } : Func) = g
  have same : SameHeaders f g := by
    subst moved
    exact ⟨rfl, rfl, rfl, rfl, rfl, rfl, rfl⟩
  -- branches do not look at the pool, and sizes do not depend on where it starts
  have branch (instEnd : Nat) (i : Inst) : widenBranch g instEnd i = widenBranch f instEnd i := by
    subst moved
    rfl
  have insts (offset : Nat) (insts : List Inst) :
      widenInsts g offset insts = widenInsts f offset insts := by
    induction insts generalizing offset with
    | nil => rfl
    | cons i rest ih => simp only [widenInsts, ← instructionSizeSame same, branch, ih]
  have all (offset : Nat) (blocks : List Block) :
      widenBlocks g offset blocks = widenBlocks f offset blocks := by
    induction blocks generalizing offset with
    | nil => rfl
    | cons bb rest ih => simp only [widenBlocks, ← blockSizeSame same, insts, ih]
  have blocks : g.blocks = f.blocks := by
    subst moved
    rfl
  rw [Final, all, blocks]
  exact final

end Layout

open Layout

theorem relaxBranchesAimed {limits : Limits} {f g : Func} {info : CodeInfo}
    (done : relaxBranches limits f = (g, .ok info)) : Aimed g := by
  simp only [relaxBranches] at done
  generalize relaxing : relax _ _ _ = relaxed at done
  obtain ⟨h, result⟩ := relaxed
  cases result with
  | error e => cases done
  | ok codeEnd =>
    obtain ⟨falls, final⟩ := relaxFinal relaxing (initBlocksFall f.blocks)
    simp only at done
    split at done
    · cases done
    · cases done
      exact ⟨falls, finalPool _ final⟩

def MachineInst.isBranch : MachineInst → Bool
  | jmpShort _ | jmpNear _ | jccShort .. | jccNear .. => true
  | _ => false

/-- The code of the edges of an instruction of block `b`, in order: a branch to where the block
of that label starts, or nothing if that block is laid out next. -/
inductive Exits (f : Func) (b : Nat) : Nat → List String → List Byte → Prop where
  | nil (position) : Exits f b position [] []
  | next {position label labels code} (names : f.findBlock? label = some (b + 1))
      (rest : Exits f b position labels code) : Exits f b position (label :: labels) code
  | branch {position label labels code t target} {i : MachineInst} (names : f.findBlock? label = some t)
      (starts : f.blockOffsets[t]? = some target) (isBranch : i.isBranch = true)
      (reaches : i.reaches? position = some (target : Int))
      (rest : Exits f b (position + (i.bytes position).length) labels code) :
      Exits f b position (label :: labels) (i.bytes position ++ code)

def Lower.approach (f : Func) (inst : Inst) : List Asm :=
  match inst.op with
  | .jump =>
    match f.findBlock? (inst.target 0), inst.targetArgs with
    | some t, args :: _ => parallelMove f args ((f.block t).params.map fun p => f.location p.id)
    | _, _ => []
  | .brif => testCondition f inst
  | .brIcmp => compare f inst
  | _ => []

def Lower.leave (f : Func) (inst : Inst) : List Asm :=
  match inst.op with
  | .jump => jump f (inst.enc.form .taken) (inst.target 0)
  | .brif => branch f inst .ne
  | .brIcmp => branch f inst (condOf inst.intCond)
  | _ => []

theorem branchKinds {op : Opcode} (branch : op.isBranch = true) :
    op = .jump ∨ op = .brif ∨ op = .brIcmp := by
  simpa only [Opcode.isBranch, Bool.or_eq_true, beq_iff_eq, or_assoc] using branch

theorem lowerLeaves (f : Func) {inst : Inst} (recipe : inst.enc.recipe? = some (.ofOpcode inst.op))
    (branch : inst.op.isBranch = true) :
    lowerInst f inst = Lower.approach f inst ++ Lower.leave f inst := by
  rcases branchKinds branch with op | op | op <;>
    simp only [lowerInst, recipe, op, Recipe.ofOpcode, Lower.approach, Lower.leave]
  rfl

section Exits
variable {f : Func} {b position : Nat} {label : String}

def Named (f : Func) (label : String) (target : Nat) : Prop :=
  (∃ t, f.findBlock? label = some t ∧ f.blockOffsets[t]? = some target) ∧ target < 2147483648

theorem labelOffsetNamed {target : Nat} (named : Named f label target) :
    Lower.labelOffset f label = target := by
  obtain ⟨⟨t, found, starts⟩, -⟩ := named
  simp [Lower.labelOffset, found, starts]

theorem Exits.ofBranch {labels : List String} {code : List Byte} {a : Asm} {near : Bool} {target : Nat}
    (named : Named f label target) (branch : a = .jump near target ∨ ∃ c, a = .jumpIf c near target)
    (reach : InReach near ((target : Int) - (position + a.size : Nat)))
    (rest : Exits f b (position + a.size) labels code) :
    Exits f b position (label :: labels) ((a.emission position).bytes ++ code) := by
  obtain ⟨⟨t, found, starts⟩, -⟩ := named
  obtain ⟨i, resolved, reaches, bytes⟩ := Asm.branchReaches branch reach
  have isBranch : i.isBranch = true := by
    rcases branch with rfl | ⟨c, rfl⟩ <;> cases near <;> cases resolved <;> rfl
  have size : (i.bytes position).length = a.size := bytes ▸ Asm.sizeEmission position a
  rw [bytes]
  exact .branch found starts isBranch reaches (size.symm ▸ rest)

structure Served (f : Func) (b : Nat) (form : BranchForm) (label : String) (branchEnd target : Nat) :
    Prop where
  named : Named f label target
  falls : form = .fallthrough → f.findBlock? label = some (b + 1)
  reach : form ≠ .fallthrough → InReach (form == .near) ((target : Int) - branchEnd)

theorem Served.ofNear {inst : Inst} {edge : Edge} {branchEnd target : Nat} (named : Named f label target)
    (falls : inst.enc.form edge = .fallthrough → f.findBlock? label = some (b + 1))
    (near : tooFar f inst edge label branchEnd = false) (inside : branchEnd ≤ 2147483648) :
    Served f b (inst.enc.form edge) label branchEnd target := by
  refine ⟨named, falls, fun present => ?_⟩
  obtain ⟨⟨t, found, starts⟩, below⟩ := named
  cases form : inst.enc.form edge with
  | fallthrough => exact absurd form present
  | short =>
    show fitsInt8 _ = true
    simpa [tooFar, form, found, starts] using near
  | near =>
    show -2147483648 ≤ _ ∧ _ < (2147483648 : Int)
    omega

structure Leaving (f : Func) (b instEnd : Nat) (inst : Inst) : Prop where
  recipe : inst.enc.recipe? = some (.ofOpcode inst.op)
  branch : inst.op.isBranch = true
  count : inst.targets.length = inst.op.info.successors
  named : ∀ label ∈ inst.targets, ∃ target, Named f label target
  falls : Falls (f.blocks[b + 1]?.map Block.label) inst
  follows : ∀ label, f.blocks[b + 1]?.map Block.label = some label → f.findBlock? label = some (b + 1)
  steady : widenBranch f instEnd inst = inst
  inside : instEnd ≤ 2147483648

namespace Leaving
variable {instEnd : Nat} {inst : Inst} (leaving : Leaving f b instEnd inst)
include leaving

theorem widened : (match some (Recipe.ofOpcode inst.op) with
    | some .jump => widenEdge f .taken (inst.target 0) instEnd inst
    | some .brif | some .brIcmp =>
      widenEdge f .other (inst.target 1) instEnd (widenEdge f .taken (inst.target 0)
        ((instEnd : Int) - edgeSize (inst.enc.form .other)) inst)
    | _ => inst) = inst := by
  have apart : ¬ (!inst.op.isBranch) = true := by simp [leaving.branch]
  have steady := leaving.steady
  rwa [widenBranch, if_neg apart, leaving.recipe] at steady

theorem jump (op : inst.op = .jump) : inst.targets = [inst.target 0] ∧
    ∃ target, Served f b (inst.enc.form .taken) (inst.target 0) instEnd target := by
  have steady := leaving.widened
  have falls := leaving.falls leaving.branch
  have count := leaving.count
  rw [op] at steady count
  rw [leaving.recipe, op] at falls
  obtain ⟨label, targets⟩ := List.length_eq_one_iff.mp count
  have targets : inst.targets = [inst.target 0] := by simp [Inst.target, targets]
  obtain ⟨target, named⟩ := leaving.named (inst.target 0) (by simp [targets])
  exact ⟨targets, target, .ofNear named (fun absent => leaving.follows _ (falls absent))
    (notTooFar (congrArg (·.enc.form .taken) steady)) leaving.inside⟩

theorem conditional (op : inst.op = .brif ∨ inst.op = .brIcmp) {condEnd : Nat}
    (ends : condEnd + edgeSize (inst.enc.form .other) = instEnd) :
    inst.targets = [inst.target 0, inst.target 1] ∧ inst.enc.form .taken ≠ .fallthrough ∧
      ∃ first second, Served f b (inst.enc.form .taken) (inst.target 0) condEnd first ∧
        Served f b (inst.enc.form .other) (inst.target 1) instEnd second := by
  have steady := leaving.widened
  have falls := leaving.falls leaving.branch
  have count := leaving.count
  rw [leaving.recipe] at falls
  have conditional : inst.op.info.successors = 2 ∧
      widenEdge f .other (inst.target 1) instEnd (widenEdge f .taken (inst.target 0)
        ((instEnd : Int) - edgeSize (inst.enc.form .other)) inst) = inst ∧
      inst.enc.form .taken ≠ .fallthrough ∧ (inst.enc.form .other = .fallthrough →
        f.blocks[b + 1]?.map Block.label = some (inst.target 1)) := by
    rcases op with op | op <;> rw [op] at steady falls ⊢ <;> exact ⟨rfl, steady, falls⟩
  obtain ⟨two, widened, always, falls⟩ := conditional
  have targets : inst.targets = [inst.target 0, inst.target 1] := by
    rw [two] at count
    match targets : inst.targets, count with
    | [x, y], _ => simp [Inst.target, targets]
  obtain ⟨first, named₁⟩ := leaving.named (inst.target 0) (by simp [targets])
  obtain ⟨second, named₂⟩ := leaving.named (inst.target 1) (by simp [targets])
  obtain ⟨near₁, near₂⟩ := notTooFarBoth widened
  have inside := leaving.inside
  -- the first branch ends where the second begins
  have there : (instEnd : Int) - edgeSize (inst.enc.form .other) = condEnd := by omega
  exact ⟨targets, always, first, second,
    .ofNear named₁ (fun absent => absurd absent always) (there ▸ near₁) (by omega),
    .ofNear named₂ (fun absent => leaving.follows _ (falls absent)) near₂ inside⟩

end Leaving

theorem sizesOfJump (f : Func) (form : BranchForm) (label : String) :
    Asm.sizes (Lower.jump f form label) = edgeSize form := by
  cases form <;> rfl

theorem sizeOfJump {form : BranchForm} (present : form ≠ .fallthrough) (target : Nat) :
    (Asm.jump (form == .near) target).size = edgeSize form := by
  cases form with
  | fallthrough => exact absurd rfl present
  | short => rfl
  | near => rfl

theorem lowerJump {form : BranchForm} {target : Nat} (named : Named f label target)
    (present : form ≠ .fallthrough) : Lower.jump f form label = [.jump (form == .near) target] := by
  rw [← labelOffsetNamed named]
  cases form with
  | fallthrough => exact absurd rfl present
  | short => rfl
  | near => rfl

theorem sizesOfBranch (f : Func) (inst : Inst) (cond : Cond) (target : Nat) :
    Asm.sizes (Lower.branch f inst cond) =
      (Asm.jumpIf cond (inst.enc.form .taken == .near) target).size + edgeSize (inst.enc.form .other) := by
  have size (t : Nat) : (Asm.jumpIf cond (inst.enc.form .taken == .near) t).size =
      (Asm.jumpIf cond (inst.enc.form .taken == .near) target).size := by
    cases inst.enc.form .taken == BranchForm.near <;> rfl
  rw [Lower.branch, Asm.sizesAppend, sizesOfJump, Lower.jumpIf, Asm.sizes, Asm.sizes, size, Nat.add_zero]

theorem lowerBranch {inst : Inst} {cond : Cond} {target : Nat} (named : Named f (inst.target 0) target) :
    Lower.branch f inst cond = .jumpIf cond (inst.enc.form .taken == .near) target ::
      Lower.jump f (inst.enc.form .other) (inst.target 1) := by
  rw [Lower.branch, Lower.jumpIf, labelOffsetNamed named]
  rfl

theorem jumpExits {form : BranchForm} {target : Nat}
    (served : Served f b form label (position + edgeSize form) target) :
    Exits f b position [label] (assemble position (Lower.jump f form label)).bytes := by
  by_cases falls : form = .fallthrough
  · subst falls
    exact .next (served.falls rfl) (.nil _)
  · rw [lowerJump served.named falls]
    exact .ofBranch served.named (.inl rfl) (sizeOfJump falls target ▸ served.reach falls) (.nil _)

theorem branchExits {inst : Inst} {cond : Cond} {instEnd : Nat} (leaving : Leaving f b instEnd inst)
    (op : inst.op = .brif ∨ inst.op = .brIcmp)
    (ends : position + Asm.sizes (Lower.branch f inst cond) = instEnd) :
    Exits f b position inst.targets (assemble position (Lower.branch f inst cond)).bytes := by
  rw [sizesOfBranch f inst cond 0, ← Nat.add_assoc] at ends
  obtain ⟨targets, always, first, second, served₁, served₂⟩ := leaving.conditional op ends
  have size := (sizesOfBranch f inst cond 0).symm.trans (sizesOfBranch f inst cond first)
  rw [Nat.add_right_cancel size] at ends served₁
  rw [targets, lowerBranch served₁.named, assemble, Asm.sizeEmission]
  exact .ofBranch served₁.named (.inr ⟨cond, rfl⟩) (served₁.reach always) (jumpExits (ends ▸ served₂))

theorem leaveExits {inst : Inst} {instEnd : Nat} (leaving : Leaving f b instEnd inst)
    (ends : position + Asm.sizes (Lower.leave f inst) = instEnd) :
    Exits f b position inst.targets (assemble position (Lower.leave f inst)).bytes := by
  rcases branchKinds leaving.branch with op | op | op <;> simp only [Lower.leave, op] at ends ⊢
  · obtain ⟨targets, target, served⟩ := leaving.jump op
    rw [sizesOfJump] at ends
    rw [targets]
    exact jumpExits (ends ▸ served)
  · exact branchExits leaving (.inl op) ends
  · exact branchExits leaving (.inr op) ends

end Exits

theorem leaves {f : Func} {b position : Nat} {inst : Inst}
    (leaving : Leaving f b (position + instructionSize f inst) inst) :
    ∃ code, (assemble position (lowerInst f inst)).bytes =
        (assemble position (Lower.approach f inst)).bytes ++ code ∧
      Exits f b (position + (assemble position (Lower.approach f inst)).size) inst.targets code := by
  have code := lowerLeaves f leaving.recipe leaving.branch
  have ends : position + (assemble position (Lower.approach f inst)).size + Asm.sizes (Lower.leave f inst) =
      position + instructionSize f inst := by
    rw [instructionSize, code, sizeAssemble, sizeAssemble, Asm.sizesAppend]
    omega
  rw [code, assembleAppend]
  exact ⟨_, rfl, leaveExits leaving ends⟩

section Finished
variable {f : Func} {info : CodeInfo} {bytes : List Byte} (ok : WellFormed f)
  (real : Realizes f info bytes)
include ok real

theorem blockStart {t : Nat} {bb : Block} (found : f.blocks[t]? = some bb) :
    ∃ start, f.blockOffsets[t]? = some start ∧ start ≤ f.constantPoolOffset := by
  obtain ⟨body, last, split, -⟩ := ok.ended bb (List.mem_of_getElem? found)
  obtain ⟨start, starts, room, -⟩ := real.code t bb body last [] found split
  exact ⟨start, starts, by omega⟩

theorem namedTarget (small : f.constantPoolOffset < 2147483648) {bb : Block} {inst : Inst}
    {label : String}
    (home : bb ∈ f.blocks) (inside : inst ∈ bb.insts) (listed : label ∈ inst.targets) :
    ∃ target, Named f label target := by
  have sound := ok.sound bb home inst inside
  obtain ⟨k, position⟩ := List.getElem?_of_mem listed
  have length := sound.lists (List.ne_nil_of_mem listed)
  have below := (List.getElem?_eq_some_iff.mp position).1
  obtain ⟨b, there, rfl, -⟩ := sound.edges (label, inst.targetArgs[k]) (List.mem_of_getElem?
    (List.getElem?_zip_eq_some.mpr ⟨position, List.getElem?_eq_getElem (length ▸ below)⟩))
  obtain ⟨t, found⟩ := Func.atOfMem (List.mem_of_mem_tail there)
  obtain ⟨start, starts, room⟩ := blockStart ok real found
  exact ⟨start, ⟨t, Func.findBlockAt ok.labels found, starts⟩, by omega⟩

theorem leavingBlock (fitted : Fitted f) (aimed : Aimed f) (small : f.constantPoolOffset < 2147483648)
    {b start : Nat} {bb : Block} {before after : List Inst} {inst : Inst}
    (found : f.blocks[b]? = some bb) (split : bb.insts = before ++ inst :: after)
    (starts : f.blockOffsets[b]? = some start) (branch : inst.op.isBranch = true) :
    Leaving f b (start + codeSize f before + instructionSize f inst) inst := by
  have home := List.mem_of_getElem? found
  have inside : inst ∈ bb.insts := split ▸ List.mem_append_right _ List.mem_cons_self
  obtain ⟨start', starts', room, -⟩ := real.code b bb before inst after found split
  cases starts.symm.trans starts'
  have follows (label : String) (next : f.blocks[b + 1]?.map Block.label = some label) :
      f.findBlock? label = some (b + 1) := by
    obtain ⟨nb, there, rfl⟩ := Option.map_eq_some_iff.mp next
    exact Func.findBlockAt ok.labels there
  exact ⟨(fitted inst (Func.memInsts home inside)).recipe, branch,
    (Structure.shapeIff.mp (ok.sound bb home inst inside).shape).2.2,
    fun _ listed => namedTarget ok real small home inside listed, fallsAt aimed.falls found inside, follows,
    aimed.final.steady real.starts found starts split (by unfold lastOffset; omega), by omega⟩

end Finished

theorem poolAt {constants : List (BitVec 64)} {k : Nat} {c : BitVec 64} (located : constants[k]? = some c) :
    ((constants.flatMap (littleEndian 8)).drop (8 * k)).take 8 = littleEndian 8 c := by
  induction constants generalizing k with
  | nil => cases located
  | cons first rest ih =>
    have length : (littleEndian 8 first).length = 8 := lengthLittleEndian 8 first
    cases k with
    | zero =>
      cases located
      rw [List.flatMap_cons, Nat.mul_zero, List.drop_zero, List.take_append_of_le_length (by omega),
        List.take_of_length_le (by omega)]
    | succ k =>
      rw [List.flatMap_cons, List.drop_append, List.drop_of_length_le (by omega), List.nil_append, length,
        show 8 * (k + 1) - 8 = 8 * k by omega]
      exact ih located

/-- Emitted code gets everywhere it should: the branches of block `b` to the blocks that their
labels name, and the loads of constants to the patterns of their literals. -/
structure Resolves (f : Func) (bytes : List Byte) : Prop where
  edges : ∀ (b : Nat) (bb : Block) (before : List Inst) (inst : Inst) (after : List Inst),
    f.blocks[b]? = some bb → bb.insts = before ++ inst :: after → inst.op.isBranch = true →
    ∃ start code, f.blockOffsets[b]? = some start ∧
      let position := start + codeSize f before
      let approach := (assemble position (Lower.approach f inst)).bytes
      (bytes.drop position).take (instructionSize f inst) = approach ++ code ∧
        Exits f b (position + approach.length) inst.targets code
  constants : ∀ (b : Nat) (bb : Block) (before : List Inst) (inst : Inst) (after : List Inst),
    f.blocks[b]? = some bb → bb.insts = before ++ inst :: after → inst.op = .fconst →
    ∃ start literal dst target rest, f.blockOffsets[b]? = some start ∧ inst.operands = [.float literal] ∧
      let position := start + codeSize f before
      let load := MachineInst.movsdRip dst target
      (bytes.drop position).take (instructionSize f inst) = load.bytes position ++ rest ∧
        load.reaches? position = some (target : Int) ∧
        (bytes.drop target).take 8 = littleEndian 8 literal

theorem floatConstLoads (f : Func) {inst : Inst} (recipe : inst.enc.recipe? = some .fconst) :
    ∃ dst rest, lowerInst f inst = .inst (.movsdRip dst (Lower.poolTarget f inst)) :: rest := by
  simp only [lowerInst, recipe, Lower.floatConst]
  split
  · exact ⟨_, [], rfl⟩
  · exact ⟨_, _, rfl⟩

theorem assembleInst (position : Nat) (i : MachineInst) (rest : List Asm) :
    ∃ code, (assemble position (.inst i :: rest)).bytes = i.bytes position ++ code := ⟨_, rfl⟩

theorem resolvesLayout {limit : Nat} {f : Func} {info : CodeInfo} (ok : WellFormed f) (fitted : Fitted f)
    (aimed : Aimed f) (laid : LaidOut limit f info) (small : limit < 2147483648) :
    Resolves f (emitFunction f).emitted.bytes := by
  have real := realizesLayout laid
  have total : f.constantPoolOffset + 8 * f.constants.length < 2147483648 := by
    have fits := laid.fits
    rw [laid.sizes] at fits
    exact Nat.lt_of_le_of_lt fits small
  constructor
  · intro b bb before inst after found split branch
    obtain ⟨start, starts, -, there, -⟩ := real.code b bb before inst after found split
    obtain ⟨code, same, exits⟩ :=
      leaves (leavingBlock ok real fitted aimed (by omega) found split starts branch)
    exact ⟨start, code, starts, there.trans same, exits⟩
  · intro b bb before inst after found split op
    obtain ⟨start, starts, room, there, size⟩ := real.code b bb before inst after found split
    have home := List.mem_of_getElem? found
    have inside : inst ∈ bb.insts := split ▸ List.mem_append_right _ List.mem_cons_self
    have fits := fitted inst (Func.memInsts home inside)
    obtain ⟨literal, operands, index, pooled⟩ :=
      constantPooled fits (ok.sound bb home inst inside).toFitInst op
    obtain ⟨dst, rest, code⟩ := floatConstLoads f (op ▸ fits.recipe)
    have below := (List.getElem?_eq_some_iff.mp pooled).1
    have target : Lower.poolTarget f inst = f.constantPoolOffset + 8 * inst.imm.toNat := by
      have place : (f.constantPoolOffset : Int) + slotBytes * inst.imm =
          (f.constantPoolOffset + 8 * inst.imm.toNat : Nat) := by
        simp only [slotBytes]
        omega
      rw [Lower.poolTarget, place, wrapSizeOfLt (by omega)]
    rw [code, target] at there size
    obtain ⟨after', bytes⟩ := assembleInst (start + codeSize f before)
      (.movsdRip dst (f.constantPoolOffset + 8 * inst.imm.toNat)) rest
    rw [Emission.size, bytes, List.length_append] at size
    refine ⟨start, literal, dst, f.constantPoolOffset + 8 * inst.imm.toNat, after', starts, operands,
      there.trans bytes, MachineInst.ripReaches (by omega) (by omega), ?_⟩
    rw [← List.drop_drop, real.pool]
    exact poolAt pooled

end X64

namespace Session
open X64

theorem compiledBranchesArrive (s : Session) (t : Target) (f : Func) (verified : verifyFunction f = [])
    (tidy : Tidy f) (small : t.limits.functionLimit ≤ 2147483647) (u : Session) (info : CodeInfo)
    (done : (s.setFunction f).compile t = (u, .ok info)) :
    Resolves u.func (emitFunction u.func).emitted.bytes := by
  have ends := compileEnds s t ⟨verifiedIff.mp verified, tidy⟩
  rw [done] at ends
  obtain ⟨⟨g, relaxed⟩, -⟩ := relaxedCompile done
  exact resolvesLayout ends.wellFormed ends.fitted (relaxBranchesAimed relaxed) (laidOutRelax relaxed)
    (Nat.lt_succ_of_le small)

def halfOrStop : Func :=
  { signature := { returns := [.f64] }
    blocks := [
      { label := "entry", insts := [jumpTo "check" [] {}] },
      { label := "half"
        insts := [
          { result := some 0, op := .fconst, ty := .f64, operands := [.float 0x3fe0000000000000] },
          { op := .ret, operands := [.temp 0] }] },
      { label := "check"
        insts := [
          { op := .brif, operands := [.bool true], targets := ["half", "stop"], targetArgs := [[], []] }] },
      { label := "stop", insts := [{ op := .trap }] }]
    valueTypes := [.f64] }

theorem halfOrStopArrives : verifyFunction halfOrStop = [] ∧ Tidy halfOrStop ∧
    ∃ u info, (Session.setFunction {} halfOrStop).compile { flags := { optLevel := .fastest } } =
        (u, .ok info) ∧ Resolves u.func (emitFunction u.func).emitted.bytes := by
  have verified : verifyFunction halfOrStop = [] := by decide
  have tidy : Tidy halfOrStop := by
    unfold Tidy Inst.Tidy
    decide
  obtain ⟨u, info, done⟩ := compiledOf (s := Session.setFunction {} halfOrStop)
    (t := { flags := { optLevel := .fastest } }) (by decide +kernel)
  exact ⟨verified, tidy, u, info, done, compiledBranchesArrive {} { flags := { optLevel := .fastest } }
    halfOrStop verified tidy (by decide) u info done⟩

end Session
end SsaCodegen
