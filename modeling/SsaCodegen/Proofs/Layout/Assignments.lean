import Mathlib.Data.List.Forall2
import Mathlib.Order.Bounds.Basic
import SsaCodegen.Proofs.Layout.Branches
/-! Assignments of branch forms. A choice says of each edge whether its branch is near; an edge to the block laid
out next has none. With more near branches every instruction is as long or longer, so no block comes closer to a
branch. -/
namespace SsaCodegen
namespace X64
open Layout

theorem formNumber (form : BranchForm) : form.number < 4 := by
  cases form <;> decide

theorem withFormTwice (e : Encoding) (edge : Edge) (a b : BranchForm) :
    (e.withForm edge a).withForm edge b = e.withForm edge b := by
  have small := formNumber a
  have bits : ((e.withForm edge a).withForm edge b).bits = (e.withForm edge b).bits := by
    cases edge <;> simp only [Encoding.withForm, Edge.weight] <;> omega
  exact congrArg (fun bits => { e with bits := bits }) bits

theorem withFormSwap (e : Encoding) (a b : BranchForm) :
    (e.withForm .taken a).withForm .other b = (e.withForm .other b).withForm .taken a := by
  have small := formNumber a
  have small' := formNumber b
  have bits : ((e.withForm .taken a).withForm .other b).bits = ((e.withForm .other b).withForm .taken a).bits := by
    simp only [Encoding.withForm, Edge.weight]
    omega
  exact congrArg (fun bits => { e with bits := bits }) bits

abbrev Choice : Type := Nat → Nat → Edge → Bool

def branchForm (near : Bool) : BranchForm := if near then .near else .short

def chosenForm (next : Option String) (label : String) (near : Bool) : BranchForm :=
  if next == some label then .fallthrough else branchForm near

def chooseInst (next : Option String) (near : Edge → Bool) (i : Inst) : Inst :=
  if i.op.isBranch then
    match i.enc.recipe? with
    | some .jump => { i with enc := i.enc.withForm .taken (chosenForm next (i.target 0) (near .taken)) }
    | some .brif | some .brIcmp =>
      { i with
        enc := (i.enc.withForm .taken (branchForm (near .taken))).withForm .other
          (chosenForm next (i.target 1) (near .other)) }
    | _ => i
  else i

def chooseInsts (next : Option String) : (Nat → Edge → Bool) → List Inst → List Inst
  | _, [] => []
  | near, i :: rest => chooseInst next (near 0) i :: chooseInsts next (fun k => near (k + 1)) rest

def chooseBlocks : Choice → List Block → List Block
  | _, [] => []
  | near, bb :: rest =>
    { bb with insts := chooseInsts (rest.head?.map Block.label) (near 0) bb.insts } ::
      chooseBlocks (fun b => near (b + 1)) rest

def branchEdges (i : Inst) : List (Edge × String × Nat) :=
  if i.op.isBranch then
    match i.enc.recipe? with
    | some .jump => [(.taken, i.target 0, 0)]
    | some .brif | some .brIcmp => [(.taken, i.target 0, edgeSize (i.enc.form .other)), (.other, i.target 1, 0)]
    | _ => []
  else []

inductive Decided (i : Inst) : Prop where
  | nothing (chosen : ∀ next near, chooseInst next near i = i) (edges : branchEdges i = [])
      (widened : ∀ f instEnd, widenBranch f instEnd i = i)
  | jump (branch : i.op.isBranch = true) (recipe : i.enc.recipe? = some .jump)
  | conditional (branch : i.op.isBranch = true)
      (recipe : i.enc.recipe? = some .brif ∨ i.enc.recipe? = some .brIcmp)

theorem decided (i : Inst) : Decided i := by
  cases branch : i.op.isBranch with
  | false =>
    exact .nothing (fun _ _ => by simp [chooseInst, branch]) (by simp [branchEdges, branch])
      fun _ _ => by simp [widenBranch, branch]
  | true =>
    cases recipe : i.enc.recipe? with
    | none =>
      exact .nothing (fun _ _ => by simp [chooseInst, recipe]) (by simp [branchEdges, recipe])
        fun _ _ => by simp [widenBranch, recipe]
    | some r =>
      cases r with
      | jump => exact .jump branch recipe
      | brif => exact .conditional branch (.inl recipe)
      | brIcmp => exact .conditional branch (.inr recipe)
      | _ =>
        exact .nothing (fun _ _ => by simp [chooseInst, recipe]) (by simp [branchEdges, recipe])
          fun _ _ => by simp [widenBranch, recipe]

theorem initialChosen (next : Option String) (i : Inst) : initBranch next i = chooseInst next (fun _ => false) i := by
  unfold initBranch chooseInst
  cases i.op.isBranch with
  | false => rfl
  | true =>
    simp only [Bool.not_true, if_true]
    rfl

theorem initialBlocks (blocks : List Block) : initBlocks blocks = chooseBlocks (fun _ _ _ => false) blocks := by
  induction blocks with
  | nil => rfl
  | cons bb rest ih =>
    have insts (next : Option String) (insts : List Inst) :
        insts.map (initBranch next) = chooseInsts next (fun _ _ => false) insts := by
      induction insts with
      | nil => rfl
      | cons i later ih => exact List.cons_eq_cons.mpr ⟨initialChosen next i, ih⟩
    exact List.cons_eq_cons.mpr ⟨congrArg (fun insts => { bb with insts := insts }) (insts ..), ih⟩

section Lists
variable {next : Option String}

theorem chosenInstAt (near : Nat → Edge → Bool) (insts : List Inst) (k : Nat) :
    (chooseInsts next near insts)[k]? = insts[k]?.map (chooseInst next (near k)) := by
  induction insts generalizing near k with
  | nil => rfl
  | cons i rest ih =>
    cases k with
    | zero => rfl
    | succ k => exact ih _ k

theorem lengthChosen (near : Nat → Edge → Bool) (insts : List Inst) :
    (chooseInsts next near insts).length = insts.length := by
  induction insts generalizing near with
  | nil => rfl
  | cons i rest ih => exact congrArg (· + 1) (ih _)

theorem chosenBlockAt (near : Choice) (blocks : List Block) (b : Nat) :
    (chooseBlocks near blocks)[b]? = blocks[b]?.map fun bb =>
      { bb with insts := chooseInsts (blocks[b + 1]?.map Block.label) (near b) bb.insts } := by
  induction blocks generalizing near b with
  | nil => rfl
  | cons bb rest ih =>
    cases b with
    | zero =>
      have behind : (bb :: rest)[0 + 1]? = rest.head? := List.head?_eq_getElem?.symm
      rw [behind]
      rfl
    | succ b => exact ih _ b

theorem chosenHeaders (near : Choice) (blocks : List Block) :
    (chooseBlocks near blocks).map Block.label = blocks.map Block.label ∧
      (chooseBlocks near blocks).map Block.params = blocks.map Block.params := by
  induction blocks generalizing near with
  | nil => exact ⟨rfl, rfl⟩
  | cons bb rest ih => simp [chooseBlocks, ih]

theorem chosenLength (near : Choice) (blocks : List Block) : (chooseBlocks near blocks).length = blocks.length := by
  rw [← List.length_map Block.label, (chosenHeaders near blocks).1, List.length_map]

theorem lengthFlat (near : Choice) (blocks : List Block) :
    ((chooseBlocks near blocks).flatMap Block.insts).length = (blocks.flatMap Block.insts).length := by
  induction blocks generalizing near with
  | nil => rfl
  | cons bb rest ih =>
    rw [chooseBlocks, List.flatMap_cons, List.flatMap_cons, List.length_append, List.length_append, ih, lengthChosen]

end Lists

def beyond (f : Func) (label : String) (branchEnd : Int) : Bool :=
  match (f.findBlock? label).bind (f.blockOffsets[·]?) with
  | some target => !fitsInt8 ((target : Int) - branchEnd)
  | none => false

def far (f : Func) (instEnd : Nat) (i : Inst) (edge : Edge) : Bool :=
  (branchEdges i).any fun e =>
    e.1 == edge && (i.enc.form edge == .short && beyond f e.2.1 ((instEnd : Int) - e.2.2))

def farInsts (f : Func) : Nat → List Inst → Nat → Edge → Bool
  | _, [], _, _ => false
  | offset, i :: _, 0, edge =>
    decide (offset + instructionSize f i ≤ lastOffset) && far f (offset + instructionSize f i) i edge
  | offset, i :: rest, k + 1, edge => farInsts f (offset + instructionSize f i) rest k edge

def farBlocks (f : Func) : Nat → List Block → Choice
  | _, [], _, _, _ => false
  | offset, bb :: _, 0, k, edge => farInsts f offset bb.insts k edge
  | offset, bb :: rest, b + 1, k, edge => farBlocks f (offset + blockSize f bb) rest b k edge

section Forms
variable {f : Func} {next : Option String} {near : Edge → Bool} {i : Inst}

theorem widenForm (e : Encoding) (edge : Edge) (label : String) (chosen : Bool) (branchEnd : Int) :
    widenEdge f edge label branchEnd { i with enc := e.withForm edge (chosenForm next label chosen) } =
      { i with enc := e.withForm edge (chosenForm next label
        (chosen || (chosenForm next label chosen == .short && beyond f label branchEnd))) } := by
  unfold widenEdge
  rw [show tooFar f { i with enc := e.withForm edge (chosenForm next label chosen) } edge label branchEnd =
    ((e.withForm edge (chosenForm next label chosen)).form edge == .short && beyond f label branchEnd) from rfl,
    Encoding.formWithForm]
  cases far : chosenForm next label chosen == .short && beyond f label branchEnd with
  | false => rw [if_neg Bool.false_ne_true, Bool.or_false]
  | true =>
    have short : chosenForm next label chosen = .short := beq_iff_eq.mp (Bool.and_eq_true_iff.mp far).1
    have apart : (next == some label) = false := by
      by_contra falls
      rw [chosenForm, if_pos (Bool.not_eq_false _ ▸ falls)] at short
      cases short
    have widened : chosenForm next label true = .near := by
      rw [chosenForm, apart]
      rfl
    rw [if_pos rfl, withFormTwice, Bool.or_true, widened]

theorem chosenAlways (label : String) (chosen : Bool) : chosenForm none label chosen = branchForm chosen := rfl

theorem widenConditional (e : Encoding) (first second : String) (condEnd instEnd : Int) (a b : Bool) :
    widenEdge f .other second instEnd (widenEdge f .taken first condEnd
      { i with enc := (e.withForm .taken (branchForm a)).withForm .other (chosenForm next second b) }) =
      let first := branchForm (a || (branchForm a == .short && beyond f first condEnd))
      let second := chosenForm next second (b || (chosenForm next second b == .short && beyond f second instEnd))
      { i with enc := (e.withForm .taken first).withForm .other second } := by
  rw [withFormSwap, ← chosenAlways first a, widenForm, ← withFormSwap, widenForm]
  rfl

section Branches
variable (branch : i.op.isBranch = true)
include branch

theorem chosenJump (recipe : i.enc.recipe? = some .jump) (next : Option String) (near : Edge → Bool) :
    let j := chooseInst next near i
    let form := chosenForm next (i.target 0) (near .taken)
    j = { i with enc := i.enc.withForm .taken form } ∧ j.enc.form .taken = form ∧
      branchEdges j = [(.taken, i.target 0, 0)] := by
  have chosen : chooseInst next near i =
      { i with enc := i.enc.withForm .taken (chosenForm next (i.target 0) (near .taken)) } := by
    rw [chooseInst, if_pos branch, recipe]
  rw [chosen]
  refine ⟨rfl, Encoding.formWithForm .., ?_⟩
  rw [branchEdges, if_pos branch, recipeWithForm, recipe]
  rfl

theorem chosenConditional (recipe : i.enc.recipe? = some .brif ∨ i.enc.recipe? = some .brIcmp)
    (next : Option String) (near : Edge → Bool) :
    let j := chooseInst next near i
    let first := branchForm (near .taken)
    let second := chosenForm next (i.target 1) (near .other)
    j = { i with enc := (i.enc.withForm .taken first).withForm .other second } ∧
      j.enc.form .taken = first ∧ j.enc.form .other = second ∧
      branchEdges j = [(.taken, i.target 0, edgeSize second), (.other, i.target 1, 0)] := by
  have chosen : chooseInst next near i =
      let first := branchForm (near .taken)
      { i with enc := (i.enc.withForm .taken first).withForm .other (chosenForm next (i.target 1) (near .other)) } := by
    rw [chooseInst, if_pos branch]
    rcases recipe with recipe | recipe <;> rw [recipe]
  have other := Encoding.formWithForm (i.enc.withForm .taken (branchForm (near .taken))) .other
    (chosenForm next (i.target 1) (near .other))
  rw [chosen]
  refine ⟨rfl, ?_, other, ?_⟩
  · exact (Encoding.formWithOther _ _ (by decide)).trans (Encoding.formWithForm ..)
  · rw [branchEdges, if_pos branch, recipeWithForm, recipeWithForm]
    dsimp only
    rw [other]
    rcases recipe with recipe | recipe <;> rw [recipe] <;> rfl

end Branches

theorem widenChosen (instEnd : Nat) : widenBranch f instEnd (chooseInst next near i) =
    chooseInst next (fun edge => near edge || far f instEnd (chooseInst next near i) edge) i := by
  cases decided i with
  | nothing chosen edges widened => rw [chosen, chosen, widened]
  | jump branch recipe =>
    obtain ⟨chosen, form, edges⟩ := chosenJump branch recipe next near
    have wide : chooseInst next (fun edge => near edge || far f instEnd (chooseInst next near i) edge) i =
        { i with enc := i.enc.withForm .taken (chosenForm next (i.target 0)
          (near .taken || far f instEnd (chooseInst next near i) .taken)) } := (chosenJump branch recipe _ _).1
    have reach : far f instEnd (chooseInst next near i) .taken =
        (chosenForm next (i.target 0) (near .taken) == .short && beyond f (i.target 0) instEnd) := by
      simp [far, edges, form]
    rw [wide, reach, chosen, widenBranch, if_neg (by simp [branch]), recipeWithForm, recipe]
    exact widenForm ..
  | conditional branch recipe =>
    obtain ⟨chosen, first, second, edges⟩ := chosenConditional branch recipe next near
    have wide : chooseInst next (fun edge => near edge || far f instEnd (chooseInst next near i) edge) i =
        let first := branchForm (near .taken || far f instEnd (chooseInst next near i) .taken)
        let second := chosenForm next (i.target 1) (near .other || far f instEnd (chooseInst next near i) .other)
        { i with enc := (i.enc.withForm .taken first).withForm .other second } :=
      (chosenConditional branch recipe _ _).1
    have taken : far f instEnd (chooseInst next near i) .taken = (branchForm (near .taken) == .short &&
        beyond f (i.target 0) ((instEnd : Int) - edgeSize (chosenForm next (i.target 1) (near .other)))) := by
      simp [far, edges, first]
    have other : far f instEnd (chooseInst next near i) .other =
        (chosenForm next (i.target 1) (near .other) == .short && beyond f (i.target 1) instEnd) := by
      simp [far, edges, second]
    rw [wide, taken, other, chosen, widenBranch, if_neg (by simp [branch])]
    rcases recipe with recipe | recipe
    all_goals
      rw [recipeWithForm, recipeWithForm, recipe]
      dsimp only
      rw [Encoding.formWithForm]
      exact widenConditional ..

theorem widenInstsChosen (offset : Nat) (near : Nat → Edge → Bool) (insts : List Inst) :
    widenInsts f offset (chooseInsts next near insts) = chooseInsts next
      (fun k edge => near k edge || farInsts f offset (chooseInsts next near insts) k edge) insts := by
  induction insts generalizing offset near with
  | nil => rfl
  | cons i rest ih =>
    refine List.cons_eq_cons.mpr ⟨?_, ih _ _⟩
    by_cases addressed : offset + instructionSize f (chooseInst next (near 0) i) ≤ lastOffset
    · simpa only [chooseInsts, farInsts, addressed, if_true, decide_true, Bool.true_and] using widenChosen _
    · simp only [chooseInsts, farInsts, addressed, if_false, decide_false, Bool.false_and, Bool.or_false]

theorem widenBlocksChosen (offset : Nat) (near : Choice) (blocks : List Block) :
    widenBlocks f offset (chooseBlocks near blocks) = chooseBlocks
      (fun b k edge => near b k edge || farBlocks f offset (chooseBlocks near blocks) b k edge) blocks := by
  induction blocks generalizing offset near with
  | nil => rfl
  | cons bb rest ih =>
    refine List.cons_eq_cons.mpr ⟨?_, ih _ _⟩
    rw [widenInstsChosen]
    rfl

end Forms

section Sizes
variable {f : Func} {next : Option String} {i : Inst}

theorem compactWithForm (e : Encoding) (edge : Edge) (form : BranchForm) :
    (e.withForm edge form).isCompact = e.isCompact := by
  have bits : (e.withForm edge form).bits % 2 = e.bits % 2 := by
    cases edge <;> simp only [Encoding.withForm, Edge.weight] <;> omega
  rw [Encoding.isCompact, bits]
  rfl

def conditionalSize (form : BranchForm) : Nat := if form == .near then 6 else 2

theorem jumpIfSize (cond : Cond) (form : BranchForm) (target : Nat) :
    (Asm.jumpIf cond (form == .near) target).size = conditionalSize form := by
  unfold conditionalSize
  cases form == BranchForm.near <;> rfl

theorem instructionSizes (f : Func) (i : Inst) : instructionSize f i = Asm.sizes (lowerInst f i) := sizeAssemble ..

theorem jumpSize (recipe : i.enc.recipe? = some .jump) : ∃ body, ∀ form,
    instructionSize f { i with enc := i.enc.withForm .taken form } = body + edgeSize form := by
  refine ⟨instructionSize f { i with enc := i.enc.withForm .taken .fallthrough }, fun form => ?_⟩
  rw [instructionSizes, instructionSizes, lowerInst, lowerInst, recipeWithForm, recipeWithForm, recipe]
  dsimp only
  rw [Lower.jumpInst, Lower.jumpInst, Asm.sizesAppend, Asm.sizesAppend, sizesOfJump, sizesOfJump,
    Encoding.formWithForm, Encoding.formWithForm]
  rfl

theorem conditionalSizes (recipe : i.enc.recipe? = some .brif ∨ i.enc.recipe? = some .brIcmp) : ∃ body, ∀ a b,
    instructionSize f { i with enc := (i.enc.withForm .taken a).withForm .other b } =
      body + conditionalSize a + edgeSize b := by
  have branch (a b : BranchForm) (cond : Cond) :
      Asm.sizes (Lower.branch f { i with enc := (i.enc.withForm .taken a).withForm .other b } cond) =
        conditionalSize a + edgeSize b := by
    rw [sizesOfBranch f _ cond 0, Encoding.formWithForm, Encoding.formWithOther _ _ (by decide),
      Encoding.formWithForm, jumpIfSize]
  have compares (a b : BranchForm) : Lower.compare f { i with enc := (i.enc.withForm .taken a).withForm .other b } =
      Lower.compare f i := by
    have short (imm : BitVec 32) :
        Lower.shortImm { i with enc := (i.enc.withForm .taken a).withForm .other b } imm = Lower.shortImm i imm := by
      rw [Lower.shortImm, compactWithForm, compactWithForm]
      rfl
    simp only [Lower.compare, short]
    rfl
  rcases recipe with recipe | recipe
  · refine ⟨Asm.sizes (Lower.testCondition f i), fun a b => ?_⟩
    rw [instructionSizes, lowerInst, recipeWithForm, recipeWithForm, recipe]
    dsimp only
    rw [Asm.sizesAppend, branch, Nat.add_assoc]
    rfl
  · refine ⟨Asm.sizes (Lower.compare f i), fun a b => ?_⟩
    rw [instructionSizes, lowerInst, recipeWithForm, recipeWithForm, recipe]
    dsimp only
    rw [Asm.sizesAppend, branch, compares, Nat.add_assoc]

theorem conditionalSizeNear {a b : Bool} (more : a ≤ b) :
    conditionalSize (branchForm a) ≤ conditionalSize (branchForm b) := by
  cases a <;> cases b
  · exact Nat.le_refl _
  · show 2 ≤ 6
    omega
  · exact absurd more (by decide)
  · exact Nat.le_refl _

theorem edgeSizeNear (next : Option String) (label : String) {a b : Bool} (more : a ≤ b) :
    edgeSize (chosenForm next label a) ≤ edgeSize (chosenForm next label b) := by
  unfold chosenForm
  split
  · exact Nat.le_refl _
  · cases a <;> cases b
    · exact Nat.le_refl _
    · show 2 ≤ 5
      omega
    · exact absurd more (by decide)
    · exact Nat.le_refl _

structure Stretched (f : Func) (i j : Inst) : Prop where
  size : instructionSize f i ≤ instructionSize f j
  edges : ∀ edge label behind, (edge, label, behind) ∈ branchEdges i → behind ≤ instructionSize f i ∧
    ∃ behind', (edge, label, behind') ∈ branchEdges j ∧ behind ≤ behind' ∧
      instructionSize f i + behind' ≤ instructionSize f j + behind

theorem chosenStretched (next : Option String) (i : Inst) {near more : Edge → Bool} (le : near ≤ more) :
    Stretched f (chooseInst next near i) (chooseInst next more i) := by
  cases decided i with
  | nothing chosen edges =>
    rw [chosen, chosen]
    exact ⟨Nat.le_refl _, fun _ _ _ listed => nomatch edges ▸ listed⟩
  | jump branch recipe =>
    obtain ⟨body, sizes⟩ := jumpSize (f := f) recipe
    obtain ⟨chosen, -, edges⟩ := chosenJump branch recipe next near
    obtain ⟨chosen', -, edges'⟩ := chosenJump branch recipe next more
    have form := edgeSizeNear next (i.target 0) (le .taken)
    have size := (congrArg (instructionSize f) chosen).trans (sizes _)
    have size' := (congrArg (instructionSize f) chosen').trans (sizes _)
    refine ⟨by omega, fun edge label behind listed => ?_⟩
    rw [edges] at listed
    cases List.mem_singleton.mp listed
    exact ⟨Nat.zero_le _, _, edges' ▸ List.mem_cons_self, Nat.le_refl _, by omega⟩
  | conditional branch recipe =>
    obtain ⟨body, sizes⟩ := conditionalSizes (f := f) recipe
    obtain ⟨chosen, -, -, edges⟩ := chosenConditional branch recipe next near
    obtain ⟨chosen', -, -, edges'⟩ := chosenConditional branch recipe next more
    have first := conditionalSizeNear (le .taken)
    have second := edgeSizeNear next (i.target 1) (le .other)
    have size := (congrArg (instructionSize f) chosen).trans (sizes _ _)
    have size' := (congrArg (instructionSize f) chosen').trans (sizes _ _)
    refine ⟨by omega, fun edge label behind listed => ?_⟩
    rw [edges] at listed
    rw [edges']
    rcases List.mem_pair.mp listed with taken | other
    · cases taken
      exact ⟨by omega, _, List.mem_cons_self, second, by omega⟩
    · cases other
      exact ⟨Nat.zero_le _, _, List.mem_cons_of_mem _ List.mem_cons_self, Nat.le_refl _, by omega⟩

theorem chosenForms {label : String} {a : Bool} (short : chosenForm next label a = .short) (b : Bool) :
    chosenForm next label b = branchForm b := by
  unfold chosenForm at short ⊢
  split at short
  · cases short
  · rename_i apart
    exact if_neg apart

theorem chosenOpen {near : Edge → Bool} {edge : Edge} {label : String} {behind : Nat}
    (listed : (edge, label, behind) ∈ branchEdges (chooseInst next near i))
    (short : (chooseInst next near i).enc.form edge = .short) (more : Edge → Bool) :
    (chooseInst next more i).enc.form edge = branchForm (more edge) := by
  cases decided i with
  | nothing chosen edges =>
    rw [chosen, edges] at listed
    cases listed
  | jump branch recipe =>
    obtain ⟨-, form, edges⟩ := chosenJump branch recipe next near
    rw [edges] at listed
    cases List.mem_singleton.mp listed
    exact (chosenJump branch recipe _ _).2.1.trans (chosenForms (form.symm.trans short) _)
  | conditional branch recipe =>
    obtain ⟨-, -, second, edges⟩ := chosenConditional branch recipe next near
    obtain ⟨-, first', second', -⟩ := chosenConditional branch recipe next more
    rw [edges] at listed
    rcases List.mem_pair.mp listed with taken | other
    · cases taken
      exact first'
    · cases other
      exact second'.trans (chosenForms (second.symm.trans short) _)

end Sizes

def shortEdges (i : Inst) : Nat := (branchEdges i).countP fun e => i.enc.form e.1 == .short

def shorts : List Inst → Nat
  | [] => 0
  | i :: rest => shortEdges i + shorts rest

def isShort (form : BranchForm) : Nat := if form == .short then 1 else 0

theorem isShortNear (next : Option String) (label : String) {a b : Bool} (more : a ≤ b) :
    isShort (chosenForm next label b) ≤ isShort (chosenForm next label a) ∧
      (isShort (chosenForm next label a) ≤ isShort (chosenForm next label b) →
        chosenForm next label b = chosenForm next label a) := by
  unfold chosenForm
  split
  · exact ⟨Nat.le_refl _, fun _ => rfl⟩
  · revert more
    cases a <;> cases b <;> decide

theorem chosenShorts (next : Option String) (i : Inst) {near more : Edge → Bool} (le : near ≤ more) :
    shortEdges (chooseInst next more i) ≤ shortEdges (chooseInst next near i) ∧
      (shortEdges (chooseInst next near i) ≤ shortEdges (chooseInst next more i) →
        chooseInst next more i = chooseInst next near i) := by
  cases decided i with
  | nothing chosen =>
    rw [chosen, chosen]
    exact ⟨Nat.le_refl _, fun _ => rfl⟩
  | jump branch recipe =>
    have count (c : Edge → Bool) :
        shortEdges (chooseInst next c i) = isShort (chosenForm next (i.target 0) (c .taken)) := by
      obtain ⟨-, form, edges⟩ := chosenJump branch recipe next c
      rw [shortEdges, edges, List.countP_singleton, form]
      rfl
    obtain ⟨fewer, same⟩ := isShortNear next (i.target 0) (le .taken)
    rw [count, count]
    refine ⟨fewer, fun no_fewer => ?_⟩
    rw [(chosenJump branch recipe _ _).1, (chosenJump branch recipe _ _).1, same no_fewer]
  | conditional branch recipe =>
    have count (c : Edge → Bool) : shortEdges (chooseInst next c i) =
        isShort (chosenForm none (i.target 0) (c .taken)) + isShort (chosenForm next (i.target 1) (c .other)) := by
      obtain ⟨-, first, second, edges⟩ := chosenConditional branch recipe next c
      rw [shortEdges, edges, List.countP_cons, List.countP_singleton, first, second, Nat.add_comm]
      rfl
    obtain ⟨fewer₁, same₁⟩ := isShortNear none (i.target 0) (le .taken)
    obtain ⟨fewer₂, same₂⟩ := isShortNear next (i.target 1) (le .other)
    rw [count, count]
    refine ⟨Nat.add_le_add fewer₁ fewer₂, fun no_fewer => ?_⟩
    rw [(chosenConditional branch recipe _ _).1, (chosenConditional branch recipe _ _).1, same₂ (by omega),
      ← chosenAlways (i.target 0), same₁ (by omega), chosenAlways]

theorem shortEdgesTwo (i : Inst) : shortEdges i ≤ 2 := by
  refine (List.countP_le_length ..).trans ?_
  unfold branchEdges
  split
  · split <;> simp
  · exact Nat.zero_le 2

theorem shortsTwice (insts : List Inst) : shorts insts ≤ 2 * insts.length := by
  induction insts with
  | nil => exact Nat.zero_le _
  | cons i rest ih =>
    have two := shortEdgesTwo i
    rw [shorts, List.length_cons]
    omega

theorem shortsAppend (a b : List Inst) : shorts (a ++ b) = shorts a + shorts b := by
  induction a with
  | nil => exact (Nat.zero_add _).symm
  | cons i rest ih => rw [List.cons_append, shorts, ih, shorts, Nat.add_assoc]

theorem chosenInstsShorts (next : Option String) {near more : Nat → Edge → Bool} (le : near ≤ more)
    (insts : List Inst) :
    shorts (chooseInsts next more insts) ≤ shorts (chooseInsts next near insts) ∧
      (shorts (chooseInsts next near insts) ≤ shorts (chooseInsts next more insts) →
        chooseInsts next more insts = chooseInsts next near insts) := by
  induction insts generalizing near more with
  | nil => exact ⟨Nat.le_refl _, fun _ => rfl⟩
  | cons i rest ih =>
    have sum (c : Nat → Edge → Bool) : shorts (chooseInsts next c (i :: rest)) =
        shortEdges (chooseInst next (c 0) i) + shorts (chooseInsts next (fun k => c (k + 1)) rest) := rfl
    obtain ⟨fewer, same⟩ := chosenShorts next i (le 0)
    have others : (fun k => near (k + 1)) ≤ fun k => more (k + 1) := fun k => le (k + 1)
    obtain ⟨later, sames⟩ := ih others
    rw [sum, sum]
    refine ⟨Nat.add_le_add fewer later, fun no_fewer => ?_⟩
    rw [chooseInsts, chooseInsts, same (by omega), sames (by omega)]

theorem chosenBlocksShorts {near more : Choice} (le : near ≤ more) (blocks : List Block) :
    shorts ((chooseBlocks more blocks).flatMap Block.insts) ≤
        shorts ((chooseBlocks near blocks).flatMap Block.insts) ∧
      (shorts ((chooseBlocks near blocks).flatMap Block.insts) ≤
          shorts ((chooseBlocks more blocks).flatMap Block.insts) →
        chooseBlocks more blocks = chooseBlocks near blocks) := by
  induction blocks generalizing near more with
  | nil => exact ⟨Nat.le_refl _, fun _ => rfl⟩
  | cons bb rest ih =>
    have sum (c : Choice) : shorts ((chooseBlocks c (bb :: rest)).flatMap Block.insts) =
        shorts (chooseInsts (rest.head?.map Block.label) (c 0) bb.insts) +
          shorts ((chooseBlocks (fun b => c (b + 1)) rest).flatMap Block.insts) := shortsAppend ..
    obtain ⟨fewer, same⟩ := chosenInstsShorts (rest.head?.map Block.label) (le 0) bb.insts
    have others : (fun b => near (b + 1)) ≤ fun b => more (b + 1) := fun b => le (b + 1)
    obtain ⟨later, sames⟩ := ih others
    rw [sum, sum]
    refine ⟨Nat.add_le_add fewer later, fun no_fewer => ?_⟩
    rw [chooseBlocks, chooseBlocks, same (by omega), sames (by omega)]

end X64
end SsaCodegen
