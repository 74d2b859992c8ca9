import SsaCodegen.Proofs.Layout.Least
/-! Compact encodings. The compact form of an instruction is no longer than its other form, and it has the same
branches. So what reached its block before shrinking reaches it afterwards, and the least layout is no larger. -/
namespace SsaCodegen
namespace X64
open Layout

def compactInst (i : Inst) : Inst := { i with enc := i.enc.makeCompact }

section Encodings
variable {e : Encoding}

theorem compactStays (compact : e.isCompact = true) : e.makeCompact = e := if_pos compact

theorem compactBits (long : e.isCompact = false) :
    e.makeCompact = { e with bits := e.bits + 1 } ∧ e.bits % 2 = 0 := by
  refine ⟨if_neg (ne_true_of_eq_false long), ?_⟩
  have odd : ¬ e.bits % 2 = 1 := by simpa [Encoding.isCompact] using long
  omega

theorem compactRecipe (e : Encoding) : e.makeCompact.recipe? = e.recipe? := by
  unfold Encoding.makeCompact
  split <;> rfl

theorem compactForm (e : Encoding) (edge : Edge) : e.makeCompact.form edge = e.form edge := by
  cases kept : e.isCompact with
  | true => rw [compactStays kept]
  | false =>
    obtain ⟨compact, even⟩ := compactBits kept
    have bits : (e.bits + 1) / edge.weight = e.bits / edge.weight := by
      cases edge <;> simp only [Edge.weight] <;> omega
    rw [compact, Encoding.form, Encoding.form, bits]

theorem compactThenForm (e : Encoding) (edge : Edge) (form : BranchForm) :
    (e.withForm edge form).makeCompact = e.makeCompact.withForm edge form := by
  cases kept : e.isCompact with
  | true => rw [compactStays kept, compactStays ((compactWithForm e edge form).trans kept)]
  | false =>
    obtain ⟨compact, even⟩ := compactBits kept
    rw [compact, (compactBits ((compactWithForm e edge form).trans kept)).1]
    refine congrArg (fun bits => { e with bits := bits }) ?_
    cases edge <;> simp only [Encoding.withForm, Edge.weight] <;> omega

end Encodings

section Sizes
variable {f : Func} {i : Inst}

theorem immediateShorter (short : Bool) (imm : BitVec 32) :
    (Encode.immediate short imm).length ≤ (Encode.immediate false imm).length := by
  cases short <;> simp [Encode.immediate, lengthLittleEndian]

theorem secondShorter {wide : Bool} {onImm onImm' : BitVec 32 → MachineInst} (onReg : MachineInst)
    (shorter : ∀ imm, ((onImm' imm).bytes 0).length ≤ ((onImm imm).bytes 0).length) :
    Asm.sizes (Lower.withSecond f (compactInst i) wide onImm' onReg) ≤
      Asm.sizes (Lower.withSecond f i wide onImm onReg) := by
  unfold Lower.withSecond
  rw [show immOperand? (compactInst i) 1 wide = immOperand? i 1 wide from rfl]
  cases immOperand? i 1 wide with
  | none => exact Nat.le_refl _
  | some imm => exact Nat.add_le_add_right (shorter imm) 0

theorem aluImmShorter (op : AluOp) (dst : Gpr) (imm : BitVec 32) (wide short : Bool) :
    ((MachineInst.aluImm op dst imm wide short).bytes 0).length ≤
      ((MachineInst.aluImm op dst imm wide false).bytes 0).length := by
  have shorter := immediateShorter short imm
  simp only [MachineInst.bytes, List.length_append, Encode.opcode, List.length_map, List.length_singleton]
  omega

theorem imulImmShorter (dst src : Gpr) (imm : BitVec 32) (wide short : Bool) :
    ((MachineInst.imulImm dst src imm wide short).bytes 0).length ≤
      ((MachineInst.imulImm dst src imm wide false).bytes 0).length := by
  have shorter := immediateShorter short imm
  simp only [MachineInst.bytes, List.length_append, Encode.opcode, List.length_map, List.length_singleton]
  omega

theorem rexWide (reg rm : Fin 16) : (Encode.rex true reg rm).length = 1 := by
  have wide : Encode.rexByte true (isExtended reg) (isExtended rm) ≠ 64 := by
    simp only [Encode.rexByte, Encode.bit, if_true]
    omega
  simp [Encode.rex, wide]

theorem movImm64Size (dst : Gpr) (word : BitVec 64) : (Asm.inst (.movImm64 dst word)).size = 10 := by
  simp [Asm.size, Asm.emission, Asm.resolve, MachineInst.emission, Emission.size, MachineInst.bytes, Encode.rexRm,
    rexWide, Encode.opcode, lengthLittleEndian]

theorem materializeSize (dst : Nat) (word : BitVec 64) (wide : Bool) :
    (Lower.materialize dst word wide).size ≤ 10 := by
  have head := Encode.lengthRex false Encode.noReg (gprOf dst)
  unfold Lower.materialize
  split
  · simp only [Asm.size, Asm.emission, Asm.resolve, MachineInst.emission, Emission.size, MachineInst.bytes,
      Encode.rexRm, List.length_append, Encode.opcode, List.length_map, List.length_singleton, lengthLittleEndian]
    omega
  · split
    · simp [Asm.size, Asm.emission, Asm.resolve, MachineInst.emission, Emission.size, MachineInst.bytes,
        Encode.rexRm, rexWide, Encode.opcode, Encode.modrmExt, lengthLittleEndian]
    · exact Nat.le_of_eq (movImm64Size ..)

theorem zeroedSize (dst : Gpr) : (Asm.inst (.alu .xor dst dst false)).size ≤ 10 := by
  have head := Encode.lengthRex false dst dst
  simp only [Asm.size, Asm.emission, Asm.resolve, MachineInst.emission, Emission.size, MachineInst.bytes,
    Encode.modrmReg, List.length_append, Encode.opcode, List.length_map, List.length_singleton]
  omega

theorem storedSize (disp : BitVec 32) (imm : BitVec 32) (word : BitVec 64) :
    (Asm.inst (.storeImm32 (gprOf rbp) disp imm)).size ≤
      (Asm.inst (.movImm64 (gprOf rax) word)).size + (Asm.inst (.store (gprOf rbp) disp (regOf rax) .qword)).size := by
  have same (a b : Nat) : (Encode.modrmMem a (gprOf rbp) disp).length =
    (Encode.modrmMem b (gprOf rbp) disp).length := by
    simp [Encode.modrmMem]
  have operand := same 0 (low (regOf rax).code)
  rw [movImm64Size]
  simp only [Asm.size, Asm.emission, Asm.resolve, MachineInst.emission, Emission.size, MachineInst.bytes,
    Encode.rexRm, List.length_append, rexWide, Encode.opcode, List.length_map, List.length_singleton,
    lengthLittleEndian, operand]
  omega

theorem constantShorter (word : BitVec 64) (wide : Bool) (long : i.enc.isCompact = false) :
    Asm.sizes (Lower.intConst f (compactInst i) word wide) ≤ Asm.sizes (Lower.intConst f i word wide) := by
  have compact : (compactInst i).enc.isCompact = true := Encoding.compactMakeCompact _
  unfold Lower.intConst
  rw [show Lower.resultLocation f (compactInst i) = Lower.resultLocation f i from rfl, compact, long]
  cases Lower.resultLocation f i with
  | unassigned => exact Nat.le_refl _
  | reg n =>
    have whole : Asm.sizes [.inst (.movImm64 (gprOf n) word)] = 10 := movImm64Size ..
    simp only [Bool.not_true, Bool.false_eq_true, if_false, Bool.not_false, if_true, whole]
    split
    · exact zeroedSize _
    · exact materializeSize ..
  | slot s =>
    simp only [Bool.true_and, Bool.false_and, Bool.false_eq_true, if_false]
    split
    · exact storedSize ..
    · exact Nat.le_refl _

theorem compareShorter (long : i.enc.isCompact = false) :
    Asm.sizes (Lower.compare f (compactInst i)) ≤ Asm.sizes (Lower.compare f i) := by
  have whole (imm : BitVec 32) : Lower.shortImm i imm = false := by rw [Lower.shortImm, long, Bool.false_and]
  unfold Lower.compare
  rw [Asm.sizesAppend, Asm.sizesAppend]
  simp only [whole]
  exact Nat.add_le_add_left (secondShorter _ fun imm => aluImmShorter ..) _

theorem compactShorter (f : Func) (i : Inst) : instructionSize f (compactInst i) ≤ instructionSize f i := by
  cases long : i.enc.isCompact with
  | true =>
    have same : compactInst i = i := congrArg (fun enc => { i with enc := enc }) (compactStays long)
    rw [same]
  | false =>
    have whole (imm : BitVec 32) : Lower.shortImm i imm = false := by rw [Lower.shortImm, long, Bool.false_and]
    have form (edge : Edge) : (compactInst i).enc.form edge = i.enc.form edge := compactForm ..
    rw [instructionSizes, instructionSizes, lowerInst, lowerInst,
      show (compactInst i).enc.recipe? = i.enc.recipe? from compactRecipe _]
    cases i.enc.recipe? with
    | none => exact Nat.le_refl _
    | some recipe =>
      cases recipe with
      | iconst => exact constantShorter _ _ long
      | bconst => exact constantShorter _ _ long
      | alu =>
        simp only [Lower.alu, Asm.sizesAppend, whole]
        exact Nat.add_le_add_right (Nat.add_le_add_left (secondShorter _ fun imm => aluImmShorter ..) _) _
      | imul =>
        simp only [Lower.imul, Asm.sizesAppend, whole]
        exact Nat.add_le_add_right (Nat.add_le_add_left (secondShorter _ fun imm => imulImmShorter ..) _) _
      | icmp =>
        simp only [Lower.icmp, Asm.sizesAppend]
        exact Nat.add_le_add_right (Nat.add_le_add_right (compareShorter long) _) _
      | jump =>
        simp only [Lower.jumpInst, form]
        exact Nat.le_refl _
      | brif =>
        simp only [Lower.branch, form]
        exact Nat.le_refl _
      | brIcmp =>
        simp only [Lower.branch, form, Asm.sizesAppend]
        exact Nat.add_le_add_right (compareShorter long) _
      | _ => exact Nat.le_refl _

end Sizes

section Chosen
variable {next : Option String} {near : Edge → Bool} {i j : Inst}

theorem compactChosen (next : Option String) (near : Edge → Bool) (i : Inst) :
    chooseInst next near (compactInst i) = compactInst (chooseInst next near i) := by
  unfold chooseInst
  rw [show (compactInst i).op = i.op from rfl, show (compactInst i).enc.recipe? = i.enc.recipe? from compactRecipe _]
  split
  · split <;> simp only [compactInst, Inst.target, compactThenForm]
  · rfl

theorem compactEdges (i : Inst) : branchEdges (compactInst i) = branchEdges i := by
  unfold branchEdges
  rw [show (compactInst i).enc.recipe? = i.enc.recipe? from compactRecipe _,
    show (compactInst i).enc.form .other = i.enc.form .other from compactForm ..]
  rfl

def SetsCompact (i j : Inst) : Prop :=
  j = i ∨ i.enc.isCompact = false ∧ j = { i with enc := { i.enc with bits := i.enc.bits + 1 } }

theorem SetsCompact.compacted (sets : SetsCompact i j) : j = i ∨ j = compactInst i := by
  rcases sets with same | ⟨long, rfl⟩
  · exact .inl same
  · exact .inr (congrArg (fun enc => { i with enc := enc }) (compactBits long).1.symm)

theorem SetsCompact.size (f : Func) (sets : SetsCompact i j) : instructionSize f j ≤ instructionSize f i := by
  rcases sets.compacted with rfl | rfl
  · exact Nat.le_refl _
  · exact compactShorter f i

theorem SetsCompact.chosen (next : Option String) (near : Edge → Bool) (sets : SetsCompact i j) :
    chooseInst next near j = chooseInst next near i ∨
      chooseInst next near j = compactInst (chooseInst next near i) := by
  rcases sets.compacted with rfl | rfl
  · exact .inl rfl
  · exact .inr (compactChosen ..)

theorem SetsCompact.forms (sets : SetsCompact i j) (edge : Edge) :
    (chooseInst next near j).enc.form edge = (chooseInst next near i).enc.form edge := by
  rcases sets.chosen next near with same | same
  · rw [same]
  · rw [same]
    exact compactForm ..

theorem SetsCompact.edges (sets : SetsCompact i j) :
    branchEdges (chooseInst next near j) = branchEdges (chooseInst next near i) := by
  rcases sets.chosen next near with same | same
  · rw [same]
  · rw [same]
    exact compactEdges _

theorem SetsCompact.stretched (f : Func) (next : Option String) (near : Edge → Bool) (sets : SetsCompact i j) :
    Stretched f (chooseInst next near j) (chooseInst next near i) := by
  have size : instructionSize f (chooseInst next near j) ≤ instructionSize f (chooseInst next near i) := by
    rcases sets.chosen next near with same | same
    · rw [same]
    · rw [same]
      exact compactShorter ..
  refine ⟨size, fun edge label behind listed => ?_⟩
  have inside := ((chosenStretched (f := f) next j (le_refl near)).edges edge label behind listed).1
  exact ⟨inside, behind, sets.edges ▸ listed, Nat.le_refl _, Nat.add_le_add_right size behind⟩

theorem chosenWider {more : Edge → Bool} (le : near ≤ more) (edge : Edge) :
    ((chooseInst next near i).enc.form edge).number ≤ ((chooseInst next more i).enc.form edge).number := by
  have branches {a b : Bool} (le : a ≤ b) : (branchForm a).number ≤ (branchForm b).number := by
    revert a b
    decide
  have closed {a b : Bool} (label : String) (le : a ≤ b) :
      (chosenForm next label a).number ≤ (chosenForm next label b).number := by
    unfold chosenForm
    split
    · exact Nat.le_refl _
    · exact branches le
  cases decided i with
  | nothing chosen => rw [chosen, chosen]
  | jump branch recipe =>
    cases edge with
    | taken =>
      rw [(chosenJump branch recipe next near).2.1, (chosenJump branch recipe next more).2.1]
      exact closed _ (le .taken)
    | other =>
      have kept (near : Edge → Bool) : (chooseInst next near i).enc.form .other = i.enc.form .other := by
        rw [(chosenJump branch recipe next near).1]
        exact Encoding.formWithOther _ _ (by decide)
      rw [kept, kept]
  | conditional branch recipe =>
    obtain ⟨-, first, second, -⟩ := chosenConditional branch recipe next near
    obtain ⟨-, first', second', -⟩ := chosenConditional branch recipe next more
    cases edge with
    | taken =>
      rw [first, first']
      exact branches (le .taken)
    | other =>
      rw [second, second']
      exact closed _ (le .other)

end Chosen

structure ShrunkBlock (bb cc : Block) : Prop where
  insts : List.Forall₂ SetsCompact bb.insts cc.insts
  rest : { cc with insts := bb.insts } = bb

theorem ShrunkBlock.reads {α : Type} {bb cc : Block} (shrunk : ShrunkBlock bb cc) (read : Block → α) :
    read { cc with insts := bb.insts } = read bb := congrArg read shrunk.rest

theorem ShrunkBlock.label {bb cc : Block} (shrunk : ShrunkBlock bb cc) : cc.label = bb.label :=
  shrunk.reads Block.label

structure Shrunk (f g : Func) : Prop where
  blocks : List.Forall₂ ShrunkBlock f.blocks g.blocks
  rest : { g with blocks := f.blocks } = f

theorem pairedAt {α β : Type} {R : α → β → Prop} {xs : List α} {ys : List β} (paired : List.Forall₂ R xs ys) {k : Nat}
    {y : β} (there : ys[k]? = some y) : ∃ x, xs[k]? = some x ∧ R x y := by
  induction paired generalizing k with
  | nil => cases there
  | cons first _ ih =>
    cases k with
    | zero =>
      cases there
      exact ⟨_, rfl, first⟩
    | succ k => exact ih there

section Chosen
variable {f : Func}

theorem shrunkInstsStretched (next : Option String) (near : Nat → Edge → Bool) {insts insts' : List Inst}
    (sets : List.Forall₂ SetsCompact insts insts') :
    List.Forall₂ (Stretched f) (chooseInsts next near insts') (chooseInsts next near insts) := by
  induction sets generalizing near with
  | nil => exact .nil
  | cons first _ ih => exact .cons (first.stretched f next (near 0)) (ih _)

theorem shrunkNext {blocks blocks' : List Block} (shrunk : List.Forall₂ ShrunkBlock blocks blocks') :
    blocks'.head?.map Block.label = blocks.head?.map Block.label := by
  cases shrunk with
  | nil => rfl
  | cons first _ => exact congrArg some first.label

theorem shrunkBlocksStretched (near : Choice) {blocks blocks' : List Block}
    (shrunk : List.Forall₂ ShrunkBlock blocks blocks') :
    List.Forall₂ (fun bb cc => List.Forall₂ (Stretched f) bb.insts cc.insts)
      (chooseBlocks near blocks') (chooseBlocks near blocks) := by
  induction shrunk generalizing near with
  | nil => exact .nil
  | cons first rest ih =>
    rw [chooseBlocks, chooseBlocks, shrunkNext rest]
    exact .cons (shrunkInstsStretched _ _ first.insts) (ih _)

def Narrower (i j : Inst) : Prop := ∀ edge, (j.enc.form edge).number ≤ (i.enc.form edge).number

theorem shrunkInstsNarrower (next : Option String) {near more : Nat → Edge → Bool} (le : near ≤ more)
    {insts insts' : List Inst} (sets : List.Forall₂ SetsCompact insts insts') :
    List.Forall₂ Narrower (chooseInsts next more insts) (chooseInsts next near insts') := by
  induction sets generalizing near more with
  | nil => exact .nil
  | cons first _ ih =>
    refine .cons (fun edge => ?_) (ih fun k => le (k + 1))
    rw [first.forms]
    exact chosenWider (le 0) edge

theorem shrunkBlocksNarrower {near more : Choice} (le : near ≤ more) {blocks blocks' : List Block}
    (shrunk : List.Forall₂ ShrunkBlock blocks blocks') :
    List.Forall₂ Narrower ((chooseBlocks more blocks).flatMap Block.insts)
      ((chooseBlocks near blocks').flatMap Block.insts) := by
  induction shrunk generalizing near more with
  | nil => exact .nil
  | cons first rest ih =>
    rw [chooseBlocks, chooseBlocks, shrunkNext rest]
    exact List.rel_append (shrunkInstsNarrower _ (le 0) first.insts) (ih fun b => le (b + 1))

end Chosen

namespace Shrunk
variable {f g : Func} (shrunk : Shrunk f g)
include shrunk

theorem reads {α : Type} (read : Func → α) : read { g with blocks := f.blocks } = read f := congrArg read shrunk.rest

theorem headers : SameHeaders f g := by
  have heads {α : Type} {read : Block → α} (same : ∀ bb cc, ShrunkBlock bb cc → read cc = read bb) :
      f.blocks.map read = g.blocks.map read := by
    have paired := shrunk.blocks
    generalize f.blocks = bs, g.blocks = cs at paired
    induction paired with
    | nil => rfl
    | cons first _ ih => exact List.cons_eq_cons.mpr ⟨(same _ _ first).symm, ih⟩
  constructor
  case values => exact (shrunk.reads Func.valueTypes).symm
  case locations => exact (shrunk.reads Func.locations).symm
  case slots => exact (shrunk.reads Func.stackSlots).symm
  case frame => exact (shrunk.reads Func.frame).symm
  case constants => exact (shrunk.reads Func.constants).symm
  case labels => exact heads fun _ _ first => first.label
  case params => exact heads fun _ _ first => first.reads Block.params

theorem instSizes : List.Forall₂ (fun i j => instructionSize g j ≤ instructionSize f i) f.insts g.insts := by
  have sizes (bb cc : Block) (first : ShrunkBlock bb cc) :
      List.Forall₂ (fun i j => instructionSize g j ≤ instructionSize f i) bb.insts cc.insts :=
    first.insts.imp fun i j sets => instructionSizeSame shrunk.headers j ▸ sets.size f
  have paired := shrunk.blocks
  unfold Func.insts
  generalize f.blocks = bs, g.blocks = cs at paired
  induction paired with
  | nil => exact .nil
  | cons first _ ih => exact List.rel_append (sizes _ _ first) ih

theorem codeEnd (near : Choice) : codeEnd g near ≤ X64.codeEnd f near := by
  have stretched := codeSizeBlocks (shrunkBlocksStretched (f := f) near shrunk.blocks)
  rwa [codeSizeSame shrunk.headers] at stretched

theorem layoutSize (near : Choice) : layoutSize g near ≤ X64.layoutSize f near := by
  unfold X64.layoutSize
  rw [shrunk.headers.constants]
  exact Nat.add_le_add_right (poolOffsetLater (shrunk.codeEnd near)) _

theorem instAt {near : Choice} {b k : Nat} {cc : Block} {j : Inst} (block : (chooseBlocks near g.blocks)[b]? = some cc)
    (inst : cc.insts[k]? = some j) : ∃ bb i, (chooseBlocks near f.blocks)[b]? = some bb ∧ bb.insts[k]? = some i ∧
      List.Forall₂ (Stretched f) cc.insts bb.insts ∧ Stretched f j i ∧ branchEdges j = branchEdges i ∧
      ∀ edge, j.enc.form edge = i.enc.form edge := by
  rw [chosenBlockAt] at block
  obtain ⟨cc', there', rfl⟩ := Option.map_eq_some_iff.mp block
  rw [chosenInstAt] at inst
  obtain ⟨j', place', rfl⟩ := Option.map_eq_some_iff.mp inst
  obtain ⟨bb, there, first⟩ := pairedAt shrunk.blocks there'
  obtain ⟨i, place, sets⟩ := pairedAt first.insts place'
  have next : f.blocks[b + 1]?.map Block.label = g.blocks[b + 1]?.map Block.label := by
    rw [← List.getElem?_map, ← List.getElem?_map, shrunk.headers.labels]
  refine ⟨_, _, by rw [chosenBlockAt, there]; rfl, by rw [chosenInstAt, place]; rfl, ?_, ?_, ?_, ?_⟩
  all_goals rw [next]
  · exact shrunkInstsStretched _ _ first.insts
  · exact sets.stretched ..
  · exact sets.edges
  · exact sets.forms

theorem stillReaching {near : Choice} (reaching : Reaching f near) : Reaching g near := by
  intro b cc k j block' inst' edge label behind t listed short found
  obtain ⟨bb, i, block, inst, insts, stretched, edges, forms⟩ := shrunk.instAt block' inst'
  have inside := (stretched.edges edge label behind listed).1
  have fits := reaching b bb k i block inst edge label behind t (edges.symm ▸ listed) ((forms edge).symm.trans short)
    ((shrunk.headers.findBlock? label).trans found)
  have blocks := shrunkBlocksStretched (f := f) near shrunk.blocks
  have nearer := displacementGrows blocks block' block insts inst' inst inside (Nat.le_refl behind)
    (Nat.add_le_add_right stretched.size behind) t fits
  have sizes (insts : List Inst) : codeSize g insts = codeSize f insts := (codeSizeSame shrunk.headers insts).symm
  simp only [displacement, startOf, sizes] at nearer ⊢
  exact nearer

end Shrunk

section Passes
variable {f : Func} {i : Inst}

theorem shrinksOr (f : Func) (i : Inst) : Shrink.shrinks f i = true ∧ i.enc.isCompact = false ∧
      Shrink.shrinkInst f i = { i with enc := { i.enc with bits := i.enc.bits + 1 } } ∨
    Shrink.shrinks f i = false ∧ Shrink.shrinkInst f i = i := by
  cases shrinks : Shrink.shrinks f i with
  | false => exact .inr ⟨rfl, if_neg (ne_true_of_eq_false shrinks)⟩
  | true =>
    have long : i.enc.isCompact = false := by
      unfold Shrink.shrinks at shrinks
      simpa using (Bool.and_eq_true_iff.mp shrinks).2
    refine .inl ⟨rfl, long, (if_pos shrinks).trans ?_⟩
    rw [(compactBits long).1]

theorem shrinkShrinks (f : Func) : Shrunk f (shrinkInstructions f).1 := by
  have inst (i : Inst) : SetsCompact i (Shrink.shrinkInst f i) := by
    rcases shrinksOr f i with ⟨-, long, same⟩ | ⟨-, same⟩
    · exact .inr ⟨long, same⟩
    · exact .inl same
  refine ⟨?_, rfl⟩
  refine List.forall₂_map_right_iff.mpr (List.forall₂_same.mpr fun bb _ => ⟨?_, rfl⟩)
  exact List.forall₂_map_right_iff.mpr (List.forall₂_same.mpr fun i _ => inst i)

theorem shrinkCounts (f : Func) : (shrinkInstructions f).2 =
    (f.insts.zip (shrinkInstructions f).1.insts).countP fun pair => pair.1.enc != pair.2.enc := by
  have changed (i : Inst) : (i.enc != (Shrink.shrinkInst f i).enc) = Shrink.shrinks f i := by
    rcases shrinksOr f i with ⟨shrinks, -, same⟩ | ⟨stays, same⟩
    · rw [shrinks, same, bne_iff_ne]
      intro equal
      have bits := congrArg Encoding.bits equal
      exact absurd bits (Nat.ne_of_lt (Nat.lt_succ_self _))
    · rw [stays, same]
      simp
  have insts : (shrinkInstructions f).1.insts = f.insts.map (Shrink.shrinkInst f) := Func.instsMapInsts ..
  have pairs : f.insts.zip (f.insts.map (Shrink.shrinkInst f)) = f.insts.map fun i => (i, Shrink.shrinkInst f i) := by
    conv_lhs => rw [← List.map_id f.insts, List.map_map]
    exact List.zip_map' ..
  rw [insts, pairs, List.countP_map]
  exact (List.countP_congr fun i _ => by rw [Function.comp_apply, changed]).symm

theorem shrinkSpent (f : Func) (i : Inst) : Shrink.shrinks f (Shrink.shrinkInst f i) = false := by
  rcases shrinksOr f i with ⟨-, long, same⟩ | ⟨stays, same⟩
  · have compact : (Shrink.shrinkInst f i).enc.isCompact = true := by
      have even := (compactBits long).2
      rw [same]
      simp only [Encoding.isCompact, beq_iff_eq]
      omega
    rw [Shrink.shrinks, compact, Bool.not_true, Bool.and_false]
  · rw [same, stays]

theorem shrinkSettled (f : Func) : shrinkInstructions (shrinkInstructions f).1 = ((shrinkInstructions f).1, 0) := by
  have types : Shrink.shrinks (shrinkInstructions f).1 = Shrink.shrinks f := rfl
  have spent (i : Inst) : Shrink.shrinks (shrinkInstructions f).1 (Shrink.shrinkInst f i) = false := by
    rw [types, shrinkSpent]
  have again (bb : Block) : (bb.mapInsts (Shrink.shrinkInst f)).mapInsts (Shrink.shrinkInst (shrinkInstructions f).1) =
      bb.mapInsts (Shrink.shrinkInst f) := by
    simp only [Block.mapInsts, List.map_map]
    refine congrArg (fun insts => { bb with insts := insts }) (List.map_congr_left fun i _ => ?_)
    exact if_neg (ne_true_of_eq_false (spent i))
  refine Prod.ext ?_ ?_
  · refine congrArg (fun blocks => { f with blocks := blocks }) ?_
    refine (List.map_map ..).trans (List.map_congr_left fun bb _ => again bb)
  · refine List.countP_eq_zero.mpr fun j listed => ?_
    rw [show (shrinkInstructions f).1.insts = f.insts.map (Shrink.shrinkInst f) from Func.instsMapInsts ..] at listed
    obtain ⟨i, -, rfl⟩ := List.mem_map.mp listed
    exact ne_true_of_eq_false (spent i)

end Passes

theorem Shrunk.relaxes {f g f' : Func} {info : CodeInfo} (shrunk : Shrunk f g) {limits : Limits}
    (done : relaxBranches limits f = (f', .ok info)) : ∃ g' info', relaxBranches limits g = (g', .ok info') ∧
      info'.totalSize ≤ info.totalSize ∧ List.Forall₂ Narrower f'.insts g'.insts := by
  obtain ⟨most, isMost⟩ := leastReaching f
  obtain ⟨least, isLeast⟩ := leastReaching g
  have le : least ≤ most := isLeast.2 (shrunk.stillReaching isMost.1)
  have smaller : X64.layoutSize g least ≤ X64.layoutSize f most := (layoutSizeLater le).trans (shrunk.layoutSize most)
  obtain ⟨fits, large⟩ := relaxedAtLeast limits isMost
  have small : X64.layoutSize f most ≤ limits.functionLimit := by
    by_contra beyond
    obtain ⟨_, _, failed, -⟩ := large (Nat.lt_of_not_le beyond)
    rw [done] at failed
    cases failed
  have relaxed := fits small
  rw [done] at relaxed
  cases relaxed
  exact ⟨_, _, (relaxedAtLeast limits isLeast).1 (smaller.trans small), smaller, shrunkBlocksNarrower le shrunk.blocks⟩

/-- Shrinking sets compact bits and changes nothing else, makes no instruction longer, and leaves nothing to shrink;
a function that can be laid out without it can be laid out with it, in no more bytes and with no wider branch. -/
theorem shrinkingSavesSpace (limits : Limits) (f : Func) :
    let g := (shrinkInstructions f).1
    Shrunk f g ∧
      List.Forall₂ (fun i j => instructionSize g j ≤ instructionSize f i) f.insts g.insts ∧
      (shrinkInstructions f).2 = (f.insts.zip g.insts).countP (fun pair => pair.1.enc != pair.2.enc) ∧
      shrinkInstructions g = (g, 0) ∧
      ∀ f' info, relaxBranches limits f = (f', .ok info) → ∃ g' info', relaxBranches limits g = (g', .ok info') ∧
        info'.totalSize ≤ info.totalSize ∧ List.Forall₂ Narrower f'.insts g'.insts := by
  have shrunk := shrinkShrinks f
  exact ⟨shrunk, shrunk.instSizes, shrinkCounts f, shrinkSettled f, fun _ _ done => shrunk.relaxes done⟩

end X64
end SsaCodegen
