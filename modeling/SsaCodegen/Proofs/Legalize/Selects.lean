import SsaCodegen.Proofs.Ir.Reshape
import SsaCodegen.X64.Legalize
/-! Float selects become diamonds. The block is cut in two at the select: what was known there
is known in both arms and at the join, where the result arrives as a parameter. -/
namespace SsaCodegen.X64.Legalize
open SsaCodegen.Structure

structure Select (f : Func) (sel : Inst) (id : Nat) (c x y : Value) : Prop where
  op : sel.op = .select
  result : sel.result = some id
  operands : sel.operands = [c, x, y]
  condition : typeOf f c .b1 = .b1
  first : typeOf f x sel.ty = sel.ty
  second : typeOf f y sel.ty = sel.ty
  targets : sel.targets = []
  args : sel.targetArgs = []

theorem selectParts {f : Func} {sel : Inst} (sound : SoundInst f sel) (tidy : sel.Tidy)
    (op : sel.op = .select) : ∃ id c x y, Select f sel id c x y := by
  obtain ⟨⟨low, high⟩, result, leads⟩ := shapeIff.mp sound.shape
  rw [op] at low high leads
  have three : sel.operands.length = 3 := Nat.le_antisymm (high.resolve_left (by decide)) low
  obtain ⟨c, x, y, operands⟩ : ∃ c x y, sel.operands = [c, x, y] := by
    match sel.operands, three with
    | [c, x, y], _ => exact ⟨c, x, y, rfl⟩
  obtain ⟨id, defines⟩ : ∃ id, sel.result = some id := by
    cases gives : sel.result with
    | none => simp only [ResultFits, op, gives] at result; exact result.elim
    | some id => exact ⟨id, rfl⟩
  have types := sound.types
  simp only [typeMessages, op, operands, List.append_eq_nil_iff, expectTyIff] at types
  have targets := List.eq_nil_of_length_eq_zero leads
  exact ⟨id, c, x, y, op, defines, operands, types.1.1, types.1.2, types.2, targets, tidy targets⟩

theorem conditionTy {f : Func} {c : Value} (ty : typeOf f c .b1 = .b1) :
    typeOf f c .i64 = .b1 := by
  cases c with
  | int word => simp [typeOf, Ty.isInt, Ty.isRef] at ty
  | _ => exact ty

def selectBranch (sel : Inst) (onTrue onFalse : String) : Inst :=
  { op := .brif, operands := [sel.operand 0], targets := [onTrue, onFalse],
    targetArgs := [[], []], pos := sel.pos }

def diamond (cur : Block) (pre post : List Inst) (sel : Inst) (join onFalse onTrue : String) :
    List Block :=
  [{ cur with insts := pre ++ [selectBranch sel onTrue onFalse] },
    ⟨onTrue, [], [jumpTo join [sel.operand 1] sel.pos]⟩,
    ⟨onFalse, [], [jumpTo join [sel.operand 2] sel.pos]⟩,
    ⟨join, sel.result.toList.map fun id => ⟨id, sel.ty⟩, post⟩]

section
variable {f g : Func} {before after : List Block} {cur : Block} {pre post : List Inst} {sel : Inst}
  {join onFalse onTrue : String} (clean : Clean f) (blocks : f.blocks = before ++ cur :: after)
  (insts : cur.insts = pre ++ sel :: post) (op : sel.op = .select)
  (newBlocks : g.blocks = before ++ diamond cur pre post sel join onFalse onTrue ++ after)
  (signature : g.signature = f.signature) (types : g.valueTypes = f.valueTypes)
  (apart : [join, onFalse, onTrue].Nodup) (unused : ∀ l ∈ [join, onFalse, onTrue], l ∉ f.labels)

include insts op in
theorem postEnded (ended : Ended cur.insts) : ∃ body last, post = body ++ [last] ∧
    cur.insts = (pre ++ sel :: body) ++ [last] ∧ last.isTerminator = true ∧
    (∀ i ∈ pre, i.isTerminator = false) ∧ ∀ i ∈ body, i.isTerminator = false := by
  obtain ⟨inner, last, same, ends, plain⟩ := ended
  rcases List.eq_nil_or_concat post with rfl | ⟨body, final, rfl⟩
  · obtain ⟨-, ending⟩ := List.append_inj' (insts.symm.trans same) rfl
    cases List.singleton_inj.mp ending
    rw [Inst.isTerminator, op] at ends
    cases ends
  · rw [List.concat_eq_append, ← List.cons_append, ← List.append_assoc] at insts
    obtain ⟨rfl, ending⟩ := List.append_inj' (insts.symm.trans same) rfl
    cases List.singleton_inj.mp ending
    exact ⟨body, _, List.concat_eq_append, insts, ends,
      fun i inside => plain i (List.mem_append_left _ inside),
      fun i inside => plain i (List.mem_append_right _ (List.mem_cons_of_mem _ inside))⟩

include blocks newBlocks in
theorem diamondCases {b : Block} (inside : b ∈ g.blocks) :
    (b ∈ f.blocks ∧ (b ∈ before ∨ b ∈ after)) ∨ b ∈ diamond cur pre post sel join onFalse onTrue := by
  rw [newBlocks] at inside
  rw [blocks]
  rcases List.mem_append.mp inside with left | right
  · rcases List.mem_append.mp left with left | new
    · exact .inl ⟨List.mem_append_left _ left, .inl left⟩
    · exact .inr new
  · exact .inl ⟨List.mem_append_right _ (List.mem_cons_of_mem _ right), .inr right⟩

include blocks newBlocks in
theorem diamondStart {b : Block} {others : List Block} (start : g.blocks = b :: others) :
    ∃ a rest, f.blocks = a :: rest ∧ a.label = b.label := by
  rw [newBlocks] at start
  cases before with
  | nil =>
    obtain ⟨rfl, -⟩ := List.cons.inj start
    exact ⟨cur, after, blocks, rfl⟩
  | cons first more =>
    obtain ⟨rfl, -⟩ := List.cons.inj start
    exact ⟨first, more ++ cur :: after, blocks, rfl⟩

include clean blocks newBlocks signature types in
theorem diamondExtends : Extends f g := by
  refine .ofBlocks clean.wellFormed.labels signature (types ▸ List.prefix_refl _)
    (fun a inside => ?_) fun b others start => diamondStart blocks newBlocks start
  rw [blocks] at inside
  rw [newBlocks]
  rcases List.mem_append.mp inside with left | right
  · exact ⟨a, List.mem_append_left _ (List.mem_append_left _ left), rfl, rfl⟩
  · rcases List.mem_cons.mp right with rfl | right
    · exact ⟨_, List.mem_append_left _ (List.mem_append_right _ List.mem_cons_self), rfl, rfl⟩
    · exact ⟨a, List.mem_append_right _ right, rfl, rfl⟩

include blocks insts newBlocks in
theorem diamondDefines (result : sel.result.isSome = true) : g.definedIds = f.definedIds := by
  obtain ⟨id, defines⟩ := Option.isSome_iff_exists.mp result
  have cut : (diamond cur pre post sel join onFalse onTrue).flatMap Block.definedIds =
      cur.definedIds := by
    simp [diamond, Block.definedIds, Block.paramIds, insts, defines, selectBranch, jumpTo]
  simp only [Func.definedIds, blocks, newBlocks, List.flatMap_append, cut, List.flatMap_cons,
    List.append_assoc]

include blocks newBlocks apart unused in
theorem diamondLabels (labels : f.labels.Nodup) : g.labels.Nodup := by
  have perm : g.labels.Perm ([join, onFalse, onTrue] ++ f.labels) := by
    simp only [Func.labels, blocks, newBlocks, diamond, List.map_append, List.map_cons,
      List.append_assoc, List.cons_append, List.nil_append]
    refine List.perm_iff_count.mpr fun l => ?_
    simp only [List.count_append, List.count_cons]
    omega
  exact perm.nodup_iff.mpr (List.nodup_append.mpr
    ⟨apart, labels, fun a new b old same => unused a new (same ▸ old)⟩)

def knownAtSelect (f : Func) (cur : Block) (pre : List Inst) (v : Nat) : Prop :=
  KnownAt f cur v ∨ ∃ i ∈ pre, i.result = some v

include insts op in
theorem diamondTargets (ended : Ended cur.insts) {b : Block}
    (inside : b ∈ diamond cur pre post sel join onFalse onTrue) {l : String} (target : l ∈ b.targets) :
    (b.label = cur.label ∧ l ∈ [join, onFalse, onTrue] ∧
        ∀ v, (v ∈ cur.paramIds ∨ ∃ i ∈ pre, i.result = some v) → v ∈ b.definedIds) ∨
      (b.label ∈ [join, onFalse, onTrue] ∧ l ∈ [join, onFalse, onTrue]) ∨
      (b.label = join ∧ l ∈ cur.targets ∧ ∀ v ∈ cur.definedIds,
        (v ∈ cur.paramIds ∨ ∃ i ∈ pre, i.result = some v) ∨ v ∈ b.definedIds) := by
  simp only [diamond, List.mem_cons, List.not_mem_nil, or_false] at inside
  rcases inside with rfl | rfl | rfl | rfl
  · have branch : Block.insts { cur with insts := pre ++ [selectBranch sel onTrue onFalse] } =
        pre ++ [selectBranch sel onTrue onFalse] := rfl
    rw [Ended.targets branch rfl] at target
    refine .inl ⟨rfl, ?_, fun v known => Block.memDefinedIds.mpr (known.imp_right fun held => ?_)⟩
    · simp only [selectBranch, List.mem_cons, List.not_mem_nil, or_false] at target ⊢
      exact target.elim (fun same => .inr (.inr same)) fun same => .inr (.inl same)
    · obtain ⟨i, earlier, result⟩ := held
      exact ⟨i, List.mem_append_left _ earlier, result⟩
  · have jump : Block.insts ⟨onTrue, [], [jumpTo join [sel.operand 1] sel.pos]⟩ =
        [] ++ [jumpTo join [sel.operand 1] sel.pos] := rfl
    rw [Ended.targets jump rfl] at target
    cases List.mem_singleton.mp target
    exact .inr (.inl ⟨by simp, List.mem_cons_self⟩)
  · have jump : Block.insts ⟨onFalse, [], [jumpTo join [sel.operand 2] sel.pos]⟩ =
        [] ++ [jumpTo join [sel.operand 2] sel.pos] := rfl
    rw [Ended.targets jump rfl] at target
    cases List.mem_singleton.mp target
    exact .inr (.inl ⟨by simp, List.mem_cons_self⟩)
  · obtain ⟨body, last, same, whole, ends, -, -⟩ := postEnded insts op ended
    have ending : Block.insts ⟨join, sel.result.toList.map fun id => ⟨id, sel.ty⟩, post⟩ =
        body ++ [last] := same
    rw [Ended.targets ending ends, ← Ended.targets whole ends] at target
    refine .inr (.inr ⟨rfl, target, fun v defines => ?_⟩)
    rcases Block.memDefinedIds.mp defines with param | ⟨i, within, result⟩
    · exact .inl (.inl param)
    · rw [insts] at within
      rcases List.mem_append.mp within with earlier | later
      · exact .inl (.inr ⟨i, earlier, result⟩)
      · refine .inr (Block.memDefinedIds.mpr ?_)
        rcases List.mem_cons.mp later with rfl | later
        · exact .inl (by simp [Block.paramIds, result])
        · exact .inr ⟨i, later, result⟩

include clean blocks insts op newBlocks unused in
theorem diamondSurvey : Survey g
    (fun l => if l ∈ [join, onFalse, onTrue] then Reaches f cur.label else Reaches f l)
    (fun l v => if l ∈ [join, onFalse, onTrue] then knownAtSelect f cur pre v
      else ¬ Missing f v l) := by
  have ok := clean.wellFormed
  have old {l : String} (listed : l ∈ f.labels) : l ∉ [join, onFalse, onTrue] :=
    fun new => unused l new listed
  have inside : cur ∈ f.blocks := blocks ▸ List.mem_append_right _ List.mem_cons_self
  have oldCur := old (List.mem_map_of_mem inside : cur.label ∈ f.labels)
  refine ⟨fun b others start => ?_, fun b listed reaches l target => ?_⟩
  · obtain ⟨a, rest, first, named⟩ := diamondStart blocks newBlocks start
    have away := old
      (List.mem_map_of_mem (first ▸ List.mem_cons_self : a ∈ f.blocks) : a.label ∈ f.labels)
    rw [← named]
    simp only [away, if_false]
    exact ⟨.entry first, fun v known => known (.entry first)⟩
  rcases diamondCases blocks newBlocks listed with ⟨there, -⟩ | new
  · have away := old (List.mem_map_of_mem there : b.label ∈ f.labels)
    have onward := old (ok.targetUsed there target)
    simp only [away, onward, if_false] at reaches ⊢
    exact ⟨.edge there reaches trivial target, fun v => knownAlong there target⟩
  rcases diamondTargets insts op (ok.ended cur inside) new target with
    ⟨named, leads, keeps⟩ | ⟨named, leads⟩ | ⟨named, leads, keeps⟩
  · rw [named] at reaches ⊢
    simp only [oldCur, if_false] at reaches
    simp only [leads, if_true, oldCur, if_false]
    refine ⟨reaches, fun v known => ?_⟩
    rcases known with (known | param) | earlier
    · exact .inl known
    · exact .inr (keeps v (.inl param))
    · exact .inr (keeps v (.inr earlier))
  · simp only [named, if_true] at reaches
    simp only [named, leads, if_true]
    exact ⟨reaches, fun v => .inl⟩
  · have first : join ∈ [join, onFalse, onTrue] := List.mem_cons_self
    have onward := old (ok.targetUsed inside leads)
    rw [named] at reaches ⊢
    simp only [first, if_true] at reaches
    simp only [onward, if_false, first, if_true]
    refine ⟨.edge inside reaches trivial leads, fun v known => ?_⟩
    rcases knownAlong inside leads known with known | defines
    · exact .inl (.inl (.inl known))
    · rcases keeps v defines with (param | earlier) | later
      · exact .inl (.inl (.inr param))
      · exact .inl (.inr earlier)
      · exact .inr later

include newBlocks in
theorem diamondTail {b : Block} (inside : b ∈ (diamond cur pre post sel join onFalse onTrue).tail) :
    b ∈ g.blocks.tail := by
  rw [newBlocks]
  cases before with
  | nil => exact List.mem_append_left _ inside
  | cons first more =>
    exact List.mem_append_left _ (List.mem_append_right _ (List.mem_of_mem_tail inside))

theorem diamondInst {b : Block} (inside : b ∈ diamond cur pre post sel join onFalse onTrue)
    {j : Inst} (listed : j ∈ b.insts) : j ∈ pre ∨ j ∈ post ∨ j = selectBranch sel onTrue onFalse ∨
      ∃ k, (k = 1 ∨ k = 2) ∧ j = jumpTo join [sel.operand k] sel.pos := by
  simp only [diamond, List.mem_cons, List.not_mem_nil, or_false] at inside
  rcases inside with rfl | rfl | rfl | rfl
  · rcases List.mem_append.mp listed with earlier | new
    · exact .inl earlier
    · exact .inr (.inr (.inl (List.mem_singleton.mp new)))
  · exact .inr (.inr (.inr ⟨1, .inl rfl, List.mem_singleton.mp listed⟩))
  · exact .inr (.inr (.inr ⟨2, .inr rfl, List.mem_singleton.mp listed⟩))
  · exact .inr (.inl listed)

include clean blocks newBlocks signature types in
theorem diamondFits {id : Nat} {c x y : Value} (parts : Select f sel id c x y)
    (sound : SoundInst f sel) : FitInst g (selectBranch sel onTrue onFalse) ∧
      ∀ k, k = 1 ∨ k = 2 → FitInst g (jumpTo join [sel.operand k] sel.pos) := by
  have ext := diamondExtends clean blocks newBlocks signature types
  have same {v : Value} (operand : v ∈ sel.operands) (hint : Ty) : typeOf g v hint = typeOf f v hint :=
    typeOfSame (fun id temp => ext.valueType (clean.wellFormed.idBelow
      (sound.defined id (Inst.operandUsed (temp ▸ operand))))) hint
  have home {b : Block} (inside : b ∈ (diamond cur pre post sel join onFalse onTrue).tail) :=
    diamondTail newBlocks inside
  constructor
  · refine ⟨rfl, ?_, fun _ => rfl, fun e inside => ?_⟩
    · have ty : typeOf g c .i64 = .b1 := by
        rw [same (by simp [parts.operands])]
        exact conditionTy parts.condition
      have first : sel.operand 0 = c := by simp [Inst.operand, parts.operands]
      simp [typeMessages, selectBranch, firstOperand, first, ty, Ty.isBool]
    · simp only [selectBranch, List.zip_cons_cons, List.zip_nil_left, List.mem_cons,
        List.not_mem_nil, or_false] at inside
      rcases inside with rfl | rfl
      · exact ⟨_, home List.mem_cons_self, rfl, rfl, by simp⟩
      · exact ⟨_, home (List.mem_cons_of_mem _ List.mem_cons_self), rfl, rfl, by simp⟩
  · intro k arm
    refine ⟨rfl, rfl, fun _ => rfl, fun e inside => ?_⟩
    cases List.mem_singleton.mp inside
    have typed : typeOf g (sel.operand k) sel.ty = sel.ty := by
      rcases arm with rfl | rfl
      · rw [show sel.operand 1 = x by simp [Inst.operand, parts.operands],
          same (by simp [parts.operands])]
        exact parts.first
      · rw [show sel.operand 2 = y by simp [Inst.operand, parts.operands],
          same (by simp [parts.operands])]
        exact parts.second
    refine ⟨_, home (List.mem_cons_of_mem _ (List.mem_cons_of_mem _ List.mem_cons_self)), rfl, ?_, ?_⟩
    · simp [parts.result]
    · simp [parts.result, typed]

include insts in
theorem postLater {i : Inst} (later : i ∈ post) : i ∈ cur.insts.tail := by
  rw [insts]
  cases pre with
  | nil => exact later
  | cons first more => exact List.mem_append_right _ (List.mem_cons_of_mem _ later)

theorem diamondQuiet (apart : ∀ i ∈ post, i.op ≠ .prologue) {b : Block}
    (inside : b ∈ (diamond cur pre post sel join onFalse onTrue).tail) {j : Inst}
    (listed : j ∈ b.insts) : j.op ≠ .prologue := by
  simp only [diamond, List.tail_cons, List.mem_cons, List.not_mem_nil, or_false] at inside
  rcases inside with rfl | rfl | rfl
  · rw [List.mem_singleton.mp listed]
    exact fun opens => by cases opens
  · rw [List.mem_singleton.mp listed]
    exact fun opens => by cases opens
  · exact apart j listed

include insts in
theorem firstPart {j : Inst} (listed : j ∈ pre ++ [selectBranch sel onTrue onFalse]) :
    j ∈ cur.insts ∨ j.op ≠ .prologue := by
  rcases List.mem_append.mp listed with earlier | branch
  · exact .inl (insts ▸ List.mem_append_left _ earlier)
  · rw [List.mem_singleton.mp branch]
    exact .inr fun opens => by cases opens

include blocks insts newBlocks signature in
theorem diamondEntry (entry : ∃ entry rest, EntryFits f entry rest) :
    ∃ entry rest, EntryFits g entry rest := by
  obtain ⟨entry, rest, fits⟩ := entry
  have start := fits.blocks
  rw [blocks] at start
  cases before with
  | nil =>
    obtain ⟨rfl, rfl⟩ := List.cons.inj start
    have apart : ∀ i ∈ post, i.op ≠ .prologue := fun i later =>
      fits.opening i (postLater insts later)
    refine ⟨_, _, newBlocks, signature ▸ fits.params, fun j listed => ?_, fun b inside j listed => ?_⟩
    · cases pre with
      | nil => cases listed
      | cons first more =>
        rcases List.mem_append.mp (show j ∈ more ++ [_] from listed) with earlier | new
        · exact fits.opening j (insts ▸ List.mem_append_left _ earlier)
        · rw [List.mem_singleton.mp new]
          exact fun opens => by cases opens
    · rcases List.mem_append.mp (show b ∈ (diamond cur pre post sel join onFalse onTrue).tail ++ after
        from inside) with new | old
      · exact diamondQuiet apart new listed
      · exact fits.others b old j listed
  | cons first more =>
    obtain ⟨rfl, rfl⟩ := List.cons.inj start
    have home : cur ∈ more ++ cur :: after := List.mem_append_right _ List.mem_cons_self
    have apart : ∀ i ∈ post, i.op ≠ .prologue := fun i later =>
      fits.others cur home i (List.mem_of_mem_tail (postLater insts later))
    refine ⟨_, _, newBlocks, signature ▸ fits.params, fits.opening, fun b inside j listed => ?_⟩
    rcases List.mem_append.mp (show b ∈ more ++ diamond cur pre post sel join onFalse onTrue ++ after
      from inside) with left | right
    · rcases List.mem_append.mp left with old | new
      · exact fits.others b (List.mem_append_left _ old) j listed
      · rcases List.mem_cons.mp new with rfl | new
        · exact (firstPart insts listed).elim (fits.others cur home j) id
        · exact diamondQuiet apart (show b ∈ (diamond cur pre post sel join onFalse onTrue).tail from new)
            listed
    · exact fits.others b (List.mem_append_right _ (List.mem_cons_of_mem _ right)) j listed

theorem operandUsed {k id : Nat} (temp : sel.operand k = .temp id) : id ∈ sel.usedTemps := by
  refine Inst.operandUsed ?_
  rw [Inst.operand, List.getD_eq_getElem?_getD] at temp
  cases located : sel.operands[k]? with
  | none => rw [located] at temp; cases temp
  | some v =>
    rw [located, Option.getD_some] at temp
    exact temp ▸ List.mem_of_getElem? located

theorem selectBranchUses {id : Nat} (used : id ∈ (selectBranch sel onTrue onFalse).usedTemps) :
    id ∈ sel.usedTemps := by
  rcases Inst.memUsedTemps.mp used with operand | ⟨vs, args, arg⟩
  · exact operandUsed (List.mem_singleton.mp operand).symm
  · simp only [selectBranch, List.mem_cons, List.not_mem_nil, or_false, or_self] at args
    rw [args] at arg
    cases arg

theorem selectJumpUses {k id : Nat} (used : id ∈ (jumpTo join [sel.operand k] sel.pos).usedTemps) :
    id ∈ sel.usedTemps := by
  rcases Inst.memUsedTemps.mp used with operand | ⟨vs, args, arg⟩
  · cases operand
  · rw [List.mem_singleton.mp args] at arg
    exact operandUsed (List.mem_singleton.mp arg).symm

include blocks insts newBlocks in
theorem diamondPlaced {b : Block} (there : b ∈ g.blocks) {j : Inst} (within : j ∈ b.insts) :
    j ∈ f.insts ∨ j = selectBranch sel onTrue onFalse ∨
      ∃ k, (k = 1 ∨ k = 2) ∧ j = jumpTo join [sel.operand k] sel.pos := by
  have inside : cur ∈ f.blocks := blocks ▸ List.mem_append_right _ List.mem_cons_self
  rcases diamondCases blocks newBlocks there with ⟨old, -⟩ | new
  · exact .inl (Func.memInsts old within)
  · rcases diamondInst new within with earlier | later | new
    · exact .inl (Func.memInsts inside (insts ▸ List.mem_append_left _ earlier))
    · refine .inl (Func.memInsts inside (insts ▸ ?_))
      exact List.mem_append_right _ (List.mem_cons_of_mem _ later)
    · exact .inr new

include clean blocks insts newBlocks types in
theorem diamondDeclared (result : ∃ id, sel.result = some id) :
    (∀ b ∈ g.blocks, ∀ p ∈ b.params, g.valueTypes[p.id]? = some p.ty) ∧
      ∀ b ∈ g.blocks, ∀ j ∈ b.insts, ∀ id, j.result = some id →
        g.valueTypes[id]? = some j.ty := by
  have ok := clean.wellFormed
  have inside : cur ∈ f.blocks := blocks ▸ List.mem_append_right _ List.mem_cons_self
  obtain ⟨id, defines⟩ := result
  rw [types]
  refine ⟨fun b there p within => ?_, fun b there j within id result => ?_⟩
  · rcases diamondCases blocks newBlocks there with ⟨old, -⟩ | new
    · exact (ok.declared b old).params p within
    · simp only [diamond, List.mem_cons, List.not_mem_nil, or_false] at new
      rcases new with rfl | rfl | rfl | rfl
      · exact (ok.declared cur inside).params p within
      · cases within
      · cases within
      · simp only [defines, Option.toList_some, List.map_cons, List.map_nil,
          List.mem_singleton] at within
        rw [within]
        have listed : sel ∈ cur.insts := insts ▸ List.mem_append_right _ List.mem_cons_self
        exact (ok.declared cur inside).results sel listed _ defines
  · rcases diamondPlaced blocks insts newBlocks there within with old | rfl | ⟨k, -, rfl⟩
    · exact (clean.inst old).2.2 id result
    · cases result
    · cases result

include clean blocks insts op newBlocks in
theorem diamondEnded {b : Block} (there : b ∈ g.blocks) : Ended b.insts := by
  have ok := clean.wellFormed
  have inside : cur ∈ f.blocks := blocks ▸ List.mem_append_right _ List.mem_cons_self
  rcases diamondCases blocks newBlocks there with ⟨old, -⟩ | new
  · exact ok.ended b old
  · obtain ⟨body, last, same, -, ends, quiet, plain⟩ := postEnded insts op (ok.ended cur inside)
    simp only [diamond, List.mem_cons, List.not_mem_nil, or_false] at new
    rcases new with rfl | rfl | rfl | rfl
    · exact ⟨pre, _, rfl, rfl, quiet⟩
    · exact ⟨[], _, rfl, rfl, fun i absent => absurd absent List.not_mem_nil⟩
    · exact ⟨[], _, rfl, rfl, fun i absent => absurd absent List.not_mem_nil⟩
    · exact ⟨body, last, same, ends, plain⟩

include clean blocks insts op newBlocks unused in
theorem diamondAvailable :
    ∀ b ∈ g.blocks, Reaches g b.label → Available (KnownAt g b) b.insts := by
  have ok := clean.wellFormed
  have inside : cur ∈ f.blocks := blocks ▸ List.mem_append_right _ List.mem_cons_self
  refine (diamondSurvey clean blocks insts op newBlocks unused).available fun b there reaches => ?_
  have known (reaches : Reaches f cur.label) : Available (KnownAt f cur) pre ∧
      (∀ id ∈ sel.usedTemps, knownAtSelect f cur pre id) ∧
      Available (fun v => knownAtSelect f cur pre v ∨ sel.result = some v) post := by
    have available := ok.available cur inside reaches
    rw [insts, Available.append] at available
    exact available
  rcases diamondCases blocks newBlocks there with ⟨old, -⟩ | new
  · have away : b.label ∉ [join, onFalse, onTrue] := fun taken =>
      unused b.label taken (List.mem_map_of_mem old)
    simp only [away, if_false] at reaches ⊢
    exact ok.available b old reaches
  · have away : cur.label ∉ [join, onFalse, onTrue] := fun taken =>
      unused cur.label taken (List.mem_map_of_mem inside)
    simp only [diamond, List.mem_cons, List.not_mem_nil, or_false] at new
    rcases new with rfl | rfl | rfl | rfl
    · simp only [away, if_false] at reaches ⊢
      obtain ⟨earlier, select, -⟩ := known reaches
      exact Available.append.mpr ⟨earlier, fun id used => select id (selectBranchUses used), trivial⟩
    · have named : onTrue ∈ [join, onFalse, onTrue] := by simp
      simp only [named, if_true] at reaches ⊢
      exact ⟨fun id used => .inl ((known reaches).2.1 id (selectJumpUses used)), trivial⟩
    · have named : onFalse ∈ [join, onFalse, onTrue] := by simp
      simp only [named, if_true] at reaches ⊢
      exact ⟨fun id used => .inl ((known reaches).2.1 id (selectJumpUses used)), trivial⟩
    · have named : join ∈ [join, onFalse, onTrue] := List.mem_cons_self
      simp only [named, if_true] at reaches ⊢
      refine (known reaches).2.2.mono fun v held => held.imp_right fun result => ?_
      simp [Block.paramIds, result]

include clean blocks insts op newBlocks signature types apart unused in
theorem diamondClean : Clean g := by
  have ok := clean.wellFormed
  have inside : cur ∈ f.blocks := blocks ▸ List.mem_append_right _ List.mem_cons_self
  have listed : sel ∈ cur.insts := insts ▸ List.mem_append_right _ List.mem_cons_self
  have sound := ok.sound cur inside sel listed
  obtain ⟨id, c, x, y, parts⟩ := selectParts sound (clean.tidy cur inside sel listed) op
  have ext := diamondExtends clean blocks newBlocks signature types
  have defines := diamondDefines blocks insts newBlocks (by rw [parts.result]; rfl)
  obtain ⟨fitsBranch, fitsJump⟩ := diamondFits clean blocks newBlocks signature types parts sound
  obtain ⟨params, results⟩ := diamondDeclared clean blocks insts newBlocks types ⟨id, parts.result⟩
  refine ⟨⟨diamondEntry blocks insts newBlocks signature ok.entry,
    diamondLabels blocks newBlocks apart unused ok.labels, defines ▸ ok.once,
    fun b there => ⟨params b there, results b there⟩,
    fun b there => diamondEnded clean blocks insts op newBlocks there, fun b there j within => ?_,
    diamondAvailable clean blocks insts op newBlocks unused⟩, fun b there j within => ?_⟩
  · rcases diamondPlaced blocks insts newBlocks there within with old | rfl | ⟨k, arm, rfl⟩
    · have was := (clean.inst old).1
      exact ⟨ext.fitSelf ok was, fun id used => defines ▸ was.defined id used⟩
    · exact ⟨fitsBranch, fun id used => defines ▸ sound.defined id (selectBranchUses used)⟩
    · exact ⟨fitsJump k arm, fun id used => defines ▸ sound.defined id (selectJumpUses used)⟩
  · rcases diamondPlaced blocks insts newBlocks there within with old | rfl | ⟨k, -, rfl⟩
    · exact (clean.inst old).2.1
    · exact fun absent => absurd absent (List.cons_ne_nil _ _)
    · exact fun absent => absurd absent (List.cons_ne_nil _ _)

end

end SsaCodegen.X64.Legalize
