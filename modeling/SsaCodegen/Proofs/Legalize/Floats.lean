import SsaCodegen.Proofs.Ir.Expand
import SsaCodegen.X64.Legalize
/-! Lifting float literals is an expansion. The constants in front of an instruction read
nothing and define new floats, and each literal gives way to one of them. -/
namespace SsaCodegen.X64.Legalize
open SsaCodegen.Structure

structure Constants (g : Func) (n : Nat) (consts : List Inst) (m : Nat) : Prop where
  count : m = n + consts.length
  results : consts.filterMap Inst.result = List.range' n consts.length
  each : ∀ c ∈ consts, c.op = .fconst ∧ c.usedTemps = [] ∧ FitInst g c ∧ c.Tidy ∧
    ∀ id, c.result = some id → g.valueTypes[id]? = some c.ty

theorem Constants.append {g : Func} {n m k : Nat} {first second : List Inst}
    (a : Constants g n first m) (b : Constants g m second k) : Constants g n (first ++ second) k where
  count := by rw [b.count, a.count, List.length_append, Nat.add_assoc]
  results := by
    rw [List.filterMap_append, a.results, b.results, a.count, List.length_append,
      List.range'_append_1]
  each c inside := (List.mem_append.mp inside).elim (a.each c) (b.each c)

structure Replaces (f g : Func) (n m : Nat) (vs ws : List Value) : Prop where
  types : SameTypes f g vs ws
  temps : ∀ id, .temp id ∈ ws → .temp id ∈ vs ∨ n ≤ id ∧ id < m

section
variable {f g : Func} (r : Rewrites f g) {total : Nat}
  (typed : ∀ id, f.numValues ≤ id → id < total → g.valueTypes[id]? = some .f64)
include r typed

theorem liftFloatsReplaces (pos : SourcePos) {vs : List Value}
    (old : ∀ id, .temp id ∈ vs → id < f.numValues) {n : Nat} (start : f.numValues ≤ n) :
    n ≤ (liftFloats pos n vs).2.2 ∧ ((liftFloats pos n vs).2.2 ≤ total →
      Constants g n (liftFloats pos n vs).1 (liftFloats pos n vs).2.2 ∧
      Replaces f g n (liftFloats pos n vs).2.2 vs (liftFloats pos n vs).2.1) := by
  induction vs generalizing n with
  | nil =>
    exact ⟨Nat.le_refl n, fun _ => ⟨⟨rfl, rfl, fun c absent => absurd absent List.not_mem_nil⟩,
      trivial, fun id absent => absurd absent List.not_mem_nil⟩⟩
  | cons v rest ih =>
    have later : ∀ id, .temp id ∈ rest → id < f.numValues :=
      fun id inside => old id (List.mem_cons_of_mem _ inside)
    unfold liftFloats
    split
    · rename_i float
      obtain ⟨le, others⟩ := ih later (Nat.le_succ_of_le start)
      refine ⟨Nat.le_of_succ_le le, fun below => ?_⟩
      obtain ⟨consts, replaces⟩ := others below
      have ty := typed n start (Nat.lt_of_lt_of_le le below)
      have valueTy : g.valueType n = .f64 := by simp [Func.valueType, ty]
      cases v <;> try cases float
      rename_i bits
      have one : Constants g n [{
          op := .fconst, ty := .f64, operands := [.float bits], pos := pos, result := some n }]
          (n + 1) := by
        refine ⟨rfl, rfl, fun c inside => ?_⟩
        cases List.mem_singleton.mp inside
        refine ⟨rfl, rfl, ⟨rfl, rfl, fun present => absurd rfl present,
          fun e absent => absurd absent (by simp)⟩, fun _ => rfl, fun id same => ?_⟩
        cases same
        exact ty
      refine ⟨one.append consts, ⟨fun _ => valueTy, replaces.types⟩, fun id inside => ?_⟩
      rcases List.mem_cons.mp inside with same | there
      · cases same
        exact .inr ⟨Nat.le_refl _, le⟩
      · exact (replaces.temps id there).imp (List.mem_cons_of_mem _) fun range =>
          ⟨Nat.le_of_succ_le range.1, range.2⟩
    · obtain ⟨le, others⟩ := ih later start
      refine ⟨le, fun below => ?_⟩
      obtain ⟨consts, replaces⟩ := others below
      refine ⟨consts,
        ⟨typeOfSame fun id same => r.toExtends.valueType (old id (same ▸ List.mem_cons_self)),
        replaces.types⟩, fun id inside => ?_⟩
      rcases List.mem_cons.mp inside with rfl | there
      · exact .inl List.mem_cons_self
      · exact (replaces.temps id there).imp_left (List.mem_cons_of_mem _)

theorem liftListsReplaces (pos : SourcePos) {lists : List (List Value)}
    (old : ∀ vs ∈ lists, ∀ id, .temp id ∈ vs → id < f.numValues) {n : Nat}
    (start : f.numValues ≤ n) :
    n ≤ (liftFloatLists pos n lists).2.2 ∧ ((liftFloatLists pos n lists).2.2 ≤ total →
      Constants g n (liftFloatLists pos n lists).1 (liftFloatLists pos n lists).2.2 ∧
      SameTypeLists f g lists (liftFloatLists pos n lists).2.1 ∧
      ∀ ws ∈ (liftFloatLists pos n lists).2.1, ∀ id, .temp id ∈ ws →
        (∃ vs ∈ lists, .temp id ∈ vs) ∨ n ≤ id ∧ id < (liftFloatLists pos n lists).2.2) := by
  induction lists generalizing n with
  | nil =>
    exact ⟨Nat.le_refl n, fun _ => ⟨⟨rfl, rfl, fun c absent => absurd absent List.not_mem_nil⟩,
      trivial, fun ws absent => absurd absent List.not_mem_nil⟩⟩
  | cons vs rest ih =>
    unfold liftFloatLists
    dsimp only
    obtain ⟨le, now⟩ := liftFloatsReplaces r typed pos (old vs List.mem_cons_self) start
    obtain ⟨le', onward⟩ := ih (fun ws listed => old ws (List.mem_cons_of_mem _ listed))
      (Nat.le_trans start le)
    refine ⟨Nat.le_trans le le', fun below => ?_⟩
    obtain ⟨consts, replaces⟩ := now (Nat.le_trans le' below)
    obtain ⟨more, types, temps⟩ := onward below
    refine ⟨consts.append more, ⟨replaces.types, types⟩, fun ws listed id inside => ?_⟩
    rcases List.mem_cons.mp listed with rfl | there
    · exact (replaces.temps id inside).imp (fun found => ⟨vs, List.mem_cons_self, found⟩)
        fun range => ⟨range.1, Nat.lt_of_lt_of_le range.2 le'⟩
    · exact (temps ws there id inside).imp
        (fun ⟨us, found, same⟩ => ⟨us, List.mem_cons_of_mem _ found, same⟩)
        fun range => ⟨Nat.le_trans le range.1, range.2⟩

end

theorem liftConstant {f : Func} {i : Inst} (fit : FitInst f i) (constant : isConstant i.op = true)
    (other : i.op ≠ .fconst) (n : Nat) : (liftFloats i.pos n i.operands).2.1 = i.operands := by
  obtain ⟨⟨low, high⟩, -, -⟩ := shapeIff.mp fit.shape
  have types := fit.types
  have kind : i.op = .iconst ∨ i.op = .bconst := by
    simp only [isConstant, Bool.or_eq_true, beq_iff_eq] at constant
    exact constant.resolve_right other
  have one : i.operands.length = 1 := by
    rcases kind with op | op <;> rw [op] at low high <;>
      exact Nat.le_antisymm (high.resolve_left (by decide)) low
  obtain ⟨v, operands⟩ := List.length_eq_one_iff.mp one
  have literal : v.isFloatConst = false := by
    rcases kind with op | op <;>
      simp only [typeMessages, op, operands, firstOperand, List.append_eq_nil_iff,
        complainUnlessIff] at types <;>
      cases v <;> first | rfl | simp [isIntConst, isBoolConst] at types
  simp [operands, liftFloats, literal]

theorem Constants.expansion {f g : Func} (ok : WellFormed f) (r : Rewrites f g) {i : Inst}
    (inside : i ∈ f.insts) {n m : Nat} {consts : List Inst} (front : Constants g n consts m)
    {operands : List Value} {args : List (List Value)} (types : SameTypes f g i.operands operands)
    (lists : SameTypeLists f g i.targetArgs args)
    (reads : ∀ id ∈ Inst.usedTemps { i with operands := operands, targetArgs := args },
      id ∈ i.usedTemps ∨ n ≤ id ∧ id < m)
    (fixed : isConstant i.op = true → operands = i.operands) (opening : i.op = .prologue → consts = []) :
    Expansion g n i (consts ++ [{ i with operands := operands, targetArgs := args }]) m := by
  obtain ⟨sound, declared⟩ := ok.inst inside
  have either {j : Inst} (listed : j ∈ consts ++ [{ i with operands := operands, targetArgs := args }]) :
      j ∈ consts ∨ j = { i with operands := operands, targetArgs := args } :=
    (List.mem_append.mp listed).imp_right List.mem_singleton.mp
  constructor
  case le => exact front.count ▸ Nat.le_add_right ..
  case shape =>
    refine ⟨consts, _, rfl, fun c listed => ?_, rfl, rfl, fun opens => ⟨opening opens, opens⟩⟩
    rw [Inst.isTerminator, (front.each c listed).1]
    exact ⟨rfl, fun same => by cases same⟩
  case results =>
    have numbers : List.range' n (m - n) = consts.filterMap Inst.result := by
      rw [front.results, front.count, Nat.add_sub_cancel_left]
    have own : [{ i with operands := operands, targetArgs := args }].filterMap Inst.result =
        i.result.toList := by
      cases result : i.result <;> simp
    rw [numbers, List.filterMap_append, own]
    exact List.perm_append_comm
  case available =>
    refine Available.append.mpr ⟨.ofUnused fun c listed => (front.each c listed).2.1,
      fun id used => (reads id used).imp_right fun range => ?_, trivial⟩
    refine List.mem_filterMap.mp ?_
    rw [front.results, List.mem_range'_1, ← front.count]
    exact range
  case fits =>
    intro j listed
    rcases either listed with const | rfl
    · exact (front.each j const).2.2.1
    · exact r.toExtends.fit sound.toFitInst rfl rfl rfl rfl rfl types lists fixed
  case tidy =>
    intro tidy j listed
    rcases either listed with const | rfl
    · exact (front.each j const).2.2.2.1
    · intro absent
      exact List.eq_nil_of_length_eq_zero (by rw [lists.length, tidy absent]; rfl)
  case declared =>
    intro j listed
    rcases either listed with const | rfl
    · exact (front.each j const).2.2.2.2
    · exact fun id result => r.toExtends.typeAt (declared id result)

theorem liftPrologue {f : Func} {i : Inst} (fit : FitInst f i) (tidy : i.Tidy) (opens : i.op = .prologue)
    (n : Nat) : (liftFloats i.pos n i.operands).1 ++ (liftFloatLists i.pos
      (liftFloats i.pos n i.operands).2.2 i.targetArgs).1 = [] := by
  obtain ⟨⟨-, most⟩, -, leads⟩ := shapeIff.mp fit.shape
  rw [opens] at most leads
  rw [tidy (List.eq_nil_of_length_eq_zero leads),
    List.eq_nil_of_length_eq_zero (Nat.le_zero.mp (most.resolve_left (by decide)))]
  rfl

theorem liftInstExpansion {f g : Func} (clean : Clean f) (r : Rewrites f g) {total : Nat}
    (typed : ∀ id, f.numValues ≤ id → id < total → g.valueTypes[id]? = some .f64) {i : Inst}
    (inside : i ∈ f.insts) {n : Nat} (start : f.numValues ≤ n) :
    n ≤ (liftInst n i).2 ∧ ((liftInst n i).2 ≤ total →
      Expansion g n i (liftInst n i).1 (liftInst n i).2) := by
  obtain ⟨sound, tidy, -⟩ := clean.inst inside
  have ok := clean.wellFormed
  unfold liftInst
  split
  · exact ⟨Nat.le_refl n, fun _ => .keep ok r inside n⟩
  · rename_i other
    have oldOperands : ∀ id, .temp id ∈ i.operands → id < f.numValues :=
      fun id listed => ok.idBelow (sound.defined id (Inst.operandUsed listed))
    have oldArgs : ∀ vs ∈ i.targetArgs, ∀ id, .temp id ∈ vs → id < f.numValues :=
      fun vs listed id within => ok.idBelow (sound.defined id (Inst.argUsed listed within))
    dsimp only
    obtain ⟨le, now⟩ := liftFloatsReplaces r typed i.pos oldOperands start
    obtain ⟨le', onward⟩ := liftListsReplaces r typed i.pos oldArgs (Nat.le_trans start le)
    refine ⟨Nat.le_trans le le', fun below => ?_⟩
    obtain ⟨consts, replaces⟩ := now (Nat.le_trans le' below)
    obtain ⟨more, types, temps⟩ := onward below
    refine (consts.append more).expansion ok r inside replaces.types types (fun id used => ?_)
      (fun constant => liftConstant sound.toFitInst constant (by simpa using other) n)
      fun opens => liftPrologue sound.toFitInst tidy opens n
    rcases Inst.memUsedTemps.mp used with operand | ⟨ws, within, arg⟩
    · exact (replaces.temps id operand).imp Inst.operandUsed fun range =>
        ⟨range.1, Nat.lt_of_lt_of_le range.2 le'⟩
    · refine (temps ws within id arg).imp (fun was => ?_) fun range => ⟨Nat.le_trans le range.1, range.2⟩
      obtain ⟨vs, was, same⟩ := was
      exact Inst.argUsed was same

theorem liftInstsExpanded {f g : Func} (clean : Clean f) (r : Rewrites f g) {total : Nat}
    (typed : ∀ id, f.numValues ≤ id → id < total → g.valueTypes[id]? = some .f64)
    {insts : List Inst} (inside : ∀ i ∈ insts, i ∈ f.insts) {n : Nat} (start : f.numValues ≤ n) :
    n ≤ (liftInsts n insts).2 ∧ ((liftInsts n insts).2 ≤ total →
      Expanded g n insts (liftInsts n insts).1 (liftInsts n insts).2) := by
  induction insts generalizing n with
  | nil => exact ⟨Nat.le_refl n, fun _ => .nil⟩
  | cons i rest ih =>
    obtain ⟨le, now⟩ := liftInstExpansion clean r typed (inside i List.mem_cons_self) start
    obtain ⟨le', later⟩ := ih (fun j listed => inside j (List.mem_cons_of_mem _ listed))
      (Nat.le_trans start le)
    exact ⟨Nat.le_trans le le', fun below => .cons (now (Nat.le_trans le' below)) (later below)⟩

theorem liftBlocksExpanded {f g : Func} (clean : Clean f) (r : Rewrites f g) {total : Nat}
    (typed : ∀ id, f.numValues ≤ id → id < total → g.valueTypes[id]? = some .f64)
    {blocks : List Block} (inside : ∀ bb ∈ blocks, bb ∈ f.blocks) {n : Nat}
    (start : f.numValues ≤ n) :
    n ≤ (liftBlocks n blocks).2 ∧ ((liftBlocks n blocks).2 ≤ total →
      ExpandedBlocks g n blocks (liftBlocks n blocks).1 (liftBlocks n blocks).2) := by
  induction blocks generalizing n with
  | nil => exact ⟨Nat.le_refl n, fun _ => .nil⟩
  | cons bb rest ih =>
    obtain ⟨le, now⟩ := liftInstsExpanded clean r typed
      (fun _ => Func.memInsts (inside bb List.mem_cons_self)) start
    obtain ⟨le', later⟩ := ih (fun b listed => inside b (List.mem_cons_of_mem _ listed))
      (Nat.le_trans start le)
    exact ⟨Nat.le_trans le le', fun below => .cons (now (Nat.le_trans le' below)) (later below)⟩

theorem liftHeads (next : Nat) (blocks : List Block) :
    (liftBlocks next blocks).1.map Block.head = blocks.map Block.head := by
  induction blocks generalizing next with
  | nil => rfl
  | cons bb rest ih => exact congrArg (_ :: ·) (ih _)

theorem materializeRewrites (f : Func) : Rewrites f (materializeFloats f) ∧
    ∀ id, f.numValues ≤ id → id < (liftBlocks f.numValues f.blocks).2 →
      (materializeFloats f).valueTypes[id]? = some .f64 := by
  refine ⟨⟨rfl, List.prefix_append _ _, liftHeads f.numValues f.blocks⟩, fun id above below => ?_⟩
  have types : (materializeFloats f).valueTypes = f.valueTypes ++
      List.replicate ((liftBlocks f.numValues f.blocks).2 - f.numValues) .f64 := rfl
  rw [types, List.getElem?_append_right above, List.getElem?_replicate]
  exact if_pos (Nat.sub_lt_sub_right above below)

theorem materializeFloatsClean {f : Func} (clean : Clean f) : Clean (materializeFloats f) := by
  obtain ⟨r, typed⟩ := materializeRewrites f
  obtain ⟨-, expanded⟩ := liftBlocksExpanded clean r typed (fun bb => id) (Nat.le_refl _)
  exact clean.expand rfl (List.prefix_append _ _) (expanded (Nat.le_refl _))

end SsaCodegen.X64.Legalize
