import SsaCodegen.Proofs.Execution.Defined
import SsaCodegen.Proofs.Opt.ConstantFold
import SsaCodegen.Proofs.Verify.Structure
/-! What an instruction folds to does in every state what the instruction does there, as long
as the constants that were recorded hold in it. Words of `i32` values are sign extended, so a
comparison of them may be folded at 64 bits. -/
namespace SsaCodegen
open Semantics Structure
open ConstantFold (Known Cheaper Folds fold? isFoldable foldBinary exponent? asConstant compareBits)

def Value.Extended (ty : Ty) : Value → Prop
  | .int word => ty = .i32 → Ty.i32.canonical word = word
  | _ => True

instance (ty : Ty) (v : Value) : Decidable (v.Extended ty) :=
  match v with
  | .int word => inferInstanceAs (Decidable (ty = .i32 → Ty.i32.canonical word = word))
  | .temp _ | .bool _ | .float _ => isTrue trivial

def Inst.Extended (f : Func) (inst : Inst) : Prop :=
  (∀ e ∈ inst.operands.zipIdx, e.1.Extended (operandTy f inst e.2)) ∧
  ∀ e ∈ inst.targets.zip inst.targetArgs, ∀ bb ∈ f.blocks, bb.label = e.1 →
    ∀ a ∈ e.2.zip bb.params, a.1.Extended a.2.ty

instance (f : Func) (inst : Inst) : Decidable (inst.Extended f) :=
  inferInstanceAs (Decidable (_ ∧ _))

def SignExtended (f : Func) : Prop := ∀ inst ∈ f.insts, inst.Extended f

instance (f : Func) : Decidable (SignExtended f) := inferInstanceAs (Decidable (∀ inst ∈ f.insts, _))

structure Told (f : Func) (known : Known) (regs : Registers) (inst : Inst) : Prop where
  defined : ∀ id ∈ inst.usedTemps, IsDefined regs id
  recorded : ∀ id ∈ inst.usedTemps, ∀ word, known.getD id none = some word →
    regs id = some word ∧ (f.valueType id).canonical word = word

section Instruction
variable {World : Type} {o : Surroundings World} {f : Func} {known : Known} {inst j : Inst}
  {s : State World} (told : Told f known s.regs inst) (extended : inst.Extended f)
include told

theorem readDefined {v : Value} (inside : v ∈ inst.operands) (ty : Ty) :
    ∃ word, readAs s.regs ty v = some word := by
  cases v with
  | temp id => exact Option.isSome_iff_exists.mp (told.defined id (Inst.operandUsed inside))
  | _ => exact ⟨_, rfl⟩

include extended

theorem readKnown {k : Nat} {v : Value} {word : Word} (there : inst.operands[k]? = some v)
    (value : known.value? v = some word) (plain : operandTy f inst k ≠ .b1) :
    readAs s.regs (operandTy f inst k) v = some word := by
  cases v with
  | temp id => exact (told.recorded id (Inst.operandUsed (List.mem_of_getElem? there)) word value).1
  | int literal =>
    cases Option.some.inj value
    have held := extended.1 (.int word, k) (List.mem_zipIdx_iff_getElem?.mpr there)
    refine congrArg some ?_
    cases ty : operandTy f inst k with
    | i32 => exact held ty
    | b1 => exact absurd ty plain
    | _ => rfl
  | bool flag => exact value
  | float bits => cases value

end Instruction

theorem readTwo {f : Func} {inst : Inst} {regs : Registers} {a b : Value} {x y : Word}
    (operands : inst.operands = [a, b]) (left : readAs regs (operandTy f inst 0) a = some x)
    (right : readAs regs (operandTy f inst 1) b = some y) :
    readOperands f inst regs = some [x, y] := by
  rw [readOperands, operands]
  simp [left, right]

theorem readOne {f : Func} {inst : Inst} {regs : Registers} {a : Value} {x : Word}
    (operands : inst.operands = [a]) (reads : readAs regs (operandTy f inst 0) a = some x) :
    readOperands f inst regs = some [x] := by
  rw [readOperands, operands]
  simp [reads]

theorem foldableComputes {World : Type} (o : Surroundings World) (f : Func) {inst : Inst}
    (foldable : isFoldable inst.op = true) (x y : Word) :
    compute o f inst [x, y] = Arithmetic.operate inst.op inst.ty x y := by
  unfold compute
  cases op : inst.op <;> rw [op] at foldable <;> first | rfl | cases foldable

theorem foldableOperands (f : Func) {inst : Inst} (foldable : isFoldable inst.op = true) :
    operandTy f inst 0 = inst.ty ∧ ∀ k, operandTy f inst k = inst.ty ∨ operandTy f inst k = .i64 := by
  unfold operandTy
  cases op : inst.op <;> rw [op] at foldable <;> try exact absurd foldable (by decide)
  case ishl | ushr | sshr =>
    refine ⟨rfl, fun k => ?_⟩
    by_cases first : k = 0
    · exact .inl (if_pos first)
    · exact .inr (if_neg first)
  all_goals exact ⟨rfl, fun _ => .inl rfl⟩

theorem stepsAlike {World : Type} {o : Surroundings World} {f : Func} {i j : Inst} {s : State World}
    {was now : List Word} {x y : Word} (result : j.result = i.result) (ty : j.ty = i.ty)
    (plain : i.isTerminator = false) (plain' : j.isTerminator = false)
    (reads : readOperands f i s.regs = some was) (reads' : readOperands f j s.regs = some now)
    (computes : compute o f i was = some x) (computes' : compute o f j now = some y)
    (same : i.ty.canonical y = i.ty.canonical x) : step o f j s = step o f i s := by
  rw [stepComputes reads plain computes, stepComputes reads' plain' computes', write, write, result,
    ty, same]

theorem exchangeSteps {World : Type} {o : Surroundings World} {f : Func} {i j : Inst} {s : State World}
    {a : Value} {x y z literal : Word} (int : i.ty.isInt = true) (foldable : isFoldable i.op = true)
    (foldable' : isFoldable j.op = true) (result : j.result = i.result) (ty : j.ty = i.ty)
    (reads : readOperands f i s.regs = some [x, y]) (left : readAs s.regs i.ty a = some x)
    (operands : j.operands = [a, .int literal]) (gives : Arithmetic.operate i.op i.ty x y = some z)
    (gives' : Arithmetic.operate j.op i.ty x literal = some z) : step o f j s = step o f i s := by
  obtain ⟨first, second⟩ := foldableOperands f foldable'
  have first : readAs s.regs (operandTy f j 0) a = some x := by rw [first, ty, left]
  have computes := (foldableComputes o f foldable x y).trans gives
  have plain := (ConstantFold.foldableInfo foldable).1
  have plain' := (ConstantFold.foldableInfo foldable').1
  -- the literal is read at the type of the operation, or as a whole word
  rcases second 1 with located | located
  · have reads' := readTwo operands first (congrArg (readAs s.regs · (.int literal)) located)
    refine stepsAlike result ty plain plain' reads reads' computes ?_ rfl
    rw [foldableComputes o f foldable', ty, Arithmetic.operateCanonical int, gives']
  · have reads' := readTwo operands first (congrArg (readAs s.regs · (.int literal)) located)
    refine stepsAlike result ty plain plain' reads reads' computes ?_ rfl
    rw [foldableComputes o f foldable', ty]
    exact gives'

theorem cheaperOperates {ty : Ty} {op op' : Opcode} {y : Word} {k n : Nat} (int : ty.isInt = true)
    (power : exponent? y ty = some k) (cheaper : Cheaper k op op' n) (x : Word) :
    Arithmetic.operate op ty x y = Arithmetic.operate op' ty x (BitVec.ofNat 64 n) := by
  cases cheaper with
  | multiply => exact Arithmetic.timesPower int power x
  | divide => exact Arithmetic.overPower int power x
  | remainder => exact Arithmetic.modPower int power x

theorem cheaperGives (ty : Ty) {op op' : Opcode} {k n : Nat} (cheaper : Cheaper k op op' n)
    (x y : Word) : ∃ z, Arithmetic.operate op' ty x y = some z := by
  cases cheaper <;> exact ⟨_, rfl⟩

section Folds
variable {World : Type} (o : Surroundings World) {f : Func} {known : Known} {inst j : Inst}
  {s : State World} (told : Told f known s.regs inst) (extended : inst.Extended f)

theorem foldableNotBool (int : inst.ty.isInt = true) (foldable : isFoldable inst.op = true) (k : Nat) :
    operandTy f inst k ≠ .b1 := by
  rcases (foldableOperands f foldable).2 k with ty | ty <;> rw [ty]
  · intro bool
    rw [bool] at int
    cases int
  · decide

include told extended

theorem operationSteps {a b : Value} {x y z : Word} (foldable : isFoldable inst.op = true)
    (int : inst.ty.isInt = true) (operands : inst.operands = [a, b])
    (left : known.value? a = some x) (right : known.value? b = some y)
    (gives : foldBinary inst.op x y inst.ty = some z) :
    step o f (asConstant inst .iconst (.int z)) s = step o f inst s := by
  have plain := (ConstantFold.foldableInfo foldable).1
  have notBool := foldableNotBool (f := f) int foldable
  have reads := readTwo operands
    (readKnown told extended (k := 0) (by rw [operands]; rfl) left (notBool 0))
    (readKnown told extended (k := 1) (by rw [operands]; rfl) right (notBool 1))
  rw [Arithmetic.foldsToResult int] at gives
  exact stepsAlike rfl rfl plain rfl reads (readOne rfl rfl)
    ((foldableComputes o f foldable x y).trans gives) rfl (Ty.canonicalTwice _ _)

theorem strengthSteps {a b : Value} {y : Word} {k n : Nat} {op : Opcode} (int : inst.ty.isInt = true)
    (operands : inst.operands = [a, b]) (right : known.value? b = some y)
    (power : exponent? y inst.ty = some k) (cheaper : Cheaper k inst.op op n) :
    step o f { inst with op := op, operands := [a, .int (BitVec.ofNat 64 n)] } s =
      step o f inst s := by
  obtain ⟨foldable, foldable'⟩ := cheaper.foldable
  obtain ⟨x, left⟩ := readDefined told (v := a) (by rw [operands]; exact List.mem_cons_self) inst.ty
  have read := readKnown told extended (k := 1) (by rw [operands]; rfl) right
    (foldableNotBool int foldable 1)
  have reads := readTwo operands ((foldableOperands f foldable).1 ▸ left) read
  obtain ⟨z, gives⟩ := cheaperGives inst.ty cheaper x (BitVec.ofNat 64 n)
  exact exchangeSteps int foldable foldable' rfl rfl reads left rfl
    ((cheaperOperates int power cheaper x).trans gives) gives

theorem knownHeld {k : Nat} {v : Value} {word : Word} (there : inst.operands[k]? = some v)
    (value : known.value? v = some word) (narrow : operandTy f inst k = .i32)
    (typed : typeOf f v .i32 = .i32) : Ty.i32.canonical word = word := by
  cases v with
  | temp id =>
    have held := (told.recorded id (Inst.operandUsed (List.mem_of_getElem? there)) word value).2
    have ty : f.valueType id = .i32 := typed
    rwa [ty] at held
  | int literal =>
    cases Option.some.inj value
    exact extended.1 (.int word, k) (List.mem_zipIdx_iff_getElem?.mpr there) narrow
  | _ => cases typed

omit told extended in
theorem comparisonEvaluates
    (kind : compareTy f inst = .i32 ∨ compareTy f inst = .i64 ∨ compareTy f inst = .r64) (x y : Word) :
    comparison f inst x y = inst.intCond.evaluate x y (compareTy f inst).bits := by
  rw [comparison]
  rcases kind with ty | ty | ty <;> rw [ty]
  · exact (Arithmetic.evaluateCompares _ x y).1.symm
  · simp only [Ty.bits, BitVec.setWidth_eq, (Arithmetic.evaluateCompares _ x y).2]
  · simp only [Ty.bits, BitVec.setWidth_eq, (Arithmetic.evaluateCompares _ x y).2]

omit told extended in
theorem comparedTypes (fit : FitInst f inst) (op : inst.op = .icmp) {a b : Value}
    (operands : inst.operands = [a, b]) : typeOf f a (compareTy f inst) = compareTy f inst ∧
      typeOf f b (compareTy f inst) = compareTy f inst ∧
      (compareTy f inst = .i32 ∨ compareTy f inst = .i64 ∨ compareTy f inst = .r64) := by
  have types := fit.types
  simp only [typeMessages, op, List.append_eq_nil_iff, compareMessages, operands, twoOperands] at types
  have kind {ty : Ty} (fits : (ty.isInt || ty.isRef) = true) : ty = .i32 ∨ ty = .i64 ∨ ty = .r64 := by
    cases ty <;> simp [Ty.isInt, Ty.isRef] at fits ⊢
  obtain ⟨-, types⟩ := types
  split at types
  · rename_i fits
    have second := expectTyIff.mp types
    have same : compareTy f inst = typeOf f a (typeOf f b .i64) := by
      simp only [compareTy, Inst.operand, operands, List.getD_cons_zero, List.getD_cons_succ]
      cases a with
      | temp id => rfl
      | int word =>
        cases b with
        | temp id =>
          dsimp only [typeOf] at second ⊢
          exact second
        | int word => rfl
        | _ => cases second
      | _ => cases fits
    rw [same]
    refine ⟨?_, second, kind fits⟩
    cases a with
    | temp id => rfl
    | int word =>
      dsimp only [typeOf] at fits ⊢
      rw [if_pos fits]
    | _ => cases fits
  · cases types

omit told extended in
theorem compareWidth {a b : Value} (operands : inst.operands = [a, b])
    (kind : compareTy f inst = .i32 ∨ compareTy f inst = .i64 ∨ compareTy f inst = .r64) :
    compareBits f a = (compareTy f inst).bits ∨ (compareTy f inst = .i32 ∧ compareBits f a = 64) := by
  have wide (absent : compareBits f a = 64) : compareBits f a = (compareTy f inst).bits ∨
      (compareTy f inst = .i32 ∧ compareBits f a = 64) := by
    rcases kind with ty | ty | ty <;> rw [ty, absent]
    · exact .inr ⟨rfl, rfl⟩
    · exact .inl rfl
    · exact .inl rfl
  cases a with
  | temp id =>
    refine .inl ?_
    simp only [compareTy, Inst.operand, operands, List.getD_cons_zero]
    rfl
  | _ => exact wide rfl

theorem compareSteps {a b : Value} {x y : Word} (fit : FitInst f inst) (op : inst.op = .icmp)
    (operands : inst.operands = [a, b]) (left : known.value? a = some x)
    (right : known.value? b = some y) :
    step o f (asConstant inst .bconst (.bool (inst.intCond.evaluate x y (compareBits f a)))) s =
      step o f inst s := by
  obtain ⟨first, second, kind⟩ := comparedTypes fit op operands
  have located (k : Nat) : operandTy f inst k = compareTy f inst := by simp only [operandTy, op]
  have notBool (k : Nat) : operandTy f inst k ≠ .b1 := by
    rw [located]
    rcases kind with ty | ty | ty <;> rw [ty] <;> decide
  have plain : inst.isTerminator = false := by rw [Inst.isTerminator, op]; rfl
  have reads := readTwo operands
    (readKnown told extended (k := 0) (by rw [operands]; rfl) left (notBool 0))
    (readKnown told extended (k := 1) (by rw [operands]; rfl) right (notBool 1))
  have computes : compute o f inst [x, y] =
      some (BitVec.ofNat 64 (comparison f inst x y).toNat) := by
    unfold compute
    rw [op]
  refine stepsAlike rfl rfl plain rfl reads (readOne rfl rfl) computes rfl ?_
  have same : inst.intCond.evaluate x y (compareBits f a) = comparison f inst x y := by
    rw [comparisonEvaluates kind]
    rcases compareWidth operands kind with width | ⟨narrow, wide⟩
    · rw [width]
    -- on sign-extended words a comparison at 64 bits is one at 32
    · have left := knownHeld told extended (k := 0) (by rw [operands]; rfl) left
        ((located 0).trans narrow) (narrow ▸ first)
      have right := knownHeld told extended (k := 1) (by rw [operands]; rfl) right
        ((located 1).trans narrow) (narrow ▸ second)
      rw [wide, narrow, (Arithmetic.evaluateCompares _ x y).2,
        Arithmetic.comparesNarrow _ left right]
      exact (Arithmetic.evaluateCompares _ x y).1.symm
  rw [same]

theorem branchSteps {cond : Value} {rest : List Value} {first second : String} {c : Word} {k : Nat}
    (fit : FitInst f inst) (op : inst.op = .brif) (operands : inst.operands = cond :: rest)
    (targets : inst.targets = [first, second]) (value : known.value? cond = some c)
    (edge : k = if c = 0 then 1 else 0) :
    step o f { inst with
      op := .jump
      operands := []
      targets := [inst.target k]
      targetArgs := [inst.argsOf k]
      enc := {} } s = step o f inst s := by
  obtain ⟨⟨-, most⟩, -, -⟩ := shapeIff.mp fit.shape
  have alone : inst.operands = [cond] := by
    rw [op, operands] at most
    rw [operands, List.eq_nil_of_length_eq_zero (l := rest)]
    exact Nat.le_zero.mp (Nat.le_of_succ_le_succ (most.resolve_left (by decide)))
  have notBool : operandTy f inst 0 ≠ .b1 := by simp [operandTy, op]
  have reads := readOne alone
    (readKnown told extended (k := 0) (by rw [operands]; rfl) value notBool)
  have last : inst.isTerminator = true := by rw [Inst.isTerminator, op]; rfl
  have departs : depart f inst [c] = .takes k := by
    unfold depart
    rw [op, edge]
    simp
  have target : inst.targets[k]? = some (inst.target k) := by
    simp [Inst.target, targets, ConstantFold.edgeBelow edge]
  rw [stepTakes o last reads departs]
  refine congrArg Step.exits ?_
  unfold takeEdge
  rw [target]
  rfl

theorem foldSteps (fit : FitInst f inst) :
    step o f ((fold? f known inst).getD inst) s = step o f inst s := by
  cases folds : fold? f known inst with
  | none => rfl
  | some j =>
    cases Folds.of folds with
    | operation foldable int operands left right gives =>
      exact operationSteps o told extended foldable int operands left right gives
    | strength int operands right power cheaper =>
      exact strengthSteps o told extended int operands right power cheaper
    | comparison op operands left right => exact compareSteps o told extended fit op operands left right
    | branch k op operands targets value edge =>
      exact branchSteps o told extended fit op operands targets value edge

end Folds

theorem smallCanonical {n : Nat} (small : n < 2 ^ 31) :
    Ty.i32.canonical (BitVec.ofNat 64 n) = BitVec.ofNat 64 n := by
  have low : ((BitVec.ofNat 64 n).setWidth 32).toNat = n := by
    rw [BitVec.toNat_setWidth, BitVec.toNat_ofNat]
    omega
  have positive : ((BitVec.ofNat 64 n).setWidth 32).msb = false := by
    rw [BitVec.msb_eq_false_iff_two_mul_lt, low]
    omega
  refine BitVec.eq_of_toNat_eq ?_
  rw [Ty.canonical, BitVec.signExtend_eq_setWidth_of_msb_false positive, BitVec.toNat_setWidth, low,
    BitVec.toNat_ofNat]

section Extended
variable {f : Func} {known : Known} {inst j : Inst} (extended : inst.Extended f)
include extended

omit extended in
theorem cheaperExtended {k n : Nat} {op : Opcode} (below : k < inst.ty.bits)
    (cheaper : Cheaper k inst.op op n) (operands : List Value) :
    (Value.int (BitVec.ofNat 64 n)).Extended
      (operandTy f { inst with op := op, operands := operands } 1) := by
  generalize inst.op = was at cheaper
  cases cheaper with
  | multiply | divide => exact fun narrow => nomatch narrow
  | remainder =>
    intro narrow
    have narrow : inst.ty = .i32 := narrow
    rw [narrow] at below
    have small := Nat.pow_le_pow_right (show 0 < 2 by decide) (Nat.le_of_lt_succ below)
    have positive := Nat.two_pow_pos k
    refine smallCanonical ?_
    rw [Nat.one_shiftLeft]
    omega

theorem foldExtended (sound : SoundInst f inst) : ((fold? f known inst).getD inst).Extended f := by
  refine ⟨?_, fun e edge => extended.2 e ((ConstantFold.foldNarrows sound).edges e edge)⟩
  cases folds : fold? f known inst with
  | none => exact extended.1
  | some j =>
    cases Folds.of folds with
    | operation foldable int operands left right gives =>
      intro e inside
      rw [List.mem_singleton.mp inside]
      intro narrow
      have narrow : inst.ty = .i32 := narrow
      rw [narrow] at gives
      obtain ⟨low, -, rfl⟩ := Option.map_eq_some_iff.mp gives
      exact congrArg (BitVec.signExtend 64) (narrowExtended low)
    | @strength a b y k n op int operands right power cheaper =>
      obtain ⟨foldable, foldable'⟩ := cheaper.foldable
      intro e inside
      rcases List.mem_cons.mp inside with rfl | inside
      · have first := extended.1 (a, 0) (by rw [operands]; exact List.mem_cons_self)
        rw [(foldableOperands f foldable).1] at first
        let made : Inst := { inst with op := op, operands := [a, .int (BitVec.ofNat 64 n)] }
        have read : operandTy f made 0 = inst.ty := (foldableOperands f foldable').1
        show a.Extended (operandTy f made 0)
        rwa [read]
      · rw [List.mem_singleton.mp inside]
        exact cheaperExtended ((Arithmetic.exponentIff int).mp power).1 cheaper _
    | comparison => exact fun e inside => List.mem_singleton.mp inside ▸ trivial
    | branch => exact fun e inside => nomatch inside

end Extended

theorem foldTotal {f : Func} {known : Known} {inst j : Inst} (folds : fold? f known inst = some j) :
    j.op.info.mayTrap = false := by
  cases Folds.of folds with
  | strength _ _ _ _ cheaper =>
    generalize inst.op = was at cheaper
    cases cheaper <;> rfl
  | _ => rfl

end SsaCodegen
