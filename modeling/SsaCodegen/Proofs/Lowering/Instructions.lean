import SsaCodegen.Proofs.Lowering.Choices
/-! Integer instructions by their recipes. Whatever places operands and result have, whatever literals the
operands are, and whether the compact form was chosen or not, the code of an instruction leaves what the
instruction computes, and faults exactly where it traps. -/
namespace SsaCodegen.X64
open Structure (typeOf expectTyIff expectIntIff)
open Semantics (Registers readAs readOperands compute act)
open ConstantFold (isFoldable)

variable {u : Undefined} {f : Func} {regs : Registers} {inst : Inst} {m : Machine}

section Single
variable (apart : SlotsApart f) (usable : Usable f (Lower.resultLocation f inst))
include apart usable

theorem constGoes (word : Word) (wide : Bool) : ∃ n,
    perform u (Lower.intConst f inst word wide) m = some (.goes n) ∧
    (n.value f (Lower.resultLocation f inst)).setWidth (widthOf wide) = word.setWidth (widthOf wide) ∧
    Delivered f (Lower.resultLocation f inst) m n := by
  have scratch (x : Word) : Undisturbed m (m.set (gprOf rax) x) := (Undisturbed.refl m).set (by decide) x
  rw [Lower.intConst]
  cases loc : Lower.resultLocation f inst with
  | unassigned =>
    rw [loc] at usable
    exact usable.elim
  | reg r =>
    rw [loc] at usable
    dsimp only
    split
    · obtain ⟨value, delivered⟩ := writtenReg usable (.refl m) rfl word
      exact ⟨_, performOne rfl, congrArg _ value, delivered⟩
    · split
      · next zero =>
        -- a narrow xor clears the upper half too
        have flagged := (Undisturbed.refl m).withFlags (AluOp.xor.flags (m.low 32 (gprOf r)) (m.low 32 (gprOf r)))
        obtain ⟨value, delivered⟩ := writtenReg usable flagged rfl
          ((m.low 32 (gprOf r) ^^^ m.low 32 (gprOf r)).setWidth 64)
        refine ⟨_, performOne rfl, (congrArg _ value).trans ?_, delivered⟩
        rw [BitVec.xor_self, zero]
        cases wide <;> rfl
      · obtain ⟨x, goes, low⟩ := materializeGoes (u := u) (n := m) r word wide
        obtain ⟨value, delivered⟩ := writtenReg usable (.refl m) rfl x
        exact ⟨_, goes, (congrArg _ value).trans low, delivered⟩
  | slot s =>
    rw [loc] at usable
    dsimp only
    split
    · next short =>
      obtain ⟨value, delivered⟩ := writtenSlot usable (.refl m) apart rfl ((word.setWidth 32).signExtend 64)
      refine ⟨_, performOne rfl, (congrArg _ value).trans ?_, delivered⟩
      cases wide with
      | false => exact narrowExtended _
      | true =>
        have fits : fitsInt32 word.toInt = true := by simpa using ((Bool.and_eq_true ..).mp short).2
        exact congrArg (BitVec.setWidth 64) (extendedNarrow fits)
    · obtain ⟨value, delivered⟩ := writtenSlot usable (scratch word) apart rfl word
      exact ⟨_, (performInst rfl _).trans (performOne rfl), congrArg _ value, delivered⟩

theorem constLands (gpr : InGpr inst.ty) {word value : Word} {wide : Bool} (width : wide = inst.ty.isWide)
    (known : Known inst.ty (widthOf inst.ty.isWide) value word) :
    Lands u f inst m (Lower.intConst f inst word wide) value := by
  subst width
  obtain ⟨n, goes, low, delivered⟩ := constGoes (u := u) (m := m) apart usable word inst.ty.isWide
  have held : Known inst.ty (widthOf inst.ty.isWide) value _ := ⟨low.trans known.low, known.flag⟩
  exact ⟨n, goes, held.represents gpr, delivered⟩

variable (placed : OperandsPlaced f regs inst m) {a : Value} (operands : inst.operands = [a])
include placed operands

theorem copyLands (gpr : InGpr inst.ty) (typed : typeOf f a inst.ty = inst.ty) : ∃ x,
    readAs regs inst.ty a = some x ∧ Lands u f inst m (Lower.copy f inst) x := by
  obtain ⟨x, held, reads, loads, known⟩ := loadWhole (u := u) placed (.refl m) rax
    (show inst.operands[0]? = some a by rw [operands]; rfl) typed gpr
  have plain : inst.ty.isFloat = false := beq_false_of_ne gpr.2
  refine ⟨x, reads, ?_⟩
  rw [Lower.copy, plain]
  refine storeLands apart usable loads ((Undisturbed.refl m).set (by decide) held) ?_
  rw [Machine.getSame]
  exact known.represents gpr

theorem sextendLands (op : inst.op = .sextend) (ty : inst.ty = .i64) (typed : typeOf f a .i32 = .i32) : ∃ x,
    readAs regs .i32 a = some x ∧ Lands u f inst m (Lower.extend f inst) ((x.setWidth 32).signExtend 64) := by
  obtain ⟨x, held, reads, loads, known⟩ := loadGoes (u := u) placed (.refl m) rax
    (show inst.operands[0]? = some a by rw [operands]; rfl) typed ⟨by decide, by decide⟩ false
  refine ⟨x, reads, ?_⟩
  rw [Lower.extend, op]
  refine storeLands apart usable ((performAppend loads _).trans (performOne rfl))
    (Undisturbed.set ((Undisturbed.refl m).set (by decide) held) (r := gprOf rax) (by decide) _) ?_
  rw [Machine.getSame, Machine.low, Machine.getSame, ty, show held.setWidth 32 = x.setWidth 32 from known.low]
  rfl

theorem lowHalfLands {ty : Ty} (op : (inst.op == .sextend) = false) (typed : typeOf f a ty = ty)
    (int : ty.isInt = true) : ∃ x, readAs regs ty a = some x ∧
      ∀ word : Word, Represents inst.ty (inst.ty.canonical word) ((x.setWidth 32).setWidth 64) →
        Lands u f inst m (Lower.extend f inst) word := by
  obtain ⟨x, held, reads, loads, known⟩ := loadGoes (u := u) placed (.refl m) rax
    (show inst.operands[0]? = some a by rw [operands]; rfl) typed (intGpr int) true
  have narrow : 32 ≤ widthOf (ty.isWide && true) := by
    cases ty.isWide <;> decide
  refine ⟨x, reads, fun word represents => ?_⟩
  rw [Lower.extend, op]
  refine storeLands apart usable ((performAppend loads _).trans (performOne rfl))
    (Undisturbed.set ((Undisturbed.refl m).set (by decide) held) (r := gprOf rax) (by decide) _) ?_
  rw [Machine.getSame, Machine.getSame, lowBits known.low narrow]
  exact represents

end Single

def Implements {World : Type} (o : Surroundings World) (world : World) (u : Undefined) (f : Func)
    (regs : Registers) (inst : Inst) (m : Machine) (code : List Asm) : Prop :=
  ∃ words, readOperands f inst regs = some words ∧
    match act o f inst words world with
    | .gives seen word after => seen = [] ∧ after = world ∧ Lands u f inst m code word
    | .ends seen ending => seen = [.trap .integerDivisionByZero] ∧ ending = .trapped ∧
      perform u code m = some .faults

def integerRecipes : List Recipe :=
  [.iconst, .bconst, .copy, .alu, .shift, .imul, .div, .icmp, .select, .extend]

section Fits
variable (fit : FitInst f inst)
include fit

theorem operandCount {count : Nat} (least : inst.op.info.minOperands = count)
    (most : inst.op.info.maxOperands = count) (few : count ≠ variadicOperandCount) :
    inst.operands.length = count := by
  obtain ⟨⟨low, high⟩, -, -⟩ := Structure.shapeIff.mp fit.shape
  rw [least] at low
  rw [most] at high
  exact Nat.le_antisymm (high.resolve_left few) low

theorem oneOperand (least : inst.op.info.minOperands = 1) (most : inst.op.info.maxOperands = 1) :
    ∃ a, inst.operands = [a] :=
  List.length_eq_one_iff.mp (operandCount fit least most (by decide))

theorem twoOperands (least : inst.op.info.minOperands = 2) (most : inst.op.info.maxOperands = 2) :
    ∃ a b, inst.operands = [a, b] :=
  List.length_eq_two.mp (operandCount fit least most (by decide))

theorem resultUsable (placed : OperandsPlaced f regs inst m) (one : inst.op.info.result = .one) :
    Usable f (Lower.resultLocation f inst) ∧ inst.ty ≠ .void := by
  have fits := (Structure.shapeIff.mp fit.shape).2.1
  rw [Structure.ResultFits, one] at fits
  rw [Lower.resultLocation]
  cases result : inst.result with
  | none =>
    rw [result] at fits
    exact fits.elim
  | some id =>
    rw [result] at fits
    exact ⟨placed.result id result, by simpa [Ty.isVoid] using fits⟩

variable (recipe : Recipe.ofOpcode inst.op ∈ [Recipe.alu, .shift, .imul, .div])
include recipe

theorem operationShape : isFoldable inst.op = true ∧ inst.op.info.result = .one ∧
    ∃ a b, inst.operands = [a, b] := by
  have known : ∀ op, Recipe.ofOpcode op ∈ [Recipe.alu, .shift, .imul, .div] → isFoldable op = true ∧
      op.info.result = .one ∧ op.info.minOperands = 2 ∧ op.info.maxOperands = 2 := by
    intro op
    cases op <;> decide
  obtain ⟨foldable, one, least, most⟩ := known inst.op recipe
  exact ⟨foldable, one, twoOperands fit least most⟩

theorem operationTypes {a b : Value} (operands : inst.operands = [a, b]) :
    inst.ty.isInt = true ∧ typeOf f a inst.ty = inst.ty ∧ Semantics.operandTy f inst 0 = inst.ty ∧
      if Recipe.ofOpcode inst.op = .shift then
        (typeOf f b .i64).isInt = true ∧ Semantics.operandTy f inst 1 = .i64
      else typeOf f b inst.ty = inst.ty ∧ Semantics.operandTy f inst 1 = inst.ty := by
  have types := fit.types
  unfold Semantics.operandTy
  cases op : inst.op <;> rw [op] at recipe <;> try exact absurd recipe (by decide)
  all_goals
    simp only [Structure.typeMessages, op] at types
    split at types
    · next int =>
      simp only [Structure.twoOperands, operands, List.append_eq_nil_iff, expectTyIff, expectIntIff] at types
      exact ⟨int, types.1, rfl, types.2, rfl⟩
    · cases types

end Fits

section Whole
variable {World : Type} {o : Surroundings World} {world : World}

theorem landsImplements {words : List Word} {word : Word} {code : List Asm}
    (reads : readOperands f inst regs = some words) (computes : compute o f inst words = some word)
    (lands : Lands u f inst m code word) : Implements o world u f regs inst m code := by
  refine ⟨words, reads, ?_⟩
  rw [act, computes]
  exact ⟨rfl, rfl, lands⟩

theorem oneImplements {a : Value} {ty : Ty} {x word : Word} {code : List Asm}
    (operands : inst.operands = [a]) (reads : readAs regs ty a = some x) (lands : Lands u f inst m code word)
    (typed : Semantics.operandTy f inst 0 = ty) (computes : compute o f inst [x] = some word) :
    Implements o world u f regs inst m code :=
  landsImplements (readOne operands (typed ▸ reads)) computes lands

variable (apart : SlotsApart f) (fit : FitInst f inst) (placed : OperandsPlaced f regs inst m)
include apart fit placed

theorem operationImplements (recipe : Recipe.ofOpcode inst.op ∈ [Recipe.alu, .shift, .imul, .div])
    (encoded : inst.enc.recipe? = some (Recipe.ofOpcode inst.op)) :
    Implements o world u f regs inst m (lowerInst f inst) := by
  obtain ⟨foldable, one, a, b, operands⟩ := operationShape fit recipe
  obtain ⟨int, left, first, second⟩ := operationTypes fit recipe operands
  obtain ⟨usable, -⟩ := resultUsable fit placed one
  have computes := foldableComputes o f foldable
  have operates {amountTy : Ty} {code : List Asm} (amount : Semantics.operandTy f inst 1 = amountTy)
      (operates : Operates u f regs inst m a b amountTy code) : Implements o world u f regs inst m code := by
    obtain ⟨x, y, z, reads, reads', gives, lands⟩ := operates
    exact landsImplements (readTwo operands (first ▸ reads) (amount ▸ reads')) ((computes x y).trans gives) lands
  rw [lowerInst, encoded]
  simp only [List.mem_cons, List.not_mem_nil, or_false] at recipe
  rcases recipe with kind | kind | kind | kind <;> rw [kind] at second ⊢
  · exact operates second.2 (aluOperates placed apart usable int operands left kind second.1)
  · exact operates second.2 (shiftOperates placed apart usable int operands left kind second.1)
  · have op : inst.op = .imul := by
      cases op : inst.op <;> rw [op] at kind <;> first | rfl | cases kind
    exact operates second.2 (imulOperates placed apart usable int operands left op second.1)
  · obtain ⟨x, y, reads, reads', does⟩ := divides placed apart usable int operands left kind second.1
    have reads := readTwo operands (first ▸ reads) (second.2 ▸ reads')
    rcases does with ⟨z, gives, lands⟩ | ⟨traps, faults⟩
    · exact landsImplements reads ((computes x y).trans gives) lands
    · refine ⟨_, reads, ?_⟩
      rw [act, (computes x y).trans traps]
      unfold Semantics.affect
      cases op : inst.op <;> rw [op] at kind <;> first | exact ⟨rfl, rfl, faults⟩ | cases kind

theorem iconstImplements (encoded : inst.enc.recipe? = some .iconst) (op : inst.op = .iconst) :
    Implements o world u f regs inst m (lowerInst f inst) := by
  obtain ⟨usable, -⟩ := resultUsable fit placed (by rw [op]; rfl)
  obtain ⟨a, operands⟩ := oneOperand fit (by rw [op]; rfl) (by rw [op]; rfl)
  have types := fit.types
  simp only [Structure.typeMessages, op, Structure.firstOperand, operands, List.append_eq_nil_iff,
    complainUnlessIff] at types
  obtain ⟨literal, kind⟩ := types
  cases a with
  | int payload =>
    have gpr : InGpr inst.ty := by
      cases ty : inst.ty <;> rw [ty] at kind <;> first | exact ⟨by decide, by decide⟩ | cases kind
    obtain ⟨word, reads, known⟩ := readLiteral (f := f) (v := .int payload) regs (if_pos kind) rfl
    have code : lowerInst f inst = Lower.intConst f inst payload inst.ty.isWide := by
      rw [lowerInst, encoded, ← show (inst.operand 0).intPayload = payload by rw [Inst.operand, operands]; rfl]
    rw [code]
    refine oneImplements operands reads (constLands apart usable gpr rfl known) ?_ ?_
    · rw [Semantics.operandTy, op]
    · unfold compute
      rw [op]
  | _ => cases literal

theorem bconstImplements (encoded : inst.enc.recipe? = some .bconst) (op : inst.op = .bconst) :
    Implements o world u f regs inst m (lowerInst f inst) := by
  obtain ⟨usable, -⟩ := resultUsable fit placed (by rw [op]; rfl)
  obtain ⟨a, operands⟩ := oneOperand fit (by rw [op]; rfl) (by rw [op]; rfl)
  have types := fit.types
  simp only [Structure.typeMessages, op, Structure.firstOperand, operands, List.append_eq_nil_iff,
    complainUnlessIff, beq_iff_eq] at types
  obtain ⟨literal, bool⟩ := types
  have gpr : InGpr inst.ty := by
    rw [bool]
    exact ⟨by decide, by decide⟩
  cases a with
  | bool flag =>
    have known : Known inst.ty (widthOf inst.ty.isWide) (BitVec.ofNat 64 flag.toNat)
        (if (inst.operand 0).intPayload = 0 then 0 else 1) := by
      rw [bool, Inst.operand, operands]
      cases flag
      · exact ⟨rfl, fun _ => .inl rfl⟩
      · exact ⟨rfl, fun _ => .inr rfl⟩
    have narrow : false = inst.ty.isWide := by
      rw [bool]
      rfl
    rw [lowerInst, encoded]
    refine oneImplements operands rfl (constLands apart usable gpr narrow known) rfl ?_
    unfold compute
    rw [op]
  | _ => cases literal

theorem copyImplements (plain : inst.ty.isFloat = false) (encoded : inst.enc.recipe? = some .copy)
    (op : inst.op = .copy) : Implements o world u f regs inst m (lowerInst f inst) := by
  obtain ⟨usable, notVoid⟩ := resultUsable fit placed (by rw [op]; rfl)
  obtain ⟨a, operands⟩ := oneOperand fit (by rw [op]; rfl) (by rw [op]; rfl)
  have types := fit.types
  simp only [Structure.typeMessages, op, Structure.firstOperand, operands, expectTyIff] at types
  obtain ⟨x, reads, lands⟩ := copyLands (u := u) apart usable placed operands
    ⟨notVoid, ne_of_beq_false plain⟩ types
  rw [lowerInst, encoded]
  refine oneImplements operands reads lands ?_ ?_
  · rw [Semantics.operandTy, op]
  · unfold compute
    rw [op]

theorem extendImplements (encoded : inst.enc.recipe? = some .extend)
    (kind : inst.op = .sextend ∨ inst.op = .uextend ∨ inst.op = .ireduce) :
    Implements o world u f regs inst m (lowerInst f inst) := by
  have info : inst.op.info.result = .one ∧ inst.op.info.minOperands = 1 ∧ inst.op.info.maxOperands = 1 := by
    rcases kind with op | op | op <;> rw [op] <;> decide
  obtain ⟨usable, -⟩ := resultUsable fit placed info.1
  obtain ⟨a, operands⟩ := oneOperand fit info.2.1 info.2.2
  have types := fit.types
  rw [lowerInst, encoded]
  rcases kind with op | op | op <;>
    simp only [Structure.typeMessages, op, Structure.firstOperand, operands, List.append_eq_nil_iff,
      complainUnlessIff, beq_iff_eq, expectTyIff] at types <;> obtain ⟨ty, typed⟩ := types
  · obtain ⟨x, reads, lands⟩ := sextendLands (u := u) apart usable placed operands op ty typed
    refine oneImplements operands reads lands ?_ ?_
    · rw [Semantics.operandTy, op]
    · unfold compute
      rw [op]
  · obtain ⟨x, reads, lands⟩ := lowHalfLands (u := u) apart usable placed operands (by rw [op]; rfl) typed rfl
    have represents : Represents inst.ty (inst.ty.canonical ((x.setWidth 32).setWidth 64))
        ((x.setWidth 32).setWidth 64) := by
      rw [ty]
      rfl
    refine oneImplements operands reads (lands _ represents) ?_ ?_
    · rw [Semantics.operandTy, op]
    · unfold compute
      rw [op]
  · obtain ⟨x, reads, lands⟩ := lowHalfLands (u := u) apart usable placed operands (by rw [op]; rfl) typed rfl
    have low : ((x.setWidth 32).setWidth 64).setWidth 32 = x.setWidth 32 :=
      BitVec.setWidth_setWidth_of_le _ (by decide)
    have represents : Represents inst.ty (inst.ty.canonical x) ((x.setWidth 32).setWidth 64) := by
      rw [ty]
      exact low.trans (narrowExtended _).symm
    refine oneImplements operands reads (lands _ represents) ?_ ?_
    · rw [Semantics.operandTy, op]
    · unfold compute
      rw [op]

theorem icmpImplements (encoded : inst.enc.recipe? = some .icmp) (op : inst.op = .icmp) :
    Implements o world u f regs inst m (lowerInst f inst) := by
  obtain ⟨usable, -⟩ := resultUsable fit placed (by rw [op]; rfl)
  obtain ⟨a, b, operands⟩ := twoOperands fit (by rw [op]; rfl) (by rw [op]; rfl)
  obtain ⟨x, y, reads, reads', lands⟩ := icmpLands (u := u) placed apart usable fit op operands
  have computes : compute o f inst [x, y] = some (BitVec.ofNat 64 (Semantics.comparison f inst x y).toNat) := by
    unfold compute
    rw [op]
  have typed (k : Nat) : Semantics.operandTy f inst k = Semantics.compareTy f inst := by
    rw [Semantics.operandTy, op]
  rw [lowerInst, encoded]
  exact landsImplements (readTwo operands (typed 0 ▸ reads) (typed 1 ▸ reads')) computes lands

theorem selectImplements (plain : inst.ty.isFloat = false) (encoded : inst.enc.recipe? = some .select)
    (op : inst.op = .select) : Implements o world u f regs inst m (lowerInst f inst) := by
  obtain ⟨usable, notVoid⟩ := resultUsable fit placed (by rw [op]; rfl)
  obtain ⟨c, a, b, operands⟩ := List.length_eq_three.mp
    (operandCount fit (by rw [op]; rfl) (by rw [op]; rfl) (by decide))
  have types := fit.types
  simp only [Structure.typeMessages, op, operands, List.append_eq_nil_iff, expectTyIff] at types
  obtain ⟨⟨condition, left⟩, right⟩ := types
  obtain ⟨z, x, y, reads, reads', reads'', lands⟩ := selectLands (u := u) placed apart usable
    ⟨notVoid, ne_of_beq_false plain⟩ operands condition left right
  have computes : compute o f inst [z, x, y] = some (if z ≠ 0 then x else y) := by
    unfold compute
    rw [op]
  have read : readOperands f inst regs = some [z, x, y] := by
    rw [readOperands, operands]
    simp [Semantics.operandTy, op, reads, reads', reads'']
  rw [lowerInst, encoded]
  exact landsImplements read computes lands

/-- The code of an integer instruction does what the instruction does. -/
theorem loweredImplements (plain : inst.ty.isFloat = false)
    (encoded : inst.enc.recipe? = some (Recipe.ofOpcode inst.op))
    (integer : Recipe.ofOpcode inst.op ∈ integerRecipes) :
    Implements o world u f regs inst m (lowerInst f inst) := by
  cases op : inst.op with
  | iconst => exact iconstImplements apart fit placed (by rw [encoded, op]; rfl) op
  | bconst => exact bconstImplements apart fit placed (by rw [encoded, op]; rfl) op
  | copy => exact copyImplements apart fit placed plain (by rw [encoded, op]; rfl) op
  | icmp => exact icmpImplements apart fit placed (by rw [encoded, op]; rfl) op
  | select => exact selectImplements apart fit placed plain (by rw [encoded, op]; rfl) op
  | sextend => exact extendImplements apart fit placed (by rw [encoded, op]; rfl) (.inl op)
  | uextend => exact extendImplements apart fit placed (by rw [encoded, op]; rfl) (.inr (.inl op))
  | ireduce => exact extendImplements apart fit placed (by rw [encoded, op]; rfl) (.inr (.inr op))
  | iadd | isub | imul | band | bor | bxor | ishl | ushr | sshr | sdiv | udiv | srem | urem =>
    exact operationImplements apart fit placed (by rw [op]; decide) encoded
  | _ =>
    rw [op] at integer
    exact absurd integer (by decide)

end Whole

section Quotient

def quotientFunc : Func :=
  { valueTypes := [.i32, .i32, .i32]
    locations := [.slot 0, .reg rbx, .slot 1]
    stackSlots := FrameLayout.layOutSlots 1 [{}, {}] }

def quotientInst : Inst :=
  { op := .sdiv, ty := .i32, operands := [.temp 0, .temp 1], result := some 2, enc := .ofRecipe .div }

def quotientRegs : Registers
  | 0 => some 0x11111111
  | 1 => some 3
  | _ => none

def quotientMachine : Machine where
  regs r := if r = gprOf rbx then 0x700000003 else 0x1000
  memory _ := 0x11
  flags := .ofSub (0 : Word) 0

theorem quotientStored : SlotsApart quotientFunc ∧ FitInst quotientFunc quotientInst ∧
    OperandsPlaced quotientFunc quotientRegs quotientInst quotientMachine ∧ quotientInst.ty.isFloat = false ∧
    quotientInst.enc.recipe? = some (Recipe.ofOpcode quotientInst.op) ∧
    Recipe.ofOpcode quotientInst.op ∈ integerRecipes ∧
    ∃ n, perform (fun _ m => m.flags) (lowerInst quotientFunc quotientInst) quotientMachine = some (.goes n) ∧
      (n.value quotientFunc (.slot 1)).setWidth 32 = 0x05B05B05#32 ∧
      n.regs (gprOf rbx) = 0x700000003 := by
  have laid : quotientFunc.stackSlots = FrameLayout.layOutSlots 1 [{}, {}] := rfl
  have apart : SlotsApart quotientFunc := laidOutApart laid (by decide)
  have fit : FitInst quotientFunc quotientInst :=
    ⟨by decide, by decide, fun branches => absurd rfl branches, by simp [quotientInst]⟩
  have placed : OperandsPlaced quotientFunc quotientRegs quotientInst quotientMachine := by
    refine ⟨fun id inside => ?_, fun id result => ?_⟩
    · have two : id = 0 ∨ id = 1 := by simpa [quotientInst] using inside
      rcases two with rfl | rfl
      · refine ⟨?_, _, rfl, ?_⟩
        · show 0 < 2
          decide
        · show BitVec.setWidth 32 _ = BitVec.setWidth 32 _
          decide
      · refine ⟨?_, _, rfl, ?_⟩
        · show rbx ∈ _
          decide
        · show BitVec.setWidth 32 _ = BitVec.setWidth 32 _
          decide
    · cases result
      show 1 < 2
      decide
  have encoded : quotientInst.enc.recipe? = some (Recipe.ofOpcode quotientInst.op) := by decide
  have integer : Recipe.ofOpcode quotientInst.op ∈ integerRecipes := by decide
  have acts : act nowhere quotientFunc quotientInst [0x11111111, 3] () = .gives [] 0x05B05B05 () := rfl
  have does : Implements nowhere () (fun _ m => m.flags) quotientFunc quotientRegs quotientInst
      quotientMachine _ := loweredImplements apart fit placed rfl encoded integer
  obtain ⟨words, reads, does⟩ := does
  have same : words = [0x11111111, 3] := (Option.some.inj reads).symm
  rw [same, acts] at does
  obtain ⟨-, -, n, goes, represents, delivered⟩ := does
  refine ⟨apart, fit, placed, rfl, encoded, integer, n, goes, represents, ?_⟩
  exact delivered.regs (gprOf rbx) (by decide) (by decide)

end Quotient
end SsaCodegen.X64
