import SsaCodegen.Proofs.Lowering.Instructions
/-! Comparisons of two constants, folded and compiled. The code compares at the width of the first operand
that is a value, folding at the width of the first operand, which a literal does not show: in front of an
`i32` value it is compared at 64 bits. -/
namespace SsaCodegen.X64
open Semantics (Registers readAs)
open ConstantFold (fold? asConstant compareBits)

def constantRegisters (known : ConstantFold.Known) : Registers := fun id => known.value? (.temp id)

/-- A literal stands in front of a narrow value. -/
def WidthHidden (f : Func) (a b : Value) : Prop :=
  (∃ word, a = .int word) ∧ ∃ id, b = .temp id ∧ f.valueType id = .i32

theorem constantRead {f : Func} {known : ConstantFold.Known} {ty : Ty} {v : Value} {x : Word}
    (typed : Structure.typeOf f v ty = ty) (value : known.value? v = some x) : ∃ word,
      readAs (constantRegisters known) ty v = some word ∧
      word.setWidth (widthOf ty.isWide) = x.setWidth (widthOf ty.isWide) := by
  cases v with
  | temp id => exact ⟨x, value, rfl⟩
  | _ =>
    obtain ⟨word, reads, known⟩ := readLiteral (constantRegisters known) typed value
    exact ⟨word, reads, known.low.symm⟩

section Comparison
variable {f : Func} {known : ConstantFold.Known} {inst : Inst} {a b : Value} (fit : FitInst f inst)
  (op : inst.op = .icmp) (operands : inst.operands = [a, b])
include operands

theorem hiddenWidth (hidden : WidthHidden f a b) : compareBits f a = 64 ∧ compareTy f inst = .i32 := by
  obtain ⟨⟨word, rfl⟩, id, rfl, narrow⟩ := hidden
  refine ⟨rfl, ?_⟩
  rw [compareTy, operands]
  exact narrow

include fit op

theorem shownWidth (shown : ¬ WidthHidden f a b) : compareBits f a = (compareTy f inst).bits := by
  obtain ⟨first, second, kind⟩ := comparedTypes fit op operands
  rcases compareWidth operands kind with width | ⟨narrow, wide⟩
  · rw [width, compareTySame operands]
  · refine absurd ?_ shown
    rw [narrow] at first second
    cases a with
    | temp id =>
      have narrow : f.valueType id = .i32 := first
      rw [compareBits, narrow] at wide
      cases wide
    | int word =>
      cases b with
      | temp id => exact ⟨⟨word, rfl⟩, id, rfl, second⟩
      | int other =>
        rw [Semantics.compareTy, Inst.operand, Inst.operand, operands] at narrow
        cases narrow
      | _ => cases second
    | _ => cases first

theorem comparesConstants {x y : Word} (left : known.value? a = some x) (right : known.value? b = some y)
    {v w : Word} (reads : readAs (constantRegisters known) (Semantics.compareTy f inst) a = some v)
    (reads' : readAs (constantRegisters known) (Semantics.compareTy f inst) b = some w) :
    Semantics.comparison f inst v w = inst.intCond.evaluate x y (compareTy f inst).bits := by
  obtain ⟨first, second, kind⟩ := comparedTypes fit op operands
  obtain ⟨v', same, low⟩ := constantRead first left
  obtain ⟨w', same', low'⟩ := constantRead second right
  cases reads.symm.trans same
  cases reads'.symm.trans same'
  rw [compareTySame operands, ← comparisonEvaluates kind x y, comparisonWidth kind, comparisonWidth kind,
    low, low']

theorem emitsComparison {u : Undefined} {m : Machine} {x y : Word} (left : known.value? a = some x)
    (right : known.value? b = some y) (apart : SlotsApart f)
    (placed : OperandsPlaced f (constantRegisters known) inst m) (encoded : inst.enc.recipe? = some .icmp) :
    Lands u f inst m (lowerInst f inst)
      (BitVec.ofNat 64 (inst.intCond.evaluate x y (compareTy f inst).bits).toNat) := by
  obtain ⟨usable, -⟩ := resultUsable fit placed (by rw [op]; rfl)
  obtain ⟨v, w, reads, reads', lands⟩ := icmpLands (u := u) placed apart usable fit op operands
  rw [comparesConstants fit op operands left right reads reads'] at lands
  rwa [lowerInst, encoded]

end Comparison

/-- The code of an unfolded comparison of constants leaves their comparison at the width of the first value
among them. What the comparison folds to is the same, unless that width is hidden; then it is the comparison
at 64 bits, and the same at least where both payloads are sign extended. -/
theorem foldedCompareAsEmitted {u : Undefined} {f : Func} {known : ConstantFold.Known} {inst : Inst}
    {m : Machine} {a b : Value} {x y : Word} (fit : FitInst f inst) (op : inst.op = .icmp)
    (operands : inst.operands = [a, b]) (left : known.value? a = some x) (right : known.value? b = some y)
    (apart : SlotsApart f) (placed : OperandsPlaced f (constantRegisters known) inst m)
    (encoded : inst.enc.recipe? = some .icmp) :
    ∃ folded emitted : Bool, fold? f known inst = some (asConstant inst .bconst (.bool folded)) ∧
      Lands u f inst m (lowerInst f inst) (BitVec.ofNat 64 emitted.toNat) ∧
      emitted = inst.intCond.evaluate x y (compareTy f inst).bits ∧
      (¬ WidthHidden f a b → folded = emitted) ∧
      (WidthHidden f a b → folded = inst.intCond.evaluate x y 64 ∧ emitted = inst.intCond.evaluate x y 32) ∧
      (Ty.i32.canonical x = x → Ty.i32.canonical y = y → folded = emitted) := by
  have lands := emitsComparison (u := u) fit op operands left right apart placed encoded
  have folds : fold? f known inst =
      some (asConstant inst .bconst (.bool (inst.intCond.evaluate x y (compareBits f a)))) := by
    unfold fold? ConstantFold.foldCompare
    rw [op, operands]
    simp only [ConstantFold.isFoldable, left, right, Bool.false_eq_true, if_false]
  have shown (shows : ¬ WidthHidden f a b) : inst.intCond.evaluate x y (compareBits f a) =
      inst.intCond.evaluate x y (compareTy f inst).bits := by rw [shownWidth fit op operands shows]
  have hidden (hides : WidthHidden f a b) : inst.intCond.evaluate x y (compareBits f a) =
      inst.intCond.evaluate x y 64 ∧ inst.intCond.evaluate x y (compareTy f inst).bits =
        inst.intCond.evaluate x y 32 := by
    obtain ⟨wide, narrow⟩ := hiddenWidth operands hides
    rw [wide, narrow]
    exact ⟨rfl, rfl⟩
  refine ⟨_, _, folds, lands, rfl, shown, hidden, fun extended extended' => ?_⟩
  by_cases hides : WidthHidden f a b
  · rw [(hidden hides).1, (hidden hides).2, (Arithmetic.evaluateCompares _ x y).1,
      (Arithmetic.evaluateCompares _ x y).2, Arithmetic.comparesNarrow _ extended extended']
  · exact shown hides

section Fives

def fiveCompared (operands : List Value) : Inst :=
  { op := .icmp, ty := .b1, operands := operands, result := some 1, intCond := .eq, enc := .ofRecipe .icmp }

def fiveFunc (operands : List Value) : Func :=
  { signature := { returns := [.b1] }
    valueTypes := [.i32, .b1]
    locations := [.reg rbx, .slot 0]
    stackSlots := FrameLayout.layOutSlots 1 [{}]
    blocks := [
      { label := "entry"
        insts := [
          { op := .iconst, ty := .i32, operands := [.int 5], result := some 0 },
          fiveCompared operands,
          { op := .ret, operands := [.temp 1] }] }] }

def fiveMachine : Machine where
  regs r := if r = gprOf rbx then 5 else 0x1000
  memory _ := 0x11
  flags := .ofSub (0 : Word) 0

theorem fivesApart (operands : List Value) : SlotsApart (fiveFunc operands) :=
  have laid : (fiveFunc operands).stackSlots = FrameLayout.layOutSlots 1 [{}] := rfl
  laidOutApart laid (by decide)

theorem fivePlaced (operands : List Value) (alone : ∀ id, .temp id ∈ operands → id = 0) :
    OperandsPlaced (fiveFunc operands) (constantRegisters [some 5]) (fiveCompared operands) fiveMachine := by
  refine ⟨fun id inside => ?_, fun id result => ?_⟩
  · cases alone id inside
    refine ⟨show rbx ∈ _ by decide, 5, rfl, ?_⟩
    rfl
  · cases result
    exact show 0 < 1 by decide

def literalLast : List Value := [.temp 0, .int 0x100000005]

def literalFirst : List Value := [.int 0x100000005, .temp 0]

theorem fiveAgrees : FitInst (fiveFunc literalLast) (fiveCompared literalLast) ∧
    SlotsApart (fiveFunc literalLast) ∧
    OperandsPlaced (fiveFunc literalLast) (constantRegisters [some 5]) (fiveCompared literalLast) fiveMachine ∧
    fold? (fiveFunc literalLast) [some 5] (fiveCompared literalLast) =
      some (asConstant (fiveCompared literalLast) .bconst (.bool true)) ∧
    Lands (fun _ m => m.flags) (fiveFunc literalLast) (fiveCompared literalLast) fiveMachine
      (lowerInst (fiveFunc literalLast) (fiveCompared literalLast)) 1 := by
  have fit : FitInst (fiveFunc literalLast) (fiveCompared literalLast) :=
    ⟨by decide, by decide, fun branches => absurd rfl branches, by simp [fiveCompared]⟩
  have apart := fivesApart literalLast
  have placed := fivePlaced literalLast (by simp [literalLast])
  have shown : ¬ WidthHidden (fiveFunc literalLast) (.temp 0) (.int 0x100000005) := fun hidden => nomatch hidden.1
  obtain ⟨folded, emitted, folds, lands, evaluates, agrees, -⟩ := foldedCompareAsEmitted
    (u := fun _ m => m.flags) fit rfl rfl (x := 5) (y := 0x100000005) rfl rfl apart placed rfl
  have equal : emitted = true := evaluates.trans (by decide)
  rw [agrees shown, equal] at folds
  rw [equal] at lands
  exact ⟨fit, apart, placed, folds, lands⟩

/-- Folding answers that the narrow five is not the literal, the code that it is. -/
theorem fiveDisagrees : verifyFunction (fiveFunc literalFirst) = [] ∧
    (foldConstants (fiveFunc literalFirst)).1.insts[1]? =
      some (asConstant (fiveCompared literalFirst) .bconst (.bool false)) ∧
    OperandsPlaced (fiveFunc literalFirst) (constantRegisters [some 5]) (fiveCompared literalFirst) fiveMachine ∧
    Lands (fun _ m => m.flags) (fiveFunc literalFirst) (fiveCompared literalFirst) fiveMachine
      (lowerInst (fiveFunc literalFirst) (fiveCompared literalFirst)) 1 := by
  have fit : FitInst (fiveFunc literalFirst) (fiveCompared literalFirst) :=
    ⟨by decide, by decide, fun branches => absurd rfl branches, by simp [fiveCompared]⟩
  have placed := fivePlaced literalFirst (by simp [literalFirst])
  refine ⟨by decide, by decide, placed, ?_⟩
  exact emitsComparison fit rfl rfl (x := 0x100000005) (y := 5) rfl rfl (fivesApart _) placed rfl

end Fives
end SsaCodegen.X64
