import SsaCodegen.Proofs.Ir.WellFormed
/-! What types demand. The demands on an instruction look at a function only through the
types of the operands and the returns of the signature, and at operands only through
their types, but for the operand of a constant. -/
namespace SsaCodegen.Structure

def ResultFits (inst : Inst) : Prop :=
  match inst.op.info.result, inst.result with
  | .one, none | .none, some _ => False
  | .one, some _ | .optional, some _ => inst.ty.isVoid = false
  | .none, none | .optional, none => True

theorem ResultFits.same {i j : Inst} (op : j.op = i.op) (ty : j.ty = i.ty)
    (result : j.result.isSome = i.result.isSome) (fits : ResultFits i) : ResultFits j := by
  unfold ResultFits at fits ⊢
  rw [op, ty]
  cases was : i.result with
  | none =>
    rw [was] at fits
    rw [was, Option.isSome_none, Option.isSome_eq_false_iff, Option.isNone_iff_eq_none] at result
    rwa [result]
  | some id =>
    rw [was] at fits
    rw [was, Option.isSome_some] at result
    obtain ⟨id', now⟩ := Option.isSome_iff_exists.mp result
    rw [now]
    cases arity : i.op.info.result <;> rw [arity] at fits <;> exact fits

theorem shapeIff {inst : Inst} : shapeMessages inst = [] ↔
    (inst.op.info.minOperands ≤ inst.operands.length ∧
      (inst.op.info.maxOperands = variadicOperandCount ∨
        inst.operands.length ≤ inst.op.info.maxOperands)) ∧
    ResultFits inst ∧ inst.targets.length = inst.op.info.successors := by
  simp only [shapeMessages, ResultFits, List.append_eq_nil_iff, complainUnlessIff,
    Bool.and_eq_true, decide_eq_true_eq, Bool.or_eq_true, beq_iff_eq, and_assoc]
  cases inst.op.info.result <;> cases inst.result <;> simp

theorem plainTargets {inst : Inst} (shape : shapeMessages inst = [])
    (plain : inst.isTerminator = false) : inst.targets = [] := by
  have leads : ∀ op : Opcode, op.isTerminator = false → op.info.successors = 0 := by
    intro op
    cases op <;> decide
  exact List.eq_nil_of_length_eq_zero ((shapeIff.mp shape).2.2.trans (leads inst.op plain))

theorem pureResult {inst : Inst} (shape : shapeMessages inst = []) (isPure : inst.op.isPure = true) :
    inst.result.isSome = true := by
  have all : ∀ op : Opcode, op.isPure = true → op.info.result = .one := by
    intro op
    cases op <;> decide
  obtain ⟨-, fits, -⟩ := shapeIff.mp shape
  cases absent : inst.result with
  | none => simp [ResultFits, all _ isPure, absent] at fits
  | some id => rfl

@[simp] theorem expectTyIff {f : Func} {v : Value} {ty : Ty} {what : String} :
    expectTy f v ty what = [] ↔ typeOf f v ty = ty := by
  simp [expectTy]

@[simp] theorem expectIntIff {f : Func} {v : Value} {what : String} :
    expectInt f v what = [] ↔ (typeOf f v .i64).isInt = true := by
  simp [expectInt]

def SameTypes (f g : Func) : List Value → List Value → Prop
  | [], [] => True
  | v :: vs, w :: ws => (∀ hint, typeOf g w hint = typeOf f v hint) ∧ SameTypes f g vs ws
  | _, _ => False

def isConstant (op : Opcode) : Bool := op == .iconst || op == .bconst || op == .fconst

variable {f g : Func}

theorem typeOfSame {v : Value} (same : ∀ id, v = .temp id → g.valueType id = f.valueType id)
    (hint : Ty) : typeOf g v hint = typeOf f v hint := by
  cases v with
  | temp id => exact same id rfl
  | _ => rfl

theorem SameTypes.ofMap {values : List Value} {h : Value → Value}
    (same : ∀ v ∈ values, ∀ hint, typeOf g (h v) hint = typeOf f v hint) :
    SameTypes f g values (values.map h) := by
  induction values with
  | nil => trivial
  | cons v rest ih =>
    exact ⟨same v List.mem_cons_self, ih fun w later => same w (List.mem_cons_of_mem _ later)⟩

theorem SameTypes.refl {values : List Value}
    (same : ∀ v ∈ values, ∀ hint, typeOf g v hint = typeOf f v hint) :
    SameTypes f g values values := by
  have mapped := SameTypes.ofMap (h := id) same
  rwa [List.map_id] at mapped

theorem SameTypes.length {vs ws : List Value} (same : SameTypes f g vs ws) :
    ws.length = vs.length := by
  induction vs generalizing ws with
  | nil =>
    cases ws with
    | nil => rfl
    | cons w ws => exact same.elim
  | cons v vs ih =>
    cases ws with
    | nil => exact same.elim
    | cons w ws => rw [List.length_cons, List.length_cons, ih same.2]

theorem SameTypes.typed {vs ws : List Value} (same : SameTypes f g vs ws) {params : List Param}
    (ok : ∀ e ∈ vs.zip params, typeOf f e.1 e.2.ty = e.2.ty) :
    ∀ e ∈ ws.zip params, typeOf g e.1 e.2.ty = e.2.ty := by
  induction vs generalizing ws params with
  | nil =>
    cases ws with
    | nil => simp
    | cons w ws => exact same.elim
  | cons v vs ih =>
    cases ws with
    | nil => exact same.elim
    | cons w ws =>
      cases params with
      | nil => simp
      | cons p params =>
        rw [List.zip_cons_cons, List.forall_mem_cons] at ok ⊢
        exact ⟨(same.1 p.ty).trans ok.1, ih same.2 ok.2⟩

theorem SameTypes.flatMapZip {α : Type} {vs ws : List Value} (same : SameTypes f g vs ws)
    {a b : Value → α → List String}
    (checks : ∀ v w x, (∀ hint, typeOf g w hint = typeOf f v hint) → a w x = b v x)
    (xs : List α) : (ws.zip xs).flatMap (fun e => a e.1 e.2) =
      (vs.zip xs).flatMap fun e => b e.1 e.2 := by
  induction vs generalizing ws xs with
  | nil =>
    cases ws with
    | nil => rfl
    | cons w ws => exact same.elim
  | cons v vs ih =>
    cases ws with
    | nil => exact same.elim
    | cons w ws =>
      cases xs with
      | nil => rfl
      | cons x xs =>
        rw [List.zip_cons_cons, List.zip_cons_cons, List.flatMap_cons, List.flatMap_cons,
          checks v w x same.1, ih same.2]

def SameTypeLists (f g : Func) : List (List Value) → List (List Value) → Prop
  | [], [] => True
  | vs :: rest, ws :: later => SameTypes f g vs ws ∧ SameTypeLists f g rest later
  | _, _ => False

theorem SameTypeLists.ofMap {lists : List (List Value)} {h : List Value → List Value}
    (same : ∀ vs ∈ lists, SameTypes f g vs (h vs)) : SameTypeLists f g lists (lists.map h) := by
  induction lists with
  | nil => trivial
  | cons vs rest ih =>
    exact ⟨same vs List.mem_cons_self, ih fun ws later => same ws (List.mem_cons_of_mem _ later)⟩

theorem SameTypeLists.length {as bs : List (List Value)} (same : SameTypeLists f g as bs) :
    bs.length = as.length := by
  induction as generalizing bs with
  | nil =>
    cases bs with
    | nil => rfl
    | cons w ws => exact same.elim
  | cons v vs ih =>
    cases bs with
    | nil => exact same.elim
    | cons w ws => rw [List.length_cons, List.length_cons, ih same.2]

theorem SameTypeLists.zipFrom {as bs : List (List Value)} (same : SameTypeLists f g as bs)
    {targets : List String} {e : String × List Value} (inside : e ∈ targets.zip bs) :
    ∃ args, (e.1, args) ∈ targets.zip as ∧ SameTypes f g args e.2 := by
  induction as generalizing bs targets with
  | nil =>
    cases bs with
    | nil => simp at inside
    | cons w ws => exact same.elim
  | cons v vs ih =>
    cases bs with
    | nil => exact same.elim
    | cons w ws =>
      cases targets with
      | nil => simp at inside
      | cons l ls =>
        rcases List.mem_cons.mp inside with rfl | later
        · exact ⟨v, List.mem_cons_self, same.1⟩
        · obtain ⟨args, listed, types⟩ := ih same.2 later
          exact ⟨args, List.mem_cons_of_mem _ listed, types⟩

section
variable {i j : Inst} (types : SameTypes f g i.operands j.operands)
include types

theorem firstOperandSame {a b : Value → List String}
    (same : ∀ v w, (∀ hint, typeOf g w hint = typeOf f v hint) → a w = b v) :
    firstOperand j a = firstOperand i b := by
  unfold firstOperand
  cases left : i.operands <;> cases right : j.operands <;> rw [left, right] at types
  · exact types.elim
  · exact types.elim
  · exact same _ _ types.1

theorem twoOperandsSame {a b : Value → Value → List String}
    (same : ∀ v w x y, (∀ hint, typeOf g w hint = typeOf f v hint) →
      (∀ hint, typeOf g y hint = typeOf f x hint) → a w y = b v x) :
    twoOperands j a = twoOperands i b := by
  unfold twoOperands
  match left : i.operands, right : j.operands with
  | [], [] => rfl
  | [v], [w] => rfl
  | [v, x], [w, y] =>
    rw [left, right] at types
    exact same v w x y types.1 types.2.1
  | v :: x :: z :: vs, w :: y :: u :: ws => rfl
  | [], w :: ws | v :: vs, [] | [v], w :: y :: ws | v :: x :: vs, [w] | [v, x], w :: y :: u :: ws
  | v :: x :: z :: vs, [w, y] =>
    rw [left, right] at types
    simp [SameTypes] at types

theorem threeOperandsSame {a b : Value → Value → Value → List String}
    (same : ∀ v w x y z u, (∀ hint, typeOf g w hint = typeOf f v hint) →
      (∀ hint, typeOf g y hint = typeOf f x hint) →
      (∀ hint, typeOf g u hint = typeOf f z hint) → a w y u = b v x z) :
    (match j.operands with
      | [c, x, y] => a c x y
      | _ => []) =
    match i.operands with
      | [c, x, y] => b c x y
      | _ => [] := by
  match left : i.operands, right : j.operands with
  | [], [] | [_], [_] | [_, _], [_, _] | _ :: _ :: _ :: _ :: _, _ :: _ :: _ :: _ :: _ => rfl
  | [v, x, z], [w, y, u] =>
    rw [left, right] at types
    exact same v w x y z u types.1 types.2.1 types.2.2.1
  | [], _ :: _ | _ :: _, [] | [_], _ :: _ :: _ | _ :: _ :: _, [_] | [_, _], _ :: _ :: _ :: _
  | _ :: _ :: _ :: _, [_, _] | [_, _, _], _ :: _ :: _ :: _ :: _
  | _ :: _ :: _ :: _ :: _, [_, _, _] =>
    rw [left, right] at types
    simp [SameTypes] at types

theorem allOperandsSame {a b : Value → List String}
    (same : ∀ v w, (∀ hint, typeOf g w hint = typeOf f v hint) → a w = b v) :
    j.operands.flatMap a = i.operands.flatMap b := by
  generalize i.operands = vs, j.operands = ws at types
  induction vs generalizing ws with
  | nil =>
    cases ws with
    | nil => rfl
    | cons w ws => exact types.elim
  | cons v vs ih =>
    cases ws with
    | nil => exact types.elim
    | cons w ws => rw [List.flatMap_cons, List.flatMap_cons, same v w types.1, ih ws types.2]

theorem typeMessagesSame (op : j.op = i.op) (ty : j.ty = i.ty) (callee : j.callee = i.callee)
    (constant : isConstant i.op = true → j.operands = i.operands)
    (returns : g.signature.returns = f.signature.returns) :
    typeMessages g j = typeMessages f i := by
  have expect (v w : Value) (same : ∀ hint, typeOf g w hint = typeOf f v hint) (ty : Ty)
      (what : String) : expectTy g w ty what = expectTy f v ty what := by
    simp only [expectTy, same]
  have int (v w : Value) (same : ∀ hint, typeOf g w hint = typeOf f v hint) (what : String) :
      expectInt g w what = expectInt f v what := by
    simp only [expectInt, same]
  have address (v w : Value) (same : ∀ hint, typeOf g w hint = typeOf f v hint) :
      expectAddress g w = expectAddress f v := by
    simp only [expectAddress, same]
  have compare : compareMessages g j = compareMessages f i :=
    twoOperandsSame types fun v w x y hv hx => by simp only [hv, hx, expect x y hx]
  have ret : returnMessages g j = returnMessages f i := by
    simp only [returnMessages, returns, types.length]
    rw [types.flatMapZip fun v w ty same => expect v w same ty "return value"]
  have fixed : isConstant i.op = true → ∀ a : Value → List String,
      firstOperand j a = firstOperand i a := fun const a => by
    simp only [firstOperand, constant const]
  cases kind : i.op
  all_goals simp only [typeMessages, op, kind, ty, callee]
  case iconst | bconst | fconst => rw [fixed (by rw [kind]; rfl)]
  case copy => exact firstOperandSame types fun v w same => expect v w same _ _
  case iadd | isub | imul | sdiv | udiv | srem | urem | band | bor | bxor =>
    rw [twoOperandsSame types fun v w x y hv hx => by rw [expect v w hv, expect x y hx]]
  case ishl | ushr | sshr =>
    rw [twoOperandsSame types fun v w x y hv hx => by rw [expect v w hv, int x y hx]]
  case icmp => rw [compare]
  case brIcmp => exact compare
  case fadd | fsub | fmul | fdiv | fcmp =>
    rw [allOperandsSame types fun v w same => expect v w same _ _]
  case select =>
    exact threeOperandsSame types fun v w x y z u hv hx hz => by
      rw [expect v w hv, expect x y hx, expect z u hz]
  case sextend | uextend | ireduce | fcvtToSint =>
    rw [firstOperandSame types fun v w same => expect v w same _ _]
  case fcvtFromSint => rw [firstOperandSame types fun v w same => int v w same _]
  case load => exact firstOperandSame types fun v w same => address v w same
  case store =>
    exact twoOperandsSame types fun v w x y hv hx => by rw [expect v w hv, address x y hx]
  case trapnz | brif => exact firstOperandSame types fun v w same => by simp only [same]
  case ret => exact ret

end
end SsaCodegen.Structure
