import SsaCodegen.Opt.NanGuard
import SsaCodegen.Proofs.Ir.Expand
/-! Canonical NaNs are an expansion. The new values alternate in type: a float that may be a
NaN, then the answer of its test. -/
namespace SsaCodegen
open Structure

namespace NanGuard
variable {f g : Func}

theorem arithmeticInfo {op : Opcode} (float : isFloatArithmetic op = true) :
    op.isTerminator = false ∧ op ≠ .prologue ∧ op.info.successors = 0 := by
  revert float
  cases op <;> decide

theorem arithmeticTy {i : Inst} (float : isFloatArithmetic i.op = true)
    (types : typeMessages f i = []) : i.ty = .f64 := by
  cases op : i.op <;> rw [op] at float <;> try exact absurd float (by decide)
  all_goals
    simp only [typeMessages, op, List.append_eq_nil_iff, complainUnlessIff, beq_iff_eq] at types
    exact types.1

theorem fitPlain {i : Inst} (shape : shapeMessages i = []) (types : typeMessages g i = [])
    (empty : i.targets = []) : FitInst g i :=
  ⟨shape, types, fun present => absurd empty present, fun e inside => by simp [empty] at inside⟩

theorem guardedExpansion (ok : WellFormed f) (r : Rewrites f g) {i : Inst} {raw result : Nat}
    (inside : i ∈ f.insts) (float : isFloatArithmetic i.op = true) (defines : i.result = some result)
    (value : g.valueTypes[raw]? = some .f64) (test : g.valueTypes[raw + 1]? = some .b1) :
    Expansion g raw i (guarded raw result i) (raw + 2) := by
  obtain ⟨sound, declared⟩ := ok.inst inside
  obtain ⟨plain, other, successors⟩ := arithmeticInfo float
  have ty := arithmeticTy float sound.types
  have targets : i.targets = [] := List.eq_nil_of_length_eq_zero
    ((shapeIff.mp sound.shape).2.2.trans successors)
  have valueTy : g.valueType raw = .f64 := by simp [Func.valueType, value]
  have testTy : g.valueType (raw + 1) = .b1 := by simp [Func.valueType, test]
  refine ⟨by omega, ⟨[_, _], _, rfl, ?_, ?_, targets.symm, fun opens => by cases opens⟩, ?_, ?_, ?_,
    fun tidy => ?_, ?_⟩
  · intro j listed
    simp only [List.mem_cons, List.not_mem_nil, or_false] at listed
    rcases listed with rfl | rfl
    · exact ⟨plain, other⟩
    · exact ⟨rfl, fun opens => by cases opens⟩
  · exact plain.symm
  · have numbers : List.range' raw (raw + 2 - raw) = [raw, raw + 1] := by
      rw [Nat.add_sub_cancel_left]
      rfl
    rw [numbers, defines]
    exact @List.perm_append_comm _ [raw, raw + 1] [result]
  · refine ⟨fun id used => used, fun id used => .inr ?_, fun id used => ?_, trivial⟩
    · simp only [Inst.usedTemps, Inst.uses, Value.temp?, List.flatten_nil, List.append_nil,
        List.filterMap_cons, List.filterMap_nil, List.mem_cons, List.not_mem_nil, or_false,
        or_self] at used
      rw [used]
    · simp only [Inst.usedTemps, Inst.uses, Value.temp?, canonicalNan, List.flatten_nil,
        List.append_nil, List.filterMap_cons, List.filterMap_nil, List.mem_cons, List.not_mem_nil,
        or_false] at used
      rcases used with rfl | rfl
      · exact .inr rfl
      · exact .inl (.inr rfl)
  all_goals
    intro j listed
    simp only [guarded, List.mem_cons, List.not_mem_nil, or_false] at listed
    rcases listed with rfl | rfl | rfl
  · exact r.toExtends.fitSame ok sound rfl rfl rfl (by rw [defines]; rfl) rfl rfl rfl
  · refine fitPlain rfl ?_ rfl
    simp [typeMessages, typeOf, valueTy]
  · refine fitPlain rfl ?_ rfl
    simp [typeMessages, typeOf, valueTy, testTy, canonicalNan]
  · exact tidy
  · exact fun _ => rfl
  · exact fun _ => rfl
  · intro id same
    cases same
    exact value.trans (congrArg some ty.symm)
  · intro id same
    cases same
    exact test
  · intro id same
    cases same
    exact r.toExtends.typeAt (ty ▸ declared result defines)

theorem guardInstsExpanded (ok : WellFormed f) (r : Rewrites f g) {total : Nat}
    (typed : ∀ k < total, g.valueTypes[f.numValues + 2 * k]? = some .f64 ∧
      g.valueTypes[f.numValues + 2 * k + 1]? = some .b1) {insts : List Inst}
    (inside : ∀ i ∈ insts, i ∈ f.insts) (k : Nat) : ∃ k', k ≤ k' ∧
      (guardInsts (f.numValues + 2 * k) insts).2 = f.numValues + 2 * k' ∧ (k' ≤ total →
        Expanded g (f.numValues + 2 * k) insts (guardInsts (f.numValues + 2 * k) insts).1
          (f.numValues + 2 * k')) := by
  induction insts generalizing k with
  | nil => exact ⟨k, Nat.le_refl k, rfl, fun _ => .nil⟩
  | cons i rest ih =>
    -- numbers go up in pairs, the raw float of a guard and its test
    have later := fun i listed => inside i (List.mem_cons_of_mem _ listed)
    have here := inside i List.mem_cons_self
    unfold guardInsts
    split
    · rename_i result float defines
      obtain ⟨k', le, last, expanded⟩ := ih later (k + 1)
      refine ⟨k', by omega, last, fun below => ?_⟩
      obtain ⟨value, test⟩ := typed k (by omega)
      exact .cons (guardedExpansion ok r here float defines value test) (expanded below)
    · obtain ⟨k', le, last, expanded⟩ := ih later k
      exact ⟨k', le, last, fun below => .cons (.keep ok r here _) (expanded below)⟩

theorem guardBlocksExpanded (ok : WellFormed f) (r : Rewrites f g) {total : Nat}
    (typed : ∀ k < total, g.valueTypes[f.numValues + 2 * k]? = some .f64 ∧
      g.valueTypes[f.numValues + 2 * k + 1]? = some .b1) {blocks : List Block}
    (inside : ∀ bb ∈ blocks, bb ∈ f.blocks) (k : Nat) : ∃ k', k ≤ k' ∧
      (guardBlocks (f.numValues + 2 * k) blocks).2 = f.numValues + 2 * k' ∧ (k' ≤ total →
        ExpandedBlocks g (f.numValues + 2 * k) blocks (guardBlocks (f.numValues + 2 * k) blocks).1
          (f.numValues + 2 * k')) := by
  induction blocks generalizing k with
  | nil => exact ⟨k, Nat.le_refl k, rfl, fun _ => .nil⟩
  | cons bb rest ih =>
    have listed : ∀ i ∈ bb.insts, i ∈ f.insts := fun _ => Func.memInsts (inside bb List.mem_cons_self)
    obtain ⟨m, le, next, now⟩ := guardInstsExpanded ok r typed listed k
    obtain ⟨k', le', last, expanded⟩ := ih (fun b later => inside b (List.mem_cons_of_mem _ later)) m
    refine ⟨k', Nat.le_trans le le', ?_, fun below => ?_⟩
    · simp only [guardBlocks, next, last]
    · simp only [guardBlocks, next]
      exact .cons (now (Nat.le_trans le' below)) (expanded below)

theorem guardHeads (next : Nat) (blocks : List Block) :
    (guardBlocks next blocks).1.map Block.head = blocks.map Block.head := by
  induction blocks generalizing next with
  | nil => rfl
  | cons bb rest ih => exact congrArg (_ :: ·) (ih _)

theorem pairTypes (k total : Nat) (below : k < total) :
    ((List.replicate total [Ty.f64, Ty.b1]).flatten)[2 * k]? = some .f64 ∧
      ((List.replicate total [Ty.f64, Ty.b1]).flatten)[2 * k + 1]? = some .b1 := by
  induction total generalizing k with
  | zero => omega
  | succ total ih =>
    rw [List.replicate_succ, List.flatten_cons]
    cases k with
    | zero => exact ⟨rfl, rfl⟩
    | succ k => exact ih k (by omega)

end NanGuard

open NanGuard in
theorem canonicalizeNansExpanded {f : Func} (ok : WellFormed f) : ∃ last,
    ExpandedBlocks (canonicalizeNans f).1 f.numValues f.blocks (canonicalizeNans f).1.blocks last := by
  obtain ⟨count, -, last, -⟩ := guardBlocksExpanded ok (.refl f)
    (fun k absent => absurd absent (Nat.not_lt_zero k)) (fun bb => id) 0
  have pairs : ((guardBlocks f.numValues f.blocks).2 - f.numValues) / 2 = count := by
    rw [Nat.mul_zero, Nat.add_zero] at last
    omega
  have r : Rewrites f (canonicalizeNans f).1 :=
    ⟨rfl, List.prefix_append _ _, guardHeads f.numValues f.blocks⟩
  have typed : ∀ k < count, (canonicalizeNans f).1.valueTypes[f.numValues + 2 * k]? = some .f64 ∧
      (canonicalizeNans f).1.valueTypes[f.numValues + 2 * k + 1]? = some .b1 := by
    intro k below
    have types : (canonicalizeNans f).1.valueTypes =
        f.valueTypes ++ (List.replicate count [Ty.f64, Ty.b1]).flatten := by
      rw [← pairs]
      rfl
    have new (n : Nat) : (canonicalizeNans f).1.valueTypes[f.numValues + n]? =
        ((List.replicate count [Ty.f64, Ty.b1]).flatten)[n]? := by
      rw [types, Func.numValues, List.getElem?_append_right (Nat.le_add_right ..),
        Nat.add_sub_cancel_left]
    rw [new, Nat.add_assoc, new]
    exact pairTypes k count below
  obtain ⟨k, -, last', expanded⟩ := guardBlocksExpanded ok r typed (fun bb => id) 0
  have same : k = count := by omega
  exact ⟨_, expanded (Nat.le_of_eq same)⟩

theorem canonicalizeNansWellFormed {f : Func} (ok : WellFormed f) : WellFormed (canonicalizeNans f).1 := by
  obtain ⟨last, expanded⟩ := canonicalizeNansExpanded ok
  exact ok.expand rfl (List.prefix_append _ _) expanded

theorem canonicalizeNansClean {f : Func} (clean : Clean f) : Clean (canonicalizeNans f).1 := by
  obtain ⟨last, expanded⟩ := canonicalizeNansExpanded clean.wellFormed
  exact clean.expand rfl (List.prefix_append _ _) expanded

theorem canonicalizeNansFlow {f : Func} (ok : WellFormed f) : FlowKept f (canonicalizeNans f).1 := by
  obtain ⟨last, expanded⟩ := canonicalizeNansExpanded ok
  exact .ofEdges rfl (expanded.edges ok.ended)

end SsaCodegen
