import SsaCodegen.Proofs.Opt.NumberedRuns
/-! Debug labels under value numbering. A replaced use takes its label along where uses are replaced one value
at a time; numbering changes the uses alone, so a label of a dropped value stays behind with it. -/
namespace SsaCodegen

def followLabels (lead : Nat → Option Nat) (labels : List ValueLabel) : List ValueLabel :=
  labels.map fun e => ⟨(lead e.value).getD e.value, e.label⟩

theorem followLabelsIff {lead : Nat → Option Nat} (final : ∀ v l, lead v = some l → lead l = none)
    (labels : List ValueLabel) :
    labels = followLabels lead labels ↔ ∀ e ∈ labels, lead e.value = none := by
  have stays : followLabels lead labels = labels.map id ↔
      ∀ e ∈ labels, (⟨(lead e.value).getD e.value, e.label⟩ : ValueLabel) = id e := List.map_inj_left
  rw [List.map_id] at stays
  rw [eq_comm, stays]
  refine forall₂_congr fun e _ => ?_
  cases led : lead e.value with
  | none => exact ⟨fun _ => rfl, fun _ => rfl⟩
  | some l =>
    refine ⟨fun same => ?_, fun absent => nomatch absent⟩
    have own : l = e.value := by simpa [led] using congrArg ValueLabel.value same
    rw [own] at led
    exact (nomatch (final _ _ led).symm.trans led)

namespace ValueNumbering

theorem numberValuesLabels (t : DomTree) (f : Func) : (numberValues t f).1.valueLabels = f.valueLabels := by
  unfold numberValues
  split <;> rfl

theorem numberedBy {f : Func} (clean : Clean f) :
    ∃ lead, (∀ v l, lead v = some l → Leads f lead v l) ∧
      Rewrites f (numberValues (DomTree.ofFunc f (FlowGraph.ofFunc f)) f).1 ∧
      ∀ a b, Paired f (numberValues (DomTree.ofFunc f (FlowGraph.ofFunc f)) f).1 a b →
        b.insts = substituted lead a.insts := by
  rcases numbered clean.wellFormed _ rfl with same | ⟨lead, leads, r, -, -, blocks⟩
  · rw [same]
    refine ⟨fun _ => none, fun _ _ absent => (nomatch absent), .refl f, fun a b pair => ?_⟩
    obtain ⟨k, left, right⟩ := pair
    cases left.symm.trans right
    exact (substitutedNothing _).symm
  · exact ⟨lead, fun v l led => (leads v l led).1, r, blocks⟩

section Replaced
variable {f g : Func} {lead : Nat → Option Nat} (clean : Clean f) (r : Rewrites f g)
  (blocks : ∀ a b, Paired f g a b → b.insts = substituted lead a.insts)
  (leads : ∀ v l, lead v = some l → Leads f lead v l) {v l : Nat} (led : lead v = some l)
include r blocks leads led

include clean in
theorem replacedUndefined : v ∉ g.definedIds := by
  intro defined
  obtain ⟨b, there, defines⟩ := Func.memDefinedIds.mp defined
  obtain ⟨a, located, pair⟩ := r.pairOf there
  obtain ⟨k, n, home, i, found, listed, result, -⟩ := (leads v l led).place
  have inside := Func.memInsts (List.mem_of_getElem? found) (List.mem_of_getElem? listed)
  rcases Block.memDefinedIds.mp defines with param | ⟨j, held, own⟩
  · rw [r.sameParamIds pair] at param
    exact Func.resultNotParam clean.wellFormed.once inside result located param
  · rw [blocks a b pair] at held
    obtain ⟨i, -, stays, rfl⟩ := memSubstituted.mp held
    cases (remainsIff.mp stays v own).symm.trans led

theorem replacedUnused {j : Inst} (inside : j ∈ g.insts) : v ∉ j.usedTemps := by
  intro used
  obtain ⟨b, there, listed⟩ := List.mem_flatMap.mp inside
  obtain ⟨a, -, pair⟩ := r.pairOf there
  rw [blocks a b pair] at listed
  obtain ⟨i, -, -, rfl⟩ := memSubstituted.mp listed
  obtain ⟨was, -, same⟩ := usedAfter used
  -- what is used stands for itself
  have absent : lead ((lead was).getD was) = none := by
    cases state : lead was with
    | none => exact state
    | some m => exact (leads was m state).final
  rw [← same, led] at absent
  cases absent

end Replaced

/-- Numbering leaves every label where it was. The values that it replaces by dominating ones are neither
defined nor used any more, so the labels follow their values exactly if no replaced value has one. -/
theorem numberingMovesNoLabel (f : Func) :
    (∀ t, (numberValues t f).1.valueLabels = f.valueLabels) ∧
    (verifyFunction f = [] → Tidy f → ∀ g, g = (numberValues (DomTree.ofFunc f (FlowGraph.ofFunc f)) f).1 →
      ∃ lead, (∀ a b, Paired f g a b →
          b.insts = (a.insts.filter (remains lead)).map (Inst.mapUses (follow lead))) ∧
        (∀ v l, lead v = some l → Leads f lead v l ∧ l ∈ g.definedIds ∧ v ∉ g.definedIds ∧
          ∀ j ∈ g.insts, v ∉ j.usedTemps) ∧
        (∀ e ∈ f.valueLabels, e.value ∈ f.definedIds → (e.value ∈ g.definedIds ↔ lead e.value = none)) ∧
        (g.valueLabels = followLabels lead f.valueLabels ↔ ∀ e ∈ f.valueLabels, lead e.value = none)) := by
  refine ⟨fun t => numberValuesLabels t f, ?_⟩
  rintro verified tidy g rfl
  have clean : Clean f := ⟨verifiedIff.mp verified, tidy⟩
  obtain ⟨lead, leads, r, blocks⟩ := numberedBy clean
  refine ⟨lead, blocks, fun v l led => ⟨leads v l led, ?_, ?_, fun j => ?_⟩, fun e _ defined => ?_, ?_⟩
  · exact staysDefined r blocks (leads v l led).defined (leads v l led).final
  · exact replacedUndefined clean r blocks leads led
  · exact replacedUnused r blocks leads led
  · refine ⟨fun still => ?_, staysDefined r blocks defined⟩
    cases led : lead e.value with
    | none => rfl
    | some l => exact absurd still (replacedUndefined clean r blocks leads led)
  · rw [numberValuesLabels]
    exact followLabelsIff (fun v l led => (leads v l led).final) _

def namedSum : Func :=
  { signature := { params := [.i64], returns := [.i64] }
    valueTypes := [.i64, .i64, .i64]
    valueLabels := [⟨0, 3⟩, ⟨2, 7⟩]
    blocks := [
      { label := "entry", params := [⟨0, .i64⟩]
        insts := [
          { result := some 1, op := .iadd, ty := .i64, operands := [.temp 0, .int 3] },
          { result := some 2, op := .iadd, ty := .i64, operands := [.int 3, .temp 0] },
          { op := .ret, operands := [.temp 2] }] }] }

def numberedSum : Func := (numberValues (DomTree.ofFunc namedSum (FlowGraph.ofFunc namedSum)) namedSum).1

theorem namedSumFollows : verifyFunction namedSum = [] ∧ Tidy namedSum ∧
    numberedSum.valueLabels = namedSum.valueLabels ∧ ∃ lead l, lead 2 = some l ∧ l ∈ numberedSum.definedIds ∧
      2 ∉ numberedSum.definedIds ∧ numberedSum.valueLabels ≠ followLabels lead namedSum.valueLabels := by
  have verified : verifyFunction namedSum = [] := by decide
  have tidy : Tidy namedSum := by
    unfold Tidy Inst.Tidy
    decide
  obtain ⟨stays, numbers⟩ := numberingMovesNoLabel namedSum
  obtain ⟨lead, -, leads, defined, follows⟩ := numbers verified tidy numberedSum rfl
  have labelled : (⟨2, 7⟩ : ValueLabel) ∈ namedSum.valueLabels := by decide
  have dropped : 2 ∉ numberedSum.definedIds := by decide +kernel
  have replaced : lead 2 ≠ none := fun absent => dropped ((defined _ labelled (by decide)).mpr absent)
  obtain ⟨l, led⟩ := Option.ne_none_iff_exists'.mp replaced
  exact ⟨verified, tidy, stays _, lead, l, led, (leads 2 l led).2.1, dropped,
    fun same => replaced (follows.mp same _ labelled)⟩

/-- The label 7 stays on a value that is defined no more, and does not come to the one that is read for it. -/
theorem namedSumLosesLabel : verifyFunction namedSum = [] ∧
    numberedSum.insts.map Inst.operands = [[.temp 0, .int 3], [.temp 1]] ∧ numberedSum.definedIds = [0, 1] ∧
    numberedSum.valueLabels = [⟨0, 3⟩, ⟨2, 7⟩] ∧
    (namedSum.replaceUses 2 (.temp 1)).valueLabels = [⟨0, 3⟩, ⟨1, 7⟩] := by
  decide +kernel

end ValueNumbering
end SsaCodegen
