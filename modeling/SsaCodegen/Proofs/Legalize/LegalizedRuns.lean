import SsaCodegen.Proofs.Legalize.Fitted
/-! Legalization keeps runs. The rewrites keep them one by one; pool indices and encodings are not
looked at when a function runs. -/
namespace SsaCodegen
open Semantics Structure

theorem SameCode.kin {f g : Func} (s : SameCode f g) : Kin f g := by
  have heads (h : Func) : h.blocks.map Block.head = (h.blocks.map Block.bare).map Block.head := by
    rw [List.map_map]
    rfl
  have r : Rewrites f g := ⟨s.signature, s.types ▸ List.prefix_refl _, by rw [heads, s.blocks, ← heads]⟩
  exact .ofRewrites r s.types

namespace SameCore
variable {f g : Func} (s : SameCore f g)
include s

theorem kin : Kin f g := s.toSameCode.kin

theorem insts (b : Nat) : (g.block b).insts.map Inst.core = (f.block b).insts.map Inst.core := by
  have same := congrArg (·[b]?) s.blocks
  simp only [List.getElem?_map] at same
  rw [Func.block, Func.block, List.getD_eq_getElem?_getD, List.getD_eq_getElem?_getD]
  cases now : g.blocks[b]? with
  | none =>
    rw [now, Option.map_none, eq_comm, Option.map_eq_none_iff] at same
    rw [same]
  | some new =>
    rw [now, Option.map_some, eq_comm, Option.map_eq_some_iff] at same
    obtain ⟨old, was, equal⟩ := same
    rw [was]
    exact congrArg Block.insts equal.symm

end SameCore

theorem coreReads {i j : Inst} (same : j.core = i.core) : j.op = i.op ∧ j.operands = i.operands ∧
    j.targets = i.targets ∧ j.targetArgs = i.targetArgs := by
  simp only [Inst.core, Inst.mk.injEq] at same
  obtain ⟨-, op, -, operands, targets, args, -⟩ := same
  exact ⟨op, operands, targets, args⟩

theorem Semantics.Alike.ofCore {f g : Func} (kin : Kin f g) {i j : Inst} (same : j.core = i.core) :
    Alike f g i j := by
  simp only [Inst.core, Inst.mk.injEq] at same
  obtain ⟨result, op, ty, operands, -, -, intCond, floatCond, imm, callee, trapCode, -⟩ := same
  refine ⟨op, ty, result, fun memory => ?_, callee, trapCode, intCond, floatCond, fun _ => ?_, ?_⟩
  · rw [op] at imm
    rcases memory with load | store
    · simpa [load] using imm
    · simpa [store] using imm
  · exact compareTySame operands fun id _ => by rw [kin.valueType]
  · rw [operands, kin.typeOf]

theorem stepCore {World : Type} (o : Surroundings World) {f g : Func} (kin : Kin f g) {i j : Inst}
    (same : j.core = i.core) (s : State World) : step o g j s = step o f i s := by
  have alike : Alike f g i j := .ofCore kin same
  obtain ⟨-, operands, targets, args⟩ := coreReads same
  have reads : readOperands g j = readOperands f i := by
    funext regs
    rw [readOperands, readOperands, operands, alike.operandTy kin.signature]
  have edges (edge : Nat) : takeEdge g j edge s = takeEdge f i edge s := by
    rw [kin.takeEdge, takeEdgeGoes, takeEdgeGoes, Inst.argsOf, Inst.argsOf, targets, args]
  unfold step
  simp only [reads, alike.isTerminator, alike.depart, alike.act, alike.write, edges]

namespace SameCore
variable {f g : Func} (s : SameCore f g)
include s

theorem runs : SameRuns f g := by
  refine .ofEqual fun World o args world n => runBlocksAlike (fun _ _ => True) (fun b words u _ => ?_) n 0
    args trivial
  refine ⟨?_, fun _ _ _ _ => trivial⟩
  have insts : ∀ {was now : List Inst}, now.map Inst.core = was.map Inst.core → ∀ u : State World,
      runInsts o g now u = runInsts o f was u := by
    intro was now same
    induction was generalizing now with
    | nil =>
      cases List.map_eq_nil_iff.mp same
      exact fun _ => rfl
    | cons i rest ih =>
      obtain ⟨j, others, rfl, first, later⟩ := List.map_eq_cons_iff.mp same
      intro u
      rw [runInsts, runInsts, stepCore o s.kin first]
      split
      · exact ih later _
      · rfl
  unfold runBlock
  dsimp only
  rw [s.kin.params, insts (s.insts b)]

theorem quiet (quiet : Quiet f) : Quiet g := by
  intro j inside
  have flat (h : Func) : h.insts.map Inst.core =
      (h.blocks.map (Block.mapInsts Inst.core)).flatMap Block.insts := by
    simp [Func.insts, List.map_flatMap, List.flatMap_map, Block.mapInsts]
  have listed : j.core ∈ f.insts.map Inst.core := by
    rw [flat, ← s.blocks, ← flat]
    exact List.mem_map_of_mem inside
  obtain ⟨i, there, same⟩ := List.mem_map.mp listed
  have was := quiet i there
  simp only [Inst.core, Inst.mk.injEq] at same
  obtain ⟨-, op, -, -, targets, args, intCond, floatCond, imm, callee, trapCode, -⟩ := same
  refine ⟨?_, ?_, ?_, fun other => ?_, ?_, ?_⟩
  · rw [← targets, ← args]
    exact was.args
  · rw [← op, ← intCond]
    exact was.intCond
  · rw [← op, ← floatCond]
    exact was.floatCond
  · rw [op, if_neg fun const => other (by simp [const]),
      if_neg fun const => other (by simp [const])] at imm
    exact imm ▸ was.imm (op ▸ other)
  · rw [← op, ← callee]
    exact was.callee
  · rw [← op, ← trapCode]
    exact was.trapCode

theorem remade (clean : Clean f) : Remade f g := ⟨s.toSameCode.clean clean, s.quiet, s.runs⟩

end SameCore

/-- A legalized function is as good as before and runs the same, and all of it can be encoded: no
literals but where constants are made, no float selects, no arguments on conditional edges. -/
theorem legalizationKeepsRuns (f g : Func) (verified : verifyFunction f = []) (quiet : Quiet f)
    (done : X64.legalize f = (g, .ok ())) :
    verifyFunction g = [] ∧ Quiet g ∧ SameRuns f g ∧ X64.Fitted g := by
  have clean : Clean f := ⟨verifiedIff.mp verified, quiet.tidy⟩
  have rewrites := X64.Legalize.rewritesRemade clean
  have made := rewrites.trans ((X64.legalizeEncodes done).1.remade rewrites.clean)
  exact ⟨verifiedIff.mpr made.clean.wellFormed, made.quiet quiet, made.runs, X64.legalizeFitted done⟩

def chooseFloat : Func :=
  { signature := { params := [.i64, .f64], returns := [.f64] }
    blocks := [
      { label := "entry", params := [⟨0, .i64⟩, ⟨1, .f64⟩]
        insts := [
          { result := some 2, op := .icmp, ty := .b1, intCond := .slt, operands := [.temp 0, .int 9] },
          { result := some 3, op := .select, ty := .f64, operands := [.temp 2, .temp 1, .float 0] },
          { op := .brif, operands := [.temp 2], targets := ["done", "done"],
            targetArgs := [[.temp 3], [.float 1]] }] },
      { label := "done", params := [⟨4, .f64⟩], insts := [{ op := .ret, operands := [.temp 4] }] }]
    valueTypes := [.i64, .f64, .b1, .f64, .f64] }

theorem chooseFloatLegalized : verifyFunction chooseFloat = [] ∧ Quiet chooseFloat ∧
    (X64.legalize chooseFloat).2 = .ok () ∧
    ((X64.legalize chooseFloat).1.blocks.map fun bb => (bb.label, bb.insts.map Inst.op)) =
      [("entry", [.icmp, .fconst, .brif]), ("entry.then4", [.jump]), ("entry.else3", [.jump]),
        ("entry.join2", [.fconst, .brif]), ("entry.join2.edge6", [.jump]),
        ("entry.join2.edge5", [.jump]), ("done", [.ret])] ∧
    (∃ m ≥ 2, run nowhere (X64.legalize chooseFloat).1 [4, 7] () m = run nowhere chooseFloat [4, 7] () 2) ∧
    (run nowhere chooseFloat [4, 7] () 2).ending = some (.returned [7]) := by
  have verified : verifyFunction chooseFloat = [] := by decide +kernel
  have quiet : Quiet chooseFloat := by decide +kernel
  have done : (X64.legalize chooseFloat).2 = .ok () := by rfl
  have runs := (legalizationKeepsRuns chooseFloat _ verified quiet (Prod.ext rfl done)).2.2.1
    Unit nowhere [4, 7] () 2
  exact ⟨verified, quiet, done, by decide +kernel, runs, by decide +kernel⟩

end SsaCodegen
