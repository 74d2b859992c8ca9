import SsaCodegen.Proofs.Legalize.Fitted
import SsaCodegen.Proofs.Opt.Settled
import SsaCodegen.Proofs.Pipeline.Current
/-! One run of hoisting is enough. It leaves every loop with a preheader and with nothing to hoist, and a second
run finds nothing to do in such loops. -/
namespace SsaCodegen
namespace LoopInvariant

structure Spent (f : Func) (l : Loop) : Prop where
  entered : ∃ p, entering (FlowGraph.ofFunc f) l = [p] ∧ (FlowGraph.ofFunc f).successors p = [l.header]
  settled : Settled f l

theorem preheaderOfEntered {f : Func} (ok : WellFormed f) {l : Loop} (inside : l ∈ f.loops.loops)
    (entered : ∃ p, entering (FlowGraph.ofFunc f) l = [p] ∧ (FlowGraph.ofFunc f).successors p = [l.header]) :
    ∃ p, preheader? (FlowGraph.ofFunc f) l = some p :=
  entered.imp fun _ => (preheaderFound (LoopForest.exact ok.someBlock inside)).mpr

theorem hoistAllSpent {f : Func} (clean : Clean f) (entered : ∀ l ∈ f.loops.loops, ∃ p,
    entering (FlowGraph.ofFunc f) l = [p] ∧ (FlowGraph.ofFunc f).successors p = [l.header]) {g : Func}
    (made : hoistAll (FlowGraph.ofFunc f) f.loops.loops f = g) : Clean g ∧ ∀ l ∈ g.loops.loops, Spent g l := by
  obtain ⟨cleanG, flow, settled⟩ := hoistAllSettled clean (Eq.refl f.loops.loops) fun l inside =>
    preheaderOfEntered clean.wellFormed inside (entered l inside)
  rw [made] at cleanG flow settled
  refine ⟨cleanG, fun l inside => ?_⟩
  rw [(sameFlow flow).2] at inside
  exact ⟨flow.symm ▸ entered l inside, settled l inside⟩

section Run
variable {encode : Func → Inst → Option Encoding}

theorem hoistInvariantsSpent (jumps : ∀ f label (params : List Param),
      (encode f (jumpTo label (params.map fun p => .temp p.id) {})).isSome = true) {f : Func} (clean : Clean f)
        {g : Func}
    (made : (hoistInvariants encode (FlowGraph.ofFunc f)
      (LoopForest.ofFunc f (FlowGraph.ofFunc f) (DomTree.ofFunc f (FlowGraph.ofFunc f))) f).func = g) :
    Clean g ∧ ∀ l ∈ g.loops.loops, Spent g l := by
  obtain ⟨cleanH, pending, idle⟩ := insertPreheadersPending jumps _ clean (startPending clean.wellFormed)
  unfold hoistInvariants at made
  generalize insertPreheaders encode f _ = inserted at made cleanH pending idle
  obtain ⟨h, changed⟩ := inserted
  dsimp only at made cleanH pending idle
  have entered (l : Loop) (inside : l ∈ h.loops.loops) := pending.entered cleanH.wellFormed inside
  cases changed with
  | true => exact hoistAllSpent ((SameCode.noted h).clean cleanH) entered made
  | false =>
    cases idle rfl
    exact hoistAllSpent clean entered made

theorem hoistInvariantsIdle {g : Func} (ok : WellFormed g) (spent : ∀ l ∈ g.loops.loops, Spent g l) :
    hoistInvariants encode (FlowGraph.ofFunc g) g.loops g = ⟨g, false, false⟩ := by
  have empty : g.loops.loops.filterMap (entryOf? g (FlowGraph.ofFunc g)) = [] := by
    refine List.filterMap_eq_nil_iff.mpr fun l inside => ?_
    obtain ⟨p, found⟩ := preheaderOfEntered ok inside (spent l inside).entered
    simp [entryOf?, found]
  simp only [hoistInvariants, empty, insertPreheaders, hoistAllSame fun l inside => (spent l inside).settled,
    bne_self_eq_false, Bool.false_eq_true, if_false]

end Run

end LoopInvariant

open LoopInvariant in
/-- After hoisting each loop is entered from one block that leads nowhere else, a pure instruction in a loop reads
something that the loop defines, and by whatever analyses are current hoisting again does nothing. -/
theorem hoistingSettles (a : Analyses) (f : Func) (verified : verifyFunction f = []) (quiet : Quiet f)
    (current : a.Current f) :
    let (h, b) := hoistWith X64.encode? a f
    let g := h.func
    let flow := FlowGraph.ofFunc g
    b.Current g ∧ b.currentLoops? = some g.loops ∧
    (∀ l ∈ g.loops.loops, ∃ p, entering flow l = [p] ∧ flow.successors p = [l.header]) ∧
    (∀ l ∈ g.loops.loops, ∀ b ∈ l.blocks, ∀ i ∈ (g.block b).insts, i.op.isPure = true →
      ∃ v k, .temp v ∈ i.operands ∧ k ∈ l.blocks ∧ v ∈ (g.block k).definedIds) ∧
    ∀ c : Analyses, c.Current g →
      (hoistWith X64.encode? c g).1.changed = false ∧ (hoistWith X64.encode? c g).1.func = g := by
  have clean : Clean f := ⟨verifiedIff.mp verified, quiet.tidy⟩
  obtain ⟨loops, current, -⟩ := current.needLoops
  obtain ⟨graph, current, -⟩ := current.needGraph
  simp only [hoistWith, loops, graph]
  obtain ⟨cleanG, spent⟩ := hoistInvariantsSpent X64.encodeJump clean rfl
  generalize hoistInvariants X64.encode? _ _ f = h at cleanG spent ⊢
  have ok := cleanG.wellFormed
  refine ⟨?_, ?_, fun l inside => (spent l inside).entered,
    fun l inside b within i here isPure => (spent l inside).settled.reads ok within here isPure, fun c made => ?_⟩
  · split
    · exact (current.refreshAll _).refreshAll _
    · exact current.refreshAll _
  · split
    · exact ((current.refreshAll _).refreshed _).2.2
    · exact (current.refreshed _).2.2
  · obtain ⟨loops, made, -⟩ := made.needLoops
    obtain ⟨graph, -, -⟩ := made.needGraph
    have idle : hoistInvariants X64.encode? (FlowGraph.ofFunc h.func) h.func.loops h.func = ⟨h.func, false, false⟩ :=
      hoistInvariantsIdle ok spent
    rw [loops, graph]
    change (hoistInvariants _ _ h.func.loops h.func).changed = false ∧
      (hoistInvariants _ _ h.func.loops h.func).func = _
    rw [idle]
    exact ⟨rfl, rfl⟩

def sumInNest : Func :=
  { signature := { params := [.i64], returns := [.i64] }
    blocks := [
      { label := "entry", params := [⟨0, .i64⟩]
        insts := [
          { result := some 1, op := .icmp, ty := .b1, operands := [.temp 0, .int 9] },
          { op := .brif, operands := [.temp 1], targets := ["done", "outer"],
            targetArgs := [[.int 9], [.int 6]] }] },
      { label := "outer", params := [⟨2, .i64⟩]
        insts := [
          { result := some 3, op := .icmp, ty := .b1, operands := [.temp 2, .int 5] },
          { op := .brif, operands := [.temp 3], targets := ["done", "inner"],
            targetArgs := [[.temp 2], [.temp 2]] }] },
      { label := "inner", params := [⟨4, .i64⟩]
        insts := [
          { result := some 5, op := .imul, ty := .i64, operands := [.temp 0, .int 3] },
          { result := some 6, op := .iadd, ty := .i64, operands := [.temp 2, .temp 5] },
          { result := some 7, op := .icmp, ty := .b1, operands := [.temp 4, .temp 6] },
          { op := .brif, operands := [.temp 7], targets := ["inner", "outer"],
            targetArgs := [[.temp 6], [.temp 6]] }] },
      { label := "done", params := [⟨8, .i64⟩], insts := [{ op := .ret, operands := [.temp 8] }] }]
    valueTypes := [.i64, .b1, .i64, .b1, .i64, .i64, .i64, .b1, .i64] }

theorem nestSettled : verifyFunction sumInNest = [] ∧ Quiet sumInNest ∧
    ((hoistWith X64.encode? {} sumInNest).1.func.blocks.map fun bb => (bb.label, bb.insts.map Inst.op)) =
      [("entry", [.icmp, .brif]), ("outer.preheader4", [.imul, .jump]), ("outer", [.icmp, .brif]),
        ("inner.preheader5", [.iadd, .jump]), ("inner", [.icmp, .brif]), ("done", [.ret])] ∧
    ((hoistWith X64.encode? {} sumInNest).1.func.loops.loops.map fun l => (l.header, l.depth)) = [(2, 1), (4, 2)] ∧
    (hoistWith X64.encode? (hoistWith X64.encode? {} sumInNest).2
      (hoistWith X64.encode? {} sumInNest).1.func).1.changed =
      false := by
  have verified : verifyFunction sumInNest = [] := by decide +kernel
  have quiet : Quiet sumInNest := by decide +kernel
  obtain ⟨current, -, -, -, again⟩ := hoistingSettles {} sumInNest verified quiet (.ofEmpty rfl rfl rfl)
  exact ⟨verified, quiet, by decide +kernel, by decide +kernel, (again _ current).1⟩

end SsaCodegen
