import Mathlib.Logic.Relation
import SsaCodegen.Proofs.Execution.Routes
import SsaCodegen.Proofs.Ir.Expand
import SsaCodegen.Proofs.Ir.Quiet
import SsaCodegen.Proofs.Opt.LoopInvariant
import SsaCodegen.X64.Recipe
/-! Hoisting keeps runs. A run that is sent through a preheader comes to the header with the same
words, one block later, and it does not matter where pure instructions stand. -/
namespace SsaCodegen
open Semantics Structure
namespace LoopInvariant

section Step
variable {f : Func} (clean : Clean f)
include clean

theorem typedClean (types : List Ty) : Clean { f with valueTypes := f.valueTypes ++ types } := by
  have r : Rewrites f { f with valueTypes := f.valueTypes ++ types } :=
    ⟨rfl, List.prefix_append _ _, rfl⟩
  have insts (insts : List Inst) (inside : ∀ i ∈ insts, i ∈ f.insts) (n : Nat) :
      Expanded { f with valueTypes := f.valueTypes ++ types } n insts insts n := by
    induction insts with
    | nil => exact .nil
    | cons i rest ih =>
      exact .cons (.keep clean.wellFormed r (inside i List.mem_cons_self) n)
        (ih fun j later => inside j (List.mem_cons_of_mem _ later))
  have blocks (blocks : List Block) (inside : ∀ bb ∈ blocks, bb ∈ f.blocks) (n : Nat) :
      ExpandedBlocks { f with valueTypes := f.valueTypes ++ types } n blocks blocks n := by
    induction blocks with
    | nil => exact .nil
    | cons bb rest ih =>
      exact .cons (insts bb.insts (fun i listed => Func.memInsts (inside bb List.mem_cons_self) listed) n)
        (ih fun b later => inside b (List.mem_cons_of_mem _ later))
  exact clean.expand rfl (List.prefix_append _ _) (blocks f.blocks (fun _ listed => listed) f.numValues)

theorem PreheaderStep.stillClean {g : Func} (step : PreheaderStep f g) : Clean g := by
  cases step with
  | typed types => exact typedClean clean types
  | inserted located later unused turned => exact preheaderClean clean located later unused turned

section Inserted
variable {F : Func} {header : Nat} {home : Block} {label : String} {enc : Encoding}
  (located : f.blocks[header]? = some home) (later : 0 < header) (unused : label ∉ f.labels)
  (turned : Turned home.label label (f.valueTypes ++ home.params.map Param.ty) f F)

omit clean in
include turned in
theorem insertedCases {b : Block} (located : f.blocks[header]? = some home)
    (there : b ∈ (F.insertBlock header (preheader f home label enc)).blocks) :
    b = preheader f home label enc ∨ ∃ a ∈ f.blocks, a.label = b.label ∧
      (b = a ∨ b = retarget home.label label a) := by
  have below : header < F.blocks.length := turned.length ▸ (List.getElem?_eq_some_iff.mp located).1
  rcases (List.mem_insertIdx (Nat.le_of_lt below)).mp there with rfl | old
  · exact .inl rfl
  · obtain ⟨a, inside, pair⟩ := turned.rewrites.pairOf old
    exact .inr ⟨a, inside, (turned.rewrites.sameHead pair).1.symm, turned.pairs a b pair⟩

include clean located later unused turned

theorem turnedRoutes {a : Block} (inside : a ∈ f.blocks) :
    Rerouted f (F.insertBlock header (preheader f home label enc)) a (retarget home.label label a) := by
  have ok := clean.wellFormed
  obtain ⟨d, tail⟩ := preheaderDetour enc clean located later unused turned
  have labels := (d.clean clean).wellFormed.labels
  have x := d.toExtends ok
  have below : header < F.blocks.length := turned.length ▸ (List.getElem?_eq_some_iff.mp located).1
  have way : preheader f home label enc ∈ (F.insertBlock header (preheader f home label enc)).blocks :=
    (List.mem_insertIdx (Nat.le_of_lt below)).mpr (.inl rfl)
  obtain ⟨body, last, split, ends, -⟩ := ok.ended a inside
  have listed : last ∈ f.insts :=
    Func.memInsts inside (split ▸ List.mem_append_right _ List.mem_cons_self)
  rw [retargetEnds split ends]
  refine ⟨rfl, body, last, _, last.targetArgs, split, rfl, fun World o edge s t below => ?_⟩
  cases named : last.targets[edge]? with
  | none => exact edgeStays ok labels x listed (by simp [named]) rfl below
  | some l =>
    by_cases onward : l = home.label
    · obtain ⟨c, tail', rfl, count, old⟩ := edgeAt ok listed named
      cases Func.sameOfLabel ok.labels (List.mem_of_mem_tail tail') (List.mem_of_getElem? located) onward
      have sent : (last.targets.map fun l => if l = home.label then label else l)[edge]? =
          some (preheader f home label enc).label := by simp [named, preheader]
      rw [takeEdgeGoes, takeEdgeGoes, named]
      dsimp only
      rw [sent]
      refine goThrough ok.labels labels x tail way d.insts rfl rfl rfl old below
        d.params.2 d.params.1 ?_ rfl count
      exact freshParamsTypes ..
    · exact edgeStays ok labels x listed (by simp [named, onward]) rfl below

theorem insertedRuns : SameRuns f (F.insertBlock header (preheader f home label enc)) := by
  have ok := clean.wellFormed
  obtain ⟨d, -⟩ := preheaderDetour enc clean located later unused turned
  have labels := (d.clean clean).wellFormed.labels
  have x := d.toExtends ok
  refine .ofRoutes ok x ?_ fun a inside b there same => ?_
  · rw [← turned.rewrites.labels, Func.labels, Func.labels, List.head?_map, List.head?_map,
      List.head?_eq_getElem?, List.head?_eq_getElem?]
    exact congrArg (Option.map Block.label) (List.getElem?_insertIdx_of_lt later)
  · rcases insertedCases turned located there with rfl | ⟨a', inside', label', pair⟩
    · have named : label = a.label := same
      exact absurd (named ▸ List.mem_map_of_mem inside) unused
    · cases Func.sameOfLabel ok.labels inside' inside (label'.trans same)
      rcases pair with rfl | rfl
      · exact .self ok labels x inside
      · exact turnedRoutes clean located later unused turned inside

end Inserted

theorem PreheaderStep.runs {g : Func} (step : PreheaderStep f g) : SameRuns f g := by
  have labels := (step.stillClean clean).wellFormed.labels
  have ok := clean.wellFormed
  cases step with
  | typed types =>
    have r : Rewrites f { f with valueTypes := f.valueTypes ++ types } :=
      ⟨rfl, List.prefix_append _ _, rfl⟩
    refine .ofRoutes ok r.toExtends rfl fun a inside b there same => ?_
    cases Func.sameOfLabel ok.labels there inside same
    exact .self ok labels r.toExtends inside
  | inserted located later unused turned => exact insertedRuns clean located later unused turned

theorem PreheaderStep.quiet {g : Func} (step : PreheaderStep f g) (quiet : Quiet f) : Quiet g := by
  cases step with
  | typed types => exact quiet
  | @inserted F header home label enc located later unused turned =>
    intro j inside
    obtain ⟨b, there, listed⟩ := List.mem_flatMap.mp inside
    rcases insertedCases turned located there with rfl | ⟨a, origin, -, rfl | rfl⟩
    · cases List.mem_singleton.mp listed
      exact jumpQuiet ..
    · exact quiet j (Func.memInsts origin listed)
    · obtain ⟨body, last, same, ends, -⟩ := clean.wellFormed.ended a origin
      rw [retargetEnds same ends] at listed
      rcases List.mem_append.mp listed with early | final
      · exact quiet j (Func.memInsts origin (same ▸ List.mem_append_left _ early))
      · cases List.mem_singleton.mp final
        have was := quiet last (Func.memInsts origin (same ▸ List.mem_append_right _ List.mem_cons_self))
        exact { was with args := fun absent => was.args (List.map_eq_nil_iff.mp absent) }

omit clean in
theorem PreheaderStep.entry {g : Func} (step : PreheaderStep f g) {bb : Block}
    (first : g.blocks[0]? = some bb) : ∃ a, f.blocks[0]? = some a ∧ a.label = bb.label := by
  cases step with
  | typed types => exact ⟨bb, first, rfl⟩
  | inserted located later unused turned => exact turnedEntry turned later _ first

end Step

open Relation (ReflTransGen)

theorem stepsKeep {f g : Func} (steps : ReflTransGen PreheaderStep f g) (clean : Clean f) (quiet : Quiet f) :
    Clean g ∧ Quiet g ∧ SameRuns f g := by
  induction steps with
  | refl => exact ⟨clean, quiet, .refl f⟩
  | tail _ step ih =>
    obtain ⟨clean, quiet, runs⟩ := ih
    exact ⟨step.stillClean clean, step.quiet clean quiet, runs.trans (step.runs clean)⟩

theorem insertPreheadersSteps (encode : Func → Inst → Option Encoding) (entries : List Entry) {f : Func}
    (clean : Clean f) (other : ∀ e ∈ entries, ∀ bb, f.blocks[0]? = some bb → bb.label ≠ e.header) :
    ReflTransGen PreheaderStep f (insertPreheaders encode f entries).1 ∧
      ((insertPreheaders encode f entries).2 = false → ∃ types,
        (insertPreheaders encode f entries).1 = { f with valueTypes := f.valueTypes ++ types }) := by
  induction entries generalizing f with
  | nil => exact ⟨.refl, fun _ => ⟨[], by rw [List.append_nil]; rfl⟩⟩
  | cons e rest ih =>
    have now : ∃ g done, insertPreheader encode f e = (g, done) ∧ PreheaderStep f g ∧
        (done = false → ∃ types, g = { f with valueTypes := f.valueTypes ++ types }) := by
      rcases insertPreheaderCases encode clean.wellFormed (other e List.mem_cons_self) with
        ⟨types, same, -⟩ | ⟨F, header, home, label, enc, located, later, unused, turned, -, same⟩
      · exact ⟨_, _, same, .typed types, fun _ => ⟨types, rfl⟩⟩
      · exact ⟨_, _, same, .inserted located later unused turned, fun no => nomatch no⟩
    obtain ⟨g, done, same, step, idle⟩ := now
    obtain ⟨steps, idle'⟩ := ih (step.stillClean clean) fun e' listed bb located => by
      obtain ⟨a, first, label⟩ := step.entry located
      exact label ▸ other e' (List.mem_cons_of_mem _ listed) a first
    unfold insertPreheaders
    rw [same]
    refine ⟨.head step steps, fun no => ?_⟩
    obtain ⟨first, second⟩ := Bool.or_eq_false_iff.mp no
    obtain ⟨types, rfl⟩ := idle first
    obtain ⟨more, done⟩ := idle' second
    exact ⟨types ++ more, done.trans (by rw [List.append_assoc])⟩

end LoopInvariant

open LoopInvariant Relation in
theorem hoistedFrom (encode : Func → Inst → Option Encoding) {f : Func} (clean : Clean f) (quiet : Quiet f)
    {g : Func} (made : (hoistInvariants encode (FlowGraph.ofFunc f)
      (LoopForest.ofFunc f (FlowGraph.ofFunc f) (DomTree.ofFunc f (FlowGraph.ofFunc f))) f).func = g) :
    Clean g ∧ Quiet g ∧ SameRuns f g ∧ ∃ e, ReflTransGen PreheaderStep f e ∧ Rearranged e g := by
  obtain ⟨steps, idle⟩ := insertPreheadersSteps encode ((LoopForest.ofFunc f (FlowGraph.ofFunc f)
    (DomTree.ofFunc f (FlowGraph.ofFunc f))).loops.filterMap (entryOf? f (FlowGraph.ofFunc f))) clean
    fun e listed bb first => entryHeader clean.wellFormed listed first
  unfold hoistInvariants at made
  generalize insertPreheaders encode f _ = inserted at made steps idle
  obtain ⟨e, changed⟩ := inserted
  dsimp only at made steps idle
  obtain ⟨cleanE, quietE, runs⟩ := stepsKeep steps clean quiet
  have moves : Clean g ∧ Rearranged e g := by
    cases changed with
    | true =>
      obtain ⟨cleanG, moved⟩ := hoistAllRearranged ((SameCode.noted e).clean cleanE) made
      have noted : Rearranged e e.noteLayoutChange :=
        ⟨⟨rfl, rfl, rfl, fun _ => rfl⟩, fun _ => rfl, .refl _⟩
      exact ⟨cleanG, noted.trans moved⟩
    | false =>
      obtain ⟨types, rfl⟩ := idle rfl
      exact hoistAllRearranged cleanE made
  obtain ⟨cleanG, moved⟩ := moves
  refine ⟨cleanG, fun j inside => quietE j (moved.insts.mem_iff.mp inside), ?_, e, steps, moved⟩
  exact runs.trans (.ofEqual fun World o args world n =>
    motionRuns cleanE.wellFormed cleanG.wellFormed moved args world n)

open LoopInvariant Relation in
/-- Hoisting keeps a function well-formed and its runs the same. Edges go through preheaders, which
pass on what they get; then only pure instructions move, and what they define is defined on every
path to its uses. All analyses are made anew. -/
theorem hoistingKeepsRuns (encode : Func → Inst → Option Encoding) (a : Analyses) (f : Func)
    (verified : verifyFunction f = []) (quiet : Quiet f) (current : a.Current f) :
    let (h, b) := hoistWith encode a f
    let g := h.func
    verifyFunction g = [] ∧ Quiet g ∧ SameRuns f g ∧
    (∃ e, ReflTransGen PreheaderStep f e ∧ Rearranged e g ∧
      ∀ bb ∈ g.blocks, Reaches g bb.label → Available (KnownAt g bb) bb.insts) ∧
    b.currentGraph? g = some (FlowGraph.ofFunc g) ∧
    b.currentTree? = some (DomTree.ofFunc g (FlowGraph.ofFunc g)) ∧
    b.currentLoops? = some (LoopForest.ofFunc g (FlowGraph.ofFunc g) (DomTree.ofFunc g (FlowGraph.ofFunc g))) := by
  have clean : Clean f := ⟨verifiedIff.mp verified, quiet.tidy⟩
  obtain ⟨loops, current, -⟩ := current.needLoops
  obtain ⟨graph, current, -⟩ := current.needGraph
  simp only [hoistWith, loops, graph]
  obtain ⟨cleanG, quietG, runs, e, steps, moved⟩ := hoistedFrom encode clean quiet rfl
  refine ⟨verifiedIff.mpr cleanG.wellFormed, quietG, runs,
    ⟨e, steps, moved, cleanG.wellFormed.available⟩, ?_⟩
  split
  · exact (current.refreshAll _).refreshed _
  · exact current.refreshed _

def tripleInLoop : Func :=
  { signature := { params := [.i64], returns := [.i64] }
    blocks := [
      { label := "entry", params := [⟨0, .i64⟩]
        insts := [
          { result := some 1, op := .icmp, ty := .b1, operands := [.temp 0, .int 9] },
          { op := .brif, operands := [.temp 1], targets := ["done", "loop"],
            targetArgs := [[.int 9], [.int 6]] }] },
      { label := "loop", params := [⟨2, .i64⟩]
        insts := [
          { result := some 3, op := .imul, ty := .i64, operands := [.temp 0, .int 3] },
          { result := some 4, op := .icmp, ty := .b1, operands := [.temp 2, .temp 3] },
          { op := .brif, operands := [.temp 4], targets := ["done", "loop"],
            targetArgs := [[.temp 3], [.temp 3]] }] },
      { label := "done", params := [⟨5, .i64⟩], insts := [{ op := .ret, operands := [.temp 5] }] }]
    valueTypes := [.i64, .b1, .i64, .i64, .b1, .i64] }

theorem tripleHoisted : verifyFunction tripleInLoop = [] ∧ Quiet tripleInLoop ∧
    ((hoistWith X64.encode? {} tripleInLoop).1.func.blocks.map fun bb => (bb.label, bb.insts.map Inst.op)) =
      [("entry", [.icmp, .brif]), ("loop.preheader3", [.imul, .jump]), ("loop", [.icmp, .brif]),
        ("done", [.ret])] ∧
    (∃ m ≥ 4, run nowhere (hoistWith X64.encode? {} tripleInLoop).1.func [4] () m =
      run nowhere tripleInLoop [4] () 4) ∧
    (run nowhere tripleInLoop [4] () 4).ending = some (.returned [12]) := by
  have verified : verifyFunction tripleInLoop = [] := by decide +kernel
  have quiet : Quiet tripleInLoop := by decide +kernel
  have runs := (hoistingKeepsRuns X64.encode? {} tripleInLoop verified quiet (.ofEmpty rfl rfl rfl)).2.2.1
    Unit nowhere [4] () 4
  exact ⟨verified, quiet, by decide +kernel, runs, by decide +kernel⟩

end SsaCodegen
