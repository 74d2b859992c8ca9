import SsaCodegen.Proofs.Layout.Emission
import SsaCodegen.Proofs.Layout.FrameLaid
import SsaCodegen.Proofs.Pipeline.Compile
/-! What the emission of a compiled function goes by, whether the function was well formed or not: legalization gives
every instruction the recipe of its opcode and no stage behind it changes the one without the other, and the slots that
values are in and calls list were given out when registers were allocated. -/
namespace SsaCodegen
open X64

def Inst.Built (i : Inst) : Prop := i.enc.recipe? = some (.ofOpcode i.op)

def Rebuilt (is js : List Inst) : Prop :=
  ∀ j ∈ js, j.Built ∨ ∃ i ∈ is, j.op = i.op ∧ j.enc.recipe = i.enc.recipe

namespace Rebuilt
variable {is js ks : List Inst}

theorem ofSubset (part : ∀ j ∈ js, j ∈ is) : Rebuilt is js := fun j inside => .inr ⟨j, part j inside, rfl, rfl⟩

theorem refl (is : List Inst) : Rebuilt is is := ofSubset fun _ => id

theorem trans (first : Rebuilt is js) (second : Rebuilt js ks) : Rebuilt is ks := by
  intro k inside
  rcases second k inside with built | ⟨j, middle, op, recipe⟩
  · exact .inl built
  · rcases first j middle with built | ⟨i, old, op', recipe'⟩
    · refine .inl ?_
      rw [Inst.Built, op, Encoding.recipe?, recipe]
      exact built
    · exact .inr ⟨i, old, op.trans op', recipe.trans recipe'⟩

theorem built (rebuilt : Rebuilt is js) (all : ∀ i ∈ is, i.Built) : ∀ j ∈ js, j.Built := by
  intro j inside
  rcases rebuilt j inside with built | ⟨i, old, op, recipe⟩
  · exact built
  · rw [Inst.Built, op, Encoding.recipe?, recipe]
    exact all i old

theorem modify {f : Func} {b : Nat} {change : Block → Block}
    (here : ∀ bb, f.blocks[b]? = some bb → Rebuilt bb.insts (change bb).insts) :
    Rebuilt f.insts (f.modifyBlock b change).insts := by
  intro j inside
  rcases memModify inside with old | ⟨bb, located, listed⟩
  · exact .inr ⟨j, old, rfl, rfl⟩
  · rcases here bb located j listed with built | ⟨i, was, same⟩
    · exact .inl built
    · exact .inr ⟨i, Func.memInsts (List.mem_of_getElem? located) was, same⟩

end Rebuilt

section Passes
variable {f g : Func}

theorem fuseCompareBranchesRebuilt (f : Func) : Rebuilt f.insts (fuseCompareBranches encode? f).1.insts := by
  intro j inside
  rcases fuseCompareBranchesInsts inside with old | ⟨i, enc, encoded, rfl⟩
  · exact .inr ⟨j, old, rfl, rfl⟩
  · exact .inl (Fits.ofEncoded encoded).recipe

theorem X64.Shuffled.rebuilt (shuffled : Shuffled f g) : Rebuilt f.insts g.insts := by
  intro j inside
  obtain ⟨i, old, targets, rfl⟩ := shuffled.insts j inside
  exact .inr ⟨i, old, rfl, rfl⟩

theorem X64.Enlarged.rebuilt (enlarged : Enlarged f g) : Rebuilt f.insts g.insts := by
  intro j inside
  rcases enlarged.insts j inside with ⟨i, old, targets, rfl⟩ | ⟨fits, -⟩
  · exact .inr ⟨i, old, rfl, rfl⟩
  · exact .inl fits.recipe

theorem insertPreheadersRebuilt (entries : List LoopInvariant.Entry) (f : Func) :
    Rebuilt f.insts (LoopInvariant.insertPreheaders encode? f entries).1.insts := by
  induction entries generalizing f with
  | nil => exact .refl _
  | cons e rest ih => exact (insertPreheaderEnlarged f e).rebuilt.trans (ih _)

theorem hoistInvariantsRebuilt (graph : FlowGraph) (loops : LoopForest) (f : Func) :
    Rebuilt f.insts (hoistInvariants encode? graph loops f).func.insts := by
  have done := insertPreheadersRebuilt (loops.loops.filterMap (LoopInvariant.entryOf? f graph)) f
  unfold hoistInvariants
  cases inserted : LoopInvariant.insertPreheaders encode? f _ with
  | mk h changed =>
    rw [inserted] at done
    have noted : Rebuilt f.insts h.noteLayoutChange.insts := done
    cases changed with
    | true => exact noted.trans (hoistAllShuffled _ _ _).rebuilt
    | false => exact done.trans (hoistAllShuffled _ _ _).rebuilt

open ValueNumbering in
theorem numberInstsRebuilt (scope : Scope) (insts : List Inst) : Rebuilt insts (numberInsts scope insts).1 := by
  induction insts generalizing scope with
  | nil => exact .refl _
  | cons i rest ih =>
    intro j inside
    rcases List.mem_append.mp inside with here | later
    · have kept : j ∈ (numberInst scope i).1.toList := here
      rcases numberInstCases scope i with ⟨present, -⟩ | ⟨id, e, -, -, -, absent, -⟩
      · rw [present] at kept
        cases List.mem_singleton.mp kept
        exact .inr ⟨i, List.mem_cons_self, rfl, rfl⟩
      · rw [absent] at kept
        cases kept
    · rcases ih _ j later with built | ⟨k, old, same⟩
      · exact .inl built
      · exact .inr ⟨k, List.mem_cons_of_mem _ old, same⟩

open ValueNumbering in
theorem numberValuesRebuilt (t : DomTree) (f : Func) : Rebuilt f.insts (numberValues t f).1.insts := by
  have visits (fuel : Nat) (leaders : Leaders) (p : Progress) (b : Nat) :
      Rebuilt (p.blocks.flatMap Block.insts) ((visit t fuel leaders p b).blocks.flatMap Block.insts) := by
    induction fuel generalizing leaders p b with
    | zero => exact .refl _
    | succ fuel ih =>
      unfold visit
      dsimp only
      refine LoopInvariant.foldKeeps (fun q : Progress => Rebuilt (p.blocks.flatMap Block.insts)
        (q.blocks.flatMap Block.insts)) _ (fun q below c _ => below.trans (ih _ q c)) ?_
      refine Rebuilt.modify (f := { blocks := p.blocks }) fun bb located => ?_
      rw [List.getD_eq_getElem?_getD, located]
      exact numberInstsRebuilt _ _
  unfold numberValues
  split
  · exact .refl _
  · refine (visits (t.order.length + 1) [] ⟨f.blocks, List.replicate f.numValues none, 0⟩ 0).trans ?_
    intro j inside
    obtain ⟨bb, there, listed⟩ := List.mem_flatMap.mp inside
    obtain ⟨was, old, rfl⟩ := List.mem_map.mp there
    obtain ⟨i, first, rfl⟩ := List.mem_map.mp listed
    exact .inr ⟨i, List.mem_flatMap.mpr ⟨was, old, first⟩, rfl, rfl⟩

theorem allocateRebuilt (regs : RegisterFile) (graph : FlowGraph) (t : DomTree) (f : Func) :
    Rebuilt f.insts (RegAlloc.run regs graph t f).1.insts := by
  unfold RegAlloc.run
  split
  · exact .refl _
  · split
    · exact .refl _
    · rename_i ivs made
      dsimp only
      rw [RegAlloc.recordSafepointsFold]
      refine LoopInvariant.foldKeeps (fun h : Func => Rebuilt f.insts h.insts) ivs.calls (fun h before c _ => ?_)
        (.refl _)
      refine before.trans (.modify fun bb _ j listed => .inr ?_)
      rcases memModifyInst listed with old | ⟨i, there, rfl⟩
      · exact ⟨j, old, rfl, rfl⟩
      · exact ⟨i, there, rfl, rfl⟩

theorem layOutFrameRebuilt {limits : Limits} (done : layOutFrame limits f = (g, .ok ())) :
    Rebuilt f.insts g.insts := by
  intro j inside
  rcases layOutFrameInsts done j inside with rfl | old
  · exact .inl rfl
  · exact .inr ⟨j, old, rfl, rfl⟩

theorem Reformed.rebuilt (reformed : Reformed f g) : Rebuilt f.insts g.insts := by
  intro j inside
  obtain ⟨i, old, same⟩ := reformed.mem inside
  exact .inr ⟨i, old, formlessRead same Inst.op, formlessRecipe same⟩

end Passes

namespace Session
variable {s u : Session} {t : Target}

theorem performRebuilt {stage : Stage} (late : stage ∈ Stage.all.drop 4) (done : s.perform t stage = (u, .ok ())) :
    Rebuilt s.func.insts u.func.insts := by
  have whole : Rebuilt s.func.insts (s.perform t stage).1.func.insts := by
    cases stage with
    | flowGraph | foldConstants | canonicalizeNans | legalize => simp [Stage.all] at late
    | dominators | refreshDominators | loops => exact .refl _
    | fuseBranches => exact fuseCompareBranchesRebuilt _
    | hoistInvariants => exact hoistInvariantsRebuilt _ _ s.func
    | numberValues => exact numberValuesRebuilt s.withTree.1 s.func
    | removeUnreachable =>
      have kept := removeUnreachableInsts (t := s.withTree.1) (f := s.func)
      simp only [perform, removeUnreachableBlocks]
      split <;> exact .ofSubset kept
    | eliminateDeadCode => exact .ofSubset fun _ => (eliminateDeadCodeThins s.withTree.1 s.func).mem
    | allocateRegisters =>
      rw [performAllocates]
      exact allocateRebuilt _ _ _ s.func
    | layOutFrame =>
      simp only [perform, Prod.mk.injEq] at done
      exact layOutFrameRebuilt (Prod.ext rfl done.2)
    | shrinkInstructions => exact (shrinkReforms s.func).rebuilt
    | relaxBranches =>
      have kept := (relaxBranchesReforms t.limits s.func).rebuilt
      simp only [perform, layOut]
      split <;> exact kept
  rwa [done] at whole

theorem legalizeDone (done : s.runStage t .legalize = (u, .ok ())) : ∃ f, legalize f = (u.func, .ok ()) := by
  obtain ⟨before, after, -, worked, ended, -⟩ := runStageDone done
  rw [← ended.func]
  simp only [perform, legalizeFunction] at worked
  cases made : legalize before.func with
  | mk f result =>
    rw [made] at worked
    cases result with
    | ok =>
      cases worked
      exact ⟨before.func, made⟩
    | error e => cases worked

theorem runBuilt (done : runStages t (Stage.activeFor t.flags) s = (u, .ok ())) : ∀ i ∈ u.func.insts, i.Built := by
  rw [activeAround t.flags 3 .legalize rfl rfl rfl] at done
  obtain ⟨first, -, rest⟩ := runStagesAppend done
  obtain ⟨legalized, one, later⟩ := runStagesCons rest
  obtain ⟨f, made⟩ := legalizeDone one
  have kept : Rebuilt legalized.func.insts u.func.insts :=
    runStagesCarry (fun f g => Rebuilt f.insts g.insts) (fun f => .refl f.insts) .trans
      (fun s u stage inside done => performRebuilt (List.mem_of_mem_filter inside) done) later
  exact kept.built fun i inside => (legalizeFitted made i inside).recipe

theorem runAllocated {holds : Func → Prop}
    (allocated : ∀ {graph tree f g}, RegAlloc.run registerFile graph tree f = (g, .ok ()) → holds g)
    (framed : ∀ {f g}, layOutFrame t.limits f = (g, .ok ()) → holds f → holds g)
    (reformed : ∀ {f g}, Reformed f g → holds f → holds g)
    (done : runStages t (Stage.activeFor t.flags) s = (u, .ok ())) : holds u.func := by
  rw [activeAround t.flags 12 .allocateRegisters rfl rfl rfl] at done
  obtain ⟨first, -, rest⟩ := runStagesAppend done
  obtain ⟨next, one, later⟩ := runStagesCons rest
  obtain ⟨before, after, -, worked, ended, -⟩ := runStageDone one
  have start : holds next.func := by
    rw [← ended.func]
    obtain ⟨made, result, -⟩ := allocateRuns before
    have worked : before.allocate = (after, .ok ()) := worked
    rw [worked] at made result
    exact allocated (Prod.ext made.symm result.symm)
  refine runStagesCarry (fun f g => holds f → holds g) (fun f => id)
    (fun first next ok => next (first ok)) (fun s u stage inside done ok => ?_) later start
  have stages : Stage.all.drop 13 = [.layOutFrame, .shrinkInstructions, .relaxBranches] := rfl
  have last : stage ∈ Stage.all.drop 13 := List.mem_of_mem_filter inside
  simp only [stages, List.mem_cons, List.not_mem_nil, or_false] at last
  rcases last with rfl | rfl | rfl
  · simp only [perform, Prod.mk.injEq] at done
    obtain ⟨rfl, succeeds⟩ := done
    exact framed (Prod.ext rfl succeeds) ok
  · cases done
    exact reformed (shrinkReforms s.func) ok
  · have kept := reformed (relaxBranchesReforms t.limits s.func) ok
    simp only [perform, layOut] at done
    split at done
    · cases done
      exact kept
    · cases done

def ListsSlots (f : Func) : Prop :=
  ∀ i ∈ f.insts, i.op = .call → ∀ slot ∈ i.safepointSlots, slot < f.stackSlots.length

theorem ListsSlots.reform {f g : Func} (ok : ListsSlots f) (r : Reformed f g) : ListsSlots g := by
  intro j inside called slot slots
  obtain ⟨i, old, same⟩ := r.mem inside
  rw [r.stackSlots]
  exact ok i old ((formlessRead same Inst.op).symm.trans called) slot (formlessRead same Inst.safepointSlots ▸ slots)

theorem runListsSlots (done : runStages t (Stage.activeFor t.flags) s = (u, .ok ())) : ListsSlots u.func := by
  refine runAllocated RegAlloc.runListsGiven (fun laid ok j inside called slot slots => ?_)
    (fun reformed ok => ListsSlots.reform ok reformed) done
  rw [(frameLaidOf laid).slotCount]
  rcases layOutFrameInsts laid j inside with rfl | old
  · cases called
  · exact ok j old called slot slots

def HasSlots (f : Func) : Prop := ∀ slot, .slot slot ∈ f.locations → slot < f.stackSlots.length

theorem HasSlots.reform {f g : Func} (ok : HasSlots f) (r : Reformed f g) : HasSlots g := by
  unfold HasSlots
  rw [r.locations, r.stackSlots]
  exact ok

theorem runHasSlots (done : runStages t (Stage.activeFor t.flags) s = (u, .ok ())) : HasSlots u.func := by
  refine runAllocated RegAlloc.runHomesGiven (fun laid ok => ?_) (fun reformed ok => HasSlots.reform ok reformed) done
  unfold HasSlots
  rw [(frameLaidOf laid).locations, (frameLaidOf laid).slotCount]
  exact ok

end Session
end SsaCodegen
