import SsaCodegen.Opt.Unreachable
import SsaCodegen.Proofs.Flow.Labels
import SsaCodegen.Proofs.Ir.Rewrite
/-! Removing unreachable blocks. A definition that a reachable use relies on is in a reachable
block, and a reachable branch leads to reachable blocks, so nothing is lost. -/
namespace SsaCodegen

theorem WellFormed.instTargets {f : Func} (ok : WellFormed f) {bb : Block} (inside : bb ∈ f.blocks)
    {inst : Inst} (listed : inst ∈ bb.insts) {label : String} (target : label ∈ inst.targets) :
    label ∈ bb.targets := by
  obtain ⟨body, last, same, ends, plain⟩ := ok.ended bb inside
  have final : inst.isTerminator = true := by
    cases ends : inst.isTerminator with
    | true => rfl
    | false =>
      rw [Structure.plainTargets (ok.sound bb inside inst listed).shape ends] at target
      cases target
  rw [same] at listed
  rcases List.mem_append.mp listed with early | ending
  · rw [plain inst early] at final
    cases final
  · rw [Ended.targets same ends, ← List.mem_singleton.mp ending]
    exact target

theorem flatMapSublist {α β : Type} {as bs : List α} (part : as.Sublist bs) (h : α → List β) :
    (as.flatMap h).Sublist (bs.flatMap h) := by
  induction part with
  | slnil => exact .refl _
  | cons a part ih => exact ih.trans (List.sublist_append_right _ _)
  | cons_cons a part ih => exact (List.Sublist.refl _).append ih

structure Trimmed (f g : Func) : Prop where
  signature : g.signature = f.signature
  types : g.valueTypes = f.valueTypes
  entry : ∀ entry rest, f.blocks = entry :: rest →
    ∃ rest', g.blocks = entry :: rest' ∧ rest'.Sublist rest
  reached : ∀ bb, bb ∈ g.blocks ↔ bb ∈ f.blocks ∧ Reaches f bb.label

namespace Trimmed
variable {f g : Func} (t : Trimmed f g)
include t

theorem blocks (ok : WellFormed f) : g.blocks.Sublist f.blocks := by
  obtain ⟨entry, rest, fits⟩ := ok.entry
  obtain ⟨rest', blocks, part⟩ := t.entry entry rest fits.blocks
  rw [fits.blocks, blocks]
  exact part.cons_cons entry

theorem reaches {label : String} (reaches : Reaches f label) : Reaches g label := by
  induction reaches with
  | entry first =>
    obtain ⟨rest', blocks, -⟩ := t.entry _ _ first
    exact .entry blocks
  | edge inside before pass target ih =>
    exact .edge ((t.reached _).mpr ⟨inside, before.reaches⟩) ih trivial target

theorem flows (ok : WellFormed f) {lets : Block → Prop} {label : String} (flows : Flows g lets label) :
    Flows f lets label := by
  refine flows.transfer (fun b others blocks => ?_) fun b inside pass => ?_
  · obtain ⟨entry, rest, fits⟩ := ok.entry
    obtain ⟨rest', blocks', -⟩ := t.entry entry rest fits.blocks
    obtain ⟨rfl, -⟩ := List.cons.inj (blocks.symm.trans blocks')
    exact ⟨b, rest, fits.blocks, rfl⟩
  · exact ⟨b, ((t.reached b).mp inside).1, rfl, pass, fun l target => target⟩

theorem defined (ok : WellFormed f) {bb : Block} (inside : bb ∈ g.blocks) {inst : Inst}
    (listed : inst ∈ bb.insts) {id : Nat} (used : id ∈ inst.usedTemps) : id ∈ g.definedIds := by
  obtain ⟨there, reaches⟩ := (t.reached bb).mp inside
  obtain ⟨home, located, defines⟩ := Func.memDefinedIds.mp ((ok.sound bb there inst listed).defined id used)
  refine Func.memDefinedIds.mpr ⟨home, (t.reached home).mpr ⟨located, ?_⟩, defines⟩
  have only : ∀ b ∈ f.blocks, id ∈ b.definedIds → b = home := fun b other also =>
    Func.oneHome ok.once other located also defines
  rcases FlowGraph.missingAtDefinition only reaches with missing | arrives
  · obtain ⟨before, after, split⟩ := List.append_of_mem listed
    have available := ok.available bb there reaches
    rw [split] at available
    rcases available.split used with known | ⟨i, earlier, result⟩
    · rcases known with found | param
      · exact absurd missing found
      · exact only bb there (List.mem_append_left _ param) ▸ reaches
    · have own : id ∈ bb.definedIds :=
        Block.memDefinedIds.mpr (.inr ⟨i, split ▸ List.mem_append_left _ earlier, result⟩)
      exact only bb there own ▸ reaches
  · exact arrives.reaches

theorem edgeFits (ok : WellFormed f) {bb : Block} (inside : bb ∈ g.blocks) {inst : Inst}
    (listed : inst ∈ bb.insts) {e : String × List Value}
    (edge : e ∈ inst.targets.zip inst.targetArgs) : EdgeFits g e.1 e.2 := by
  obtain ⟨there, reaches⟩ := (t.reached bb).mp inside
  obtain ⟨home, located, named, length, typed⟩ := (ok.sound bb there inst listed).edges e edge
  have target := ok.instTargets there listed (List.of_mem_zip edge).1
  have kept : home ∈ g.blocks := (t.reached home).mpr
    ⟨List.mem_of_mem_tail located, named ▸ .edge there reaches trivial target⟩
  obtain ⟨entry, rest, fits⟩ := ok.entry
  obtain ⟨rest', blocks, -⟩ := t.entry entry rest fits.blocks
  refine ⟨home, ?_, named, length, fun a arg => ?_⟩
  · rw [blocks] at kept ⊢
    refine (List.mem_cons.mp kept).resolve_left fun same => ?_
    rw [fits.blocks, List.tail_cons] at located
    have once := ok.labels
    rw [Func.labels, fits.blocks, List.map_cons, List.nodup_cons] at once
    exact once.1 (same ▸ List.mem_map_of_mem located)
  · refine (Structure.typeOfSame (fun id _ => ?_) _).trans (typed a arg)
    simp only [Func.valueType, t.types]

theorem wellFormed (ok : WellFormed f) : WellFormed g := by
  have sub := t.blocks ok
  refine ⟨?_, ok.labels.sublist (sub.map _), ok.once.sublist ?_, fun b inside => ?_,
    fun b inside => ok.ended b (sub.subset inside), fun b inside j listed => ?_,
    fun b inside reaches => ?_⟩
  · obtain ⟨entry, rest, fits⟩ := ok.entry
    obtain ⟨rest', blocks, part⟩ := t.entry entry rest fits.blocks
    exact ⟨entry, rest', blocks, t.signature ▸ fits.params, fits.opening,
      fun b listed => fits.others b (part.subset listed)⟩
  · exact flatMapSublist sub _
  · rw [t.types]
    exact ok.declared b (sub.subset inside)
  · have sound := ok.sound b (sub.subset inside) j listed
    refine ⟨⟨sound.shape, ?_, sound.lists, fun e edge => t.edgeFits ok inside listed edge⟩,
      fun id used => t.defined ok inside listed used⟩
    refine (Structure.typeMessagesSame (f := f) (i := j) (.refl fun v _ hint => ?_) rfl rfl rfl
      (fun _ => rfl) (by rw [t.signature])).trans sound.types
    refine Structure.typeOfSame (fun id _ => ?_) hint
    simp only [Func.valueType, t.types]
  · refine (ok.available b (sub.subset inside) (t.flows ok reaches)).mono fun v known => ?_
    exact known.imp_left fun found missing => found (t.flows ok missing)

theorem clean (clean : Clean f) : Clean g :=
  ⟨t.wellFormed clean.wellFormed, fun b inside => clean.tidy b ((t.blocks clean.wellFormed).subset inside)⟩

end Trimmed

open Unreachable in
theorem keptTrimmed {f : Func} (ok : WellFormed f) :
    Trimmed f { f with blocks := keptBlocks (DomTree.ofFunc f (FlowGraph.ofFunc f)) f.blocks } := by
  generalize tree : DomTree.ofFunc f (FlowGraph.ofFunc f) = t
  have reachable {k : Nat} {bb : Block} (located : f.blocks[k]? = some bb) :
      keeps t k = true ↔ Reaches f bb.label := by
    have inside : t.isReachable k = true ↔ Reaches f bb.label := by
      rw [← tree, DomTree.isReachable, List.contains_iff_mem, FlowGraph.memOrderIff ok.labels located]
    rw [keeps, Bool.or_eq_true, beq_iff_eq, inside]
    refine ⟨fun kept => kept.elim (fun zero => ?_) id, .inr⟩
    subst zero
    obtain ⟨entry, rest, fits⟩ := ok.entry
    rw [fits.blocks] at located
    cases Option.some.inj located
    exact .entry fits.blocks
  refine ⟨rfl, rfl, fun entry rest blocks => ?_, fun bb => ?_⟩
  · have part := keptSublist t f.blocks
    have opening : ∃ rest', keptBlocks t f.blocks = entry :: rest' :=
      ⟨_, by rw [keptBlocks, blocks, List.zipIdx_cons, List.filterMap_cons]; rfl⟩
    obtain ⟨rest', kept⟩ := opening
    rw [kept, blocks] at part
    exact ⟨rest', kept, List.cons_sublist_cons.mp part⟩
  · have listed : bb ∈ keptBlocks t f.blocks ↔
        ∃ k : Nat, f.blocks[k]? = some bb ∧ keeps t k = true := by
      simp only [keptBlocks, List.mem_filterMap, Prod.exists, List.mem_zipIdx_iff_getElem?,
        Option.ite_none_right_eq_some]
      constructor
      · rintro ⟨b, k, located, kept, same⟩
        cases same
        exact ⟨k, located, kept⟩
      · rintro ⟨k, located, kept⟩
        exact ⟨bb, k, located, kept, rfl⟩
    rw [listed]
    constructor
    · rintro ⟨k, located, kept⟩
      exact ⟨List.mem_of_getElem? located, (reachable located).mp kept⟩
    · rintro ⟨inside, reaches⟩
      obtain ⟨k, located⟩ := List.getElem?_of_mem inside
      exact ⟨k, located, (reachable located).mpr reaches⟩

theorem removeUnreachableTrims {f : Func} (ok : WellFormed f) :
    Trimmed f (removeUnreachable (DomTree.ofFunc f (FlowGraph.ofFunc f)) f).1 := by
  have trimmed := keptTrimmed ok
  have part := Unreachable.keptSublist (DomTree.ofFunc f (FlowGraph.ofFunc f)) f.blocks
  unfold removeUnreachable
  generalize Unreachable.keptBlocks _ f.blocks = kept at *
  dsimp only
  split
  · rename_i all
    cases part.eq_of_length all
    exact trimmed
  · exact ⟨rfl, rfl, trimmed.entry, trimmed.reached⟩

theorem Trimmed.reachable {f g : Func} (t : Trimmed f g) : ∀ bb ∈ g.blocks, Reaches g bb.label :=
  fun bb inside => t.reaches ((t.reached bb).mp inside).2

theorem removeUnreachableLowered {f : Func} (ok : Lowered f) :
    Lowered (removeUnreachable (DomTree.ofFunc f (FlowGraph.ofFunc f)) f).1 ∧
      ∀ bb ∈ (removeUnreachable (DomTree.ofFunc f (FlowGraph.ofFunc f)) f).1.blocks,
        Reaches (removeUnreachable (DomTree.ofFunc f (FlowGraph.ofFunc f)) f).1 bb.label := by
  have trimmed := removeUnreachableTrims ok.clean.wellFormed
  refine ⟨⟨trimmed.clean ok.clean, fun j inside => ?_⟩, trimmed.reachable⟩
  obtain ⟨bb, there, listed⟩ := List.mem_flatMap.mp inside
  exact ok.encoded j (Func.memInsts ((trimmed.blocks ok.clean.wellFormed).subset there) listed)

end SsaCodegen
