import SsaCodegen.Proofs.Ir.Rewrite
/-! Changes in place. Where each instruction is replaced by one that defines the same, reads
no more and takes no other edge, a well-formed function stays well-formed. Encodings, pool
indices and stack maps are not looked at. -/
namespace SsaCodegen
open Structure (typeOf typeMessages shapeMessages)

structure InstNarrows (g : Func) (i j : Inst) : Prop where
  result : j.result = i.result
  ty : j.ty = i.ty
  ends : j.isTerminator = i.isTerminator
  opens : j.op = .prologue → i.op = .prologue
  uses : ∀ id ∈ j.usedTemps, id ∈ i.usedTemps
  targets : ∀ l ∈ j.targets, l ∈ i.targets
  edges : ∀ e ∈ j.targets.zip j.targetArgs, e ∈ i.targets.zip i.targetArgs
  shape : shapeMessages j = []
  types : typeMessages g j = []
  lists : j.targets ≠ [] → j.targetArgs.length = j.targets.length
  tidy : i.Tidy → j.Tidy

namespace InstNarrows

theorem ofSound {f : Func} {i : Inst} (sound : SoundInst f i) : InstNarrows f i i :=
  ⟨rfl, rfl, rfl, id, fun _ used => used, fun _ inside => inside, fun _ inside => inside,
    sound.shape, sound.types, sound.lists, id⟩

theorem inFunction {f g : Func} {i j : Inst} (n : InstNarrows f i j)
    (types : g.valueTypes = f.valueTypes) (signature : g.signature = f.signature) :
    InstNarrows g i j := by
  refine { n with types := ?_ }
  refine (Structure.typeMessagesSame (f := f) ?_ rfl rfl rfl (fun _ => rfl) (by rw [signature])).trans
    n.types
  refine .refl fun v _ hint => Structure.typeOfSame (fun id _ => ?_) hint
  simp only [Func.valueType, types]

end InstNarrows

structure BlockNarrows (g : Func) (a b : Block) : Prop where
  label : b.label = a.label
  params : b.params = a.params
  length : b.insts.length = a.insts.length
  insts : ∀ (k : Nat) j, b.insts[k]? = some j → ∃ i, a.insts[k]? = some i ∧ InstNarrows g i j

structure Narrows (f g : Func) : Prop where
  signature : g.signature = f.signature
  types : g.valueTypes = f.valueTypes
  length : g.blocks.length = f.blocks.length
  blocks : ∀ (n : Nat) b, g.blocks[n]? = some b → ∃ a, f.blocks[n]? = some a ∧ BlockNarrows g a b

namespace BlockNarrows
variable {g : Func} {a b : Block} (n : BlockNarrows g a b)
include n

theorem mem {j : Inst} (inside : j ∈ b.insts) : ∃ i ∈ a.insts, InstNarrows g i j := by
  obtain ⟨k, there⟩ := List.getElem?_of_mem inside
  obtain ⟨i, old, narrows⟩ := n.insts k j there
  exact ⟨i, List.mem_of_getElem? old, narrows⟩

theorem memTail {j : Inst} (inside : j ∈ b.insts.tail) : ∃ i ∈ a.insts.tail, InstNarrows g i j := by
  obtain ⟨k, there⟩ := List.getElem?_of_mem inside
  rw [List.getElem?_tail] at there
  obtain ⟨i, old, narrows⟩ := n.insts _ _ there
  rw [← List.getElem?_tail] at old
  exact ⟨i, List.mem_of_getElem? old, narrows⟩

theorem results : b.insts.map Inst.result = a.insts.map Inst.result := by
  refine List.ext_getElem? fun k => ?_
  rw [List.getElem?_map, List.getElem?_map]
  cases new : b.insts[k]? with
  | none =>
    have beyond := List.getElem?_eq_none_iff.mp new
    rw [List.getElem?_eq_none (n.length ▸ beyond)]
  | some j =>
    obtain ⟨i, old, narrows⟩ := n.insts k j new
    rw [old, Option.map_some, Option.map_some, narrows.result]

theorem definedIds : b.definedIds = a.definedIds := by
  have results (insts : List Inst) : insts.filterMap Inst.result =
      (insts.map Inst.result).filterMap id := by
    rw [List.filterMap_map]
    rfl
  rw [Block.definedIds, Block.definedIds, results, n.results, ← results, Block.paramIds, n.params]
  rfl

theorem ended (ok : Ended a.insts) : Ended b.insts ∧ ∀ l ∈ b.targets, l ∈ a.targets := by
  obtain ⟨body, last, same, ends, inner⟩ := ok
  have count : b.insts.length = body.length + 1 := by
    rw [n.length, same, List.length_append, List.length_singleton]
  obtain ⟨final, located⟩ : ∃ final, b.insts[body.length]? = some final :=
    ⟨_, List.getElem?_eq_getElem (by omega)⟩
  have split : b.insts = b.insts.take body.length ++ [final] := by
    rw [← List.take_append_drop body.length b.insts]
    congr 1
    · rw [List.take_append_drop]
    · obtain ⟨below, rfl⟩ := List.getElem?_eq_some_iff.mp located
      rw [List.drop_eq_getElem_cons below, List.drop_of_length_le (by omega)]
  obtain ⟨i, old, narrows⟩ := n.insts _ _ located
  rw [same, List.getElem?_append_right (Nat.le_refl _), Nat.sub_self] at old
  cases Option.some.inj old
  have finalEnds : final.isTerminator = true := narrows.ends.trans ends
  refine ⟨⟨_, final, split, finalEnds, fun j inside => ?_⟩, ?_⟩
  · obtain ⟨k, there⟩ := List.getElem?_of_mem inside
    rw [List.getElem?_take] at there
    split at there
    · rename_i below
      obtain ⟨i, old, narrows⟩ := n.insts k j there
      rw [same, List.getElem?_append_left below] at old
      exact narrows.ends.trans (inner i (List.mem_of_getElem? old))
    · cases there
  · rw [Ended.targets split finalEnds, Ended.targets same ends]
    exact narrows.targets

theorem available {known : Nat → Prop} (ok : Available known a.insts) :
    Available known b.insts := by
  refine Available.iffAt.mpr fun k j new id used => ?_
  obtain ⟨i, old, narrows⟩ := n.insts k j new
  refine (Available.iffAt.mp ok k i old id (narrows.uses id used)).imp_right ?_
  rintro ⟨before, inside, result⟩
  have listed : some id ∈ (b.insts.take k).map Inst.result := by
    rw [List.map_take, n.results, ← List.map_take]
    exact List.mem_map.mpr ⟨before, inside, result⟩
  exact List.mem_map.mp listed

end BlockNarrows

namespace Narrows
variable {f g : Func} (n : Narrows f g)
include n

theorem mem {b : Block} (inside : b ∈ g.blocks) : ∃ a ∈ f.blocks, BlockNarrows g a b := by
  obtain ⟨k, located⟩ := List.getElem?_of_mem inside
  obtain ⟨a, old, narrows⟩ := n.blocks k b located
  exact ⟨a, List.mem_of_getElem? old, narrows⟩

theorem mapEq {β : Type} {h : Block → β} (same : ∀ a b, BlockNarrows g a b → h b = h a) :
    g.blocks.map h = f.blocks.map h := by
  refine List.ext_getElem? fun k => ?_
  rw [List.getElem?_map, List.getElem?_map]
  cases new : g.blocks[k]? with
  | none =>
    have beyond := List.getElem?_eq_none_iff.mp new
    rw [List.getElem?_eq_none (n.length ▸ beyond)]
  | some b =>
    obtain ⟨a, old, narrows⟩ := n.blocks k b new
    rw [old, Option.map_some, Option.map_some, same a b narrows]

theorem labels : g.labels = f.labels := n.mapEq fun _ _ narrows => narrows.label

theorem definedIds : g.definedIds = f.definedIds := by
  rw [Func.definedIds, List.flatMap_def, n.mapEq fun _ _ narrows => narrows.definedIds,
    ← List.flatMap_def, Func.definedIds]

theorem opens {b : Block} {others : List Block} (blocks : g.blocks = b :: others) :
    ∃ a rest, f.blocks = a :: rest ∧ BlockNarrows g a b := by
  obtain ⟨a, old, narrows⟩ := n.blocks 0 b (by simp [blocks])
  cases first : f.blocks with
  | nil => simp [first] at old
  | cons c rest =>
    rw [first, List.getElem?_cons_zero] at old
    cases Option.some.inj old
    exact ⟨_, rest, rfl, narrows⟩

theorem flows (ok : WellFormed f) {lets pass : Block → Prop}
    (passing : ∀ a b, BlockNarrows g a b → pass b → lets a) {label : String}
    (flows : Flows g pass label) : Flows f lets label := by
  refine flows.transfer (fun b others blocks => ?_) fun b inside passed => ?_
  · obtain ⟨a, rest, first, narrows⟩ := n.opens blocks
    exact ⟨a, rest, first, narrows.label.symm⟩
  · obtain ⟨a, there, narrows⟩ := n.mem inside
    exact ⟨a, there, narrows.label.symm, passing a b narrows passed,
      (narrows.ended (ok.ended a there)).2⟩

theorem edgeFits {label : String} {args : List Value} (fits : EdgeFits f label args) :
    EdgeFits g label args := by
  obtain ⟨a, inside, named, length, types⟩ := fits
  obtain ⟨k, located⟩ := List.getElem?_of_mem inside
  rw [List.getElem?_tail] at located
  have below : k + 1 < g.blocks.length := n.length ▸ (List.getElem?_eq_some_iff.mp located).1
  obtain ⟨a', old, narrows⟩ := n.blocks (k + 1) _ (List.getElem?_eq_getElem below)
  cases Option.some.inj (located.symm.trans old)
  refine ⟨g.blocks[k + 1], List.mem_of_getElem? (i := k) ?_, narrows.label.trans named,
    narrows.params ▸ length, fun e inside => ?_⟩
  · rw [List.getElem?_tail]
    exact List.getElem?_eq_getElem below
  · rw [narrows.params] at inside
    refine (Structure.typeOfSame (fun id _ => ?_) _).trans (types e inside)
    simp only [Func.valueType, n.types]

end Narrows

theorem Narrows.entryFits {f g : Func} (n : Narrows f g) (entry : ∃ entry rest, EntryFits f entry rest) :
    ∃ entry rest, EntryFits g entry rest := by
  obtain ⟨entry, rest, fits⟩ := entry
  have below : 0 < g.blocks.length := by rw [n.length, fits.blocks]; exact Nat.succ_pos _
  obtain ⟨b, others, blocks⟩ := List.exists_cons_of_ne_nil (List.ne_nil_of_length_pos below)
  obtain ⟨a, rest', first, narrows⟩ := n.opens blocks
  cases fits.blocks.symm.trans first
  refine ⟨b, others, blocks, ?_, fun inst inside opens => ?_, fun bb later inst inside opens => ?_⟩
  · rw [narrows.params, n.signature]
    exact fits.params
  · obtain ⟨i, old, same⟩ := narrows.memTail inside
    exact fits.opening i old (same.opens opens)
  · obtain ⟨k, located⟩ := List.getElem?_of_mem later
    obtain ⟨a', old, narrows⟩ := n.blocks (k + 1) bb (by rw [blocks]; exact located)
    rw [first, List.getElem?_cons_succ] at old
    obtain ⟨i, was, same⟩ := narrows.mem inside
    exact fits.others a' (List.mem_of_getElem? old) i was (same.opens opens)

theorem WellFormed.narrow {f g : Func} (ok : WellFormed f) (n : Narrows f g) : WellFormed g where
  entry := n.entryFits ok.entry
  labels := n.labels ▸ ok.labels
  once := n.definedIds ▸ ok.once
  declared b inside := by
    obtain ⟨a, there, narrows⟩ := n.mem inside
    have declared := ok.declared a there
    rw [n.types]
    refine ⟨narrows.params ▸ declared.params, fun j listed id result => ?_⟩
    obtain ⟨i, old, same⟩ := narrows.mem listed
    rw [same.ty]
    exact declared.results i old id (same.result ▸ result)
  ended b inside := by
    obtain ⟨a, there, narrows⟩ := n.mem inside
    exact (narrows.ended (ok.ended a there)).1
  sound b inside j listed := by
    obtain ⟨a, there, narrows⟩ := n.mem inside
    obtain ⟨i, old, same⟩ := narrows.mem listed
    have sound := ok.sound a there i old
    exact {
      shape := same.shape
      types := same.types
      lists := same.lists
      edges := fun e inside => n.edgeFits (sound.edges e (same.edges e inside))
      defined := fun id used => n.definedIds ▸ sound.defined id (same.uses id used) }
  available b inside reaches := by
    obtain ⟨a, there, narrows⟩ := n.mem inside
    have reached : Reaches f a.label := narrows.label ▸ n.flows ok (fun _ _ _ _ => trivial) reaches
    refine narrows.available ((ok.available a there reached).mono fun v known => ?_)
    rcases known with found | param
    · refine .inl fun missing => found ?_
      rw [← narrows.label]
      exact n.flows ok (fun a b narrows absent => narrows.definedIds ▸ absent) missing
    · refine .inr ?_
      rw [Block.paramIds, narrows.params]
      exact param

theorem Clean.narrow {f g : Func} (clean : Clean f) (n : Narrows f g) : Clean g where
  wellFormed := clean.wellFormed.narrow n
  tidy b inside j listed := by
    obtain ⟨a, there, narrows⟩ := n.mem inside
    obtain ⟨i, old, same⟩ := narrows.mem listed
    exact same.tidy (clean.tidy a there i old)

end SsaCodegen
