import Mathlib.Data.Nat.SuccPred
import SsaCodegen.Proofs.Flow.Cache
/-! Pruning. Pure instructions whose results nothing reads any more go away, and a comparison and
the branch on it that end a block may become one branch that compares. What is read stays defined
where it was. -/
namespace SsaCodegen

structure Fuses (g : Func) (first last fused : Inst) : Prop where
  compares : first.op = .icmp
  branches : last.op = .brif
  both : fused.op = .brIcmp
  reads : ∃ id, first.result = some id ∧ last.operands = [.temp id]
  intCond : fused.intCond = first.intCond
  operands : fused.operands = first.operands
  targets : fused.targets = last.targets
  args : fused.targetArgs = last.targetArgs
  quiet : last.result = none
  result : fused.result = none
  fits : FitInst g fused

namespace Fuses
variable {g : Func} {first last fused : Inst} (fuses : Fuses g first last fused)
include fuses

theorem ends : fused.isTerminator = true := by
  rw [Inst.isTerminator, fuses.both]
  rfl

theorem uses (id : Nat) (used : id ∈ fused.usedTemps) : id ∈ first.usedTemps ∨ id ∈ last.usedTemps := by
  rw [Inst.memUsedTemps, fuses.operands, fuses.args] at used
  exact used.imp Inst.operandUsed fun ⟨_, listed, arg⟩ => Inst.argUsed listed arg

end Fuses

inductive Pruned (g : Func) (gone : Nat → Prop) : List Inst → List Inst → Prop where
  | nil : Pruned g gone [] []
  | keep {i is js} (tail : Pruned g gone is js) : Pruned g gone (i :: is) (i :: js)
  | drop {i is js} (isPure : i.op.isPure = true) (dropped : ∀ v, i.result = some v → gone v)
      (tail : Pruned g gone is js) : Pruned g gone (i :: is) js
  | fuse {first last fused} (fuses : Fuses g first last fused)
      (dropped : ∀ v, first.result = some v → gone v) : Pruned g gone [first, last] [fused]

inductive PrunedBlocks (g : Func) (gone : Nat → Prop) : List Block → List Block → Prop where
  | nil : PrunedBlocks g gone [] []
  | cons {a insts rest later} (now : Pruned g gone a.insts insts)
      (tail : PrunedBlocks g gone rest later) :
      PrunedBlocks g gone (a :: rest) ({ a with insts := insts } :: later)

namespace Pruned
variable {g : Func} {gone : Nat → Prop} {is js : List Inst}

theorem refl (is : List Inst) : Pruned g gone is is := by
  induction is with
  | nil => exact .nil
  | cons i rest ih => exact .keep ih

theorem append {before : List Inst} (p : Pruned g gone is js) :
    Pruned g gone (before ++ is) (before ++ js) := by
  induction before with
  | nil => exact p
  | cons i rest ih => exact .keep ih

theorem without {before after : List Inst} {i : Inst} (isPure : i.op.isPure = true)
    (dropped : ∀ v, i.result = some v → gone v) : Pruned g gone (before ++ i :: after) (before ++ after) :=
  .append (.drop isPure dropped (.refl after))

theorem results (p : Pruned g gone is js) :
    (js.filterMap Inst.result).Sublist (is.filterMap Inst.result) := by
  induction p with
  | nil => exact .refl _
  | @keep i is js tail ih =>
    rw [List.filterMap_cons, List.filterMap_cons]
    split
    · exact ih
    · exact ih.cons_cons _
  | @drop i is js isPure dropped tail ih =>
    rw [List.filterMap_cons]
    split
    · exact ih
    · exact ih.cons _
  | @fuse first last fused fuses dropped =>
    rw [List.filterMap_cons, fuses.result]
    exact List.nil_sublist _

theorem mem (p : Pruned g gone is js) {j : Inst} (inside : j ∈ js) :
    j ∈ is ∨ ∃ first ∈ is, ∃ last ∈ is, Fuses g first last j := by
  induction p with
  | nil => exact .inl inside
  | @keep i is js tail ih =>
    rcases List.mem_cons.mp inside with rfl | later
    · exact .inl List.mem_cons_self
    · refine (ih later).imp (List.mem_cons_of_mem _) ?_
      rintro ⟨first, left, last, right, fuses⟩
      exact ⟨first, List.mem_cons_of_mem _ left, last, List.mem_cons_of_mem _ right, fuses⟩
  | @drop i is js isPure dropped tail ih =>
    refine (ih inside).imp (List.mem_cons_of_mem _) ?_
    rintro ⟨first, left, last, right, fuses⟩
    exact ⟨first, List.mem_cons_of_mem _ left, last, List.mem_cons_of_mem _ right, fuses⟩
  | @fuse first last fused fuses dropped =>
    cases List.mem_singleton.mp inside
    exact .inr ⟨first, List.mem_cons_self, last, List.mem_cons_of_mem _ List.mem_cons_self, fuses⟩

theorem uses (p : Pruned g gone is js) {id : Nat} (read : ∃ j ∈ js, id ∈ j.usedTemps) :
    ∃ i ∈ is, id ∈ i.usedTemps := by
  obtain ⟨j, inside, used⟩ := read
  rcases p.mem inside with old | ⟨first, left, last, right, fuses⟩
  · exact ⟨j, old, used⟩
  · rcases fuses.uses id used with was | was
    · exact ⟨first, left, was⟩
    · exact ⟨last, right, was⟩

theorem keeps (p : Pruned g gone is js) {v : Nat} (stays : ¬ gone v) {i : Inst} (inside : i ∈ is)
    (result : i.result = some v) : ∃ j ∈ js, j.result = some v := by
  induction p with
  | nil => cases inside
  | @keep k is js tail ih =>
    rcases List.mem_cons.mp inside with rfl | later
    · exact ⟨i, List.mem_cons_self, result⟩
    · obtain ⟨j, there, same⟩ := ih later
      exact ⟨j, List.mem_cons_of_mem _ there, same⟩
  | @drop k is js isPure dropped tail ih =>
    rcases List.mem_cons.mp inside with rfl | later
    · exact absurd (dropped v result) stays
    · exact ih later
  | @fuse first last fused fuses dropped =>
    rcases List.mem_cons.mp inside with rfl | later
    · exact absurd (dropped v result) stays
    · rw [List.mem_singleton.mp later, fuses.quiet] at result
      cases result

theorem ended (p : Pruned g gone is js) {body : List Inst} {last : Inst} (same : is = body ++ [last])
    (ends : last.isTerminator = true) (inner : ∀ i ∈ body, i.isTerminator = false) :
    ∃ body' last', js = body' ++ [last'] ∧ last'.isTerminator = true ∧
      (∀ j ∈ body', j.isTerminator = false) ∧ last'.targets = last.targets := by
  induction p generalizing body with
  | nil => simp at same
  | @keep i is js tail ih =>
    cases body with
    | nil =>
      obtain ⟨rfl, rfl⟩ := List.cons.inj same
      cases tail
      exact ⟨[], i, rfl, ends, inner, rfl⟩
    | cons b body =>
      obtain ⟨rfl, rfl⟩ := List.cons.inj same
      obtain ⟨body', last', rfl, final, quiet, leads⟩ :=
        ih rfl fun j inside => inner j (List.mem_cons_of_mem _ inside)
      exact ⟨i :: body', last', rfl, final,
        List.forall_mem_cons.mpr ⟨inner i List.mem_cons_self, quiet⟩, leads⟩
  | @drop i is js isPure dropped tail ih =>
    cases body with
    | nil =>
      obtain ⟨rfl, rfl⟩ := List.cons.inj same
      rw [Inst.isTerminator, plainOfPure isPure] at ends
      cases ends
    | cons b body =>
      obtain ⟨rfl, rfl⟩ := List.cons.inj same
      exact ih rfl fun j inside => inner j (List.mem_cons_of_mem _ inside)
  | @fuse first last' fused fuses dropped =>
    obtain ⟨-, ending⟩ := List.append_inj' (show [first] ++ [last'] = body ++ [last] from same) rfl
    cases List.singleton_inj.mp ending
    exact ⟨[], fused, rfl, fuses.ends, fun j absent => absurd absent List.not_mem_nil, fuses.targets⟩

theorem tail (p : Pruned g gone is js) {j : Inst} (inside : j ∈ js.tail) (opens : j.op = .prologue) :
    ∃ i ∈ is.tail, i.op = .prologue := by
  have whole {is js : List Inst} (p : Pruned g gone is js) (listed : j ∈ js) : j ∈ is := by
    refine (p.mem listed).resolve_right ?_
    rintro ⟨first, left, last, right, fuses⟩
    have ends := fuses.ends
    rw [Inst.isTerminator, opens] at ends
    cases ends
  cases p with
  | nil => cases inside
  | keep tail => exact ⟨j, whole tail inside, opens⟩
  | drop isPure dropped tail => exact ⟨j, whole tail (List.mem_of_mem_tail inside), opens⟩
  | fuse fuses dropped => cases inside

theorem available (p : Pruned g gone is js) {known more : Nat → Prop} (ok : Available known is)
    (le : ∀ v, ¬ gone v → known v → more v)
    (read : ∀ j ∈ js, ∀ id ∈ j.usedTemps, ¬ gone id) : Available more js := by
  induction p generalizing known more with
  | nil => trivial
  | @keep i is js tail ih =>
    refine ⟨fun id used => le id (read i List.mem_cons_self id used) (ok.1 id used), ?_⟩
    exact ih ok.2 (fun v stays held => held.imp_left (le v stays))
      fun j later => read j (List.mem_cons_of_mem _ later)
  | @drop i is js isPure dropped tail ih =>
    refine ih ok.2 (fun v stays held => ?_) read
    exact le v stays (held.resolve_right fun result => stays (dropped v result))
  | @fuse first last fused fuses dropped =>
    refine ⟨fun id used => ?_, trivial⟩
    have stays := read fused List.mem_cons_self id used
    refine le id stays ?_
    rcases fuses.uses id used with was | was
    · exact ok.1 id was
    · exact (ok.2.1 id was).resolve_right fun result => stays (dropped id result)

end Pruned

namespace PrunedBlocks
variable {g : Func} {gone : Nat → Prop} {as bs : List Block}

theorem heads (p : PrunedBlocks g gone as bs) : bs.map Block.head = as.map Block.head := by
  induction p with
  | nil => rfl
  | cons now tail ih => exact congrArg (_ :: ·) ih

theorem definedIds (p : PrunedBlocks g gone as bs) :
    (bs.flatMap Block.definedIds).Sublist (as.flatMap Block.definedIds) := by
  induction p with
  | nil => exact .refl _
  | cons now tail ih => exact (((List.Sublist.refl _).append now.results).append ih)

theorem blockAt (p : PrunedBlocks g gone as bs) {k : Nat} {a b : Block} (left : as[k]? = some a)
    (right : bs[k]? = some b) : b = { a with insts := b.insts } ∧ Pruned g gone a.insts b.insts := by
  induction p generalizing k with
  | nil => cases left
  | @cons a' insts rest later now tail ih =>
    cases k with
    | zero =>
      cases Option.some.inj left
      cases Option.some.inj right
      exact ⟨rfl, now⟩
    | succ k => exact ih left right

theorem ofAt (length : bs.length = as.length)
    (each : ∀ (k : Nat) a b, as[k]? = some a → bs[k]? = some b →
      b.label = a.label ∧ b.params = a.params ∧ Pruned g gone a.insts b.insts) :
    PrunedBlocks g gone as bs := by
  induction as generalizing bs with
  | nil =>
    cases List.eq_nil_of_length_eq_zero length
    exact .nil
  | cons a rest ih =>
    cases bs with
    | nil => cases length
    | cons b later =>
      obtain ⟨label, params, now⟩ := each 0 a b rfl rfl
      have tail := ih (Nat.succ.inj length) fun k c d left right => each (k + 1) c d left right
      have whole : b = { a with insts := b.insts } := by rw [← label, ← params]
      rw [whole]
      exact .cons now tail

end PrunedBlocks

theorem PrunedBlocks.pair {f g : Func} {gone : Nat → Prop} (p : PrunedBlocks g gone f.blocks g.blocks)
    {a b : Block} (pair : Paired f g a b) : Pruned g gone a.insts b.insts := by
  obtain ⟨k, left, right⟩ := pair
  exact (p.blockAt left right).2

section
variable {f g : Func} {gone : Nat → Prop} (ok : WellFormed f) (r : Rewrites f g)
  (types : g.valueTypes = f.valueTypes) (p : PrunedBlocks g gone f.blocks g.blocks)
  (read : ∀ j ∈ g.insts, ∀ id ∈ j.usedTemps, ¬ gone id)

include r p in
theorem prunedKeeps {v : Nat} (old : v ∈ f.definedIds) (stays : ¬ gone v) : v ∈ g.definedIds := by
  obtain ⟨home, located, defines⟩ := Func.memDefinedIds.mp old
  obtain ⟨home', located', pair⟩ := r.pairFrom located
  refine Func.memDefinedIds.mpr ⟨home', located', Block.memDefinedIds.mpr ?_⟩
  rw [r.sameParamIds pair]
  refine (Block.memDefinedIds.mp defines).imp_right fun held => ?_
  obtain ⟨i, listed, result⟩ := held
  exact (p.pair pair).keeps stays listed result

include ok r p read in
theorem prunedReads {a b : Block} (pair : Paired f g a b) {j : Inst} (listed : j ∈ b.insts) {id : Nat}
    (used : id ∈ j.usedTemps) : id ∈ g.definedIds := by
  obtain ⟨i, within, was⟩ := (p.pair pair).uses ⟨j, listed, used⟩
  have old := (ok.sound a pair.left i within).defined id was
  exact prunedKeeps r p old (read j (Func.memInsts pair.right listed) id used)

include ok r types p read in
theorem prunedBlock {a b : Block} (pair : Paired f g a b) : BlockRewrites g a b := by
  have pruned := p.pair pair
  have there := pair.left
  obtain ⟨body, final, shape, ends, inner⟩ := ok.ended a there
  obtain ⟨body', final', shape', ends', inner', targets⟩ := pruned.ended shape ends inner
  constructor
  case ended => exact ⟨body', final', shape', ends', inner'⟩
  case targets =>
    intro label inside
    rwa [Ended.targets shape' ends', targets, ← Ended.targets shape ends] at inside
  case opening => exact fun j => pruned.tail
  case others =>
    intro j inside opens
    rcases pruned.mem inside with old | ⟨first, -, last, -, fuses⟩
    · exact ⟨j, old, opens⟩
    · have ends := fuses.ends
      rw [Inst.isTerminator, opens] at ends
      cases ends
  case declared =>
    intro j inside id result
    rcases pruned.mem inside with old | ⟨first, -, last, -, fuses⟩
    · exact types ▸ (ok.declared a there).results j old id result
    · cases fuses.result.symm.trans result
  case sound =>
    intro j inside
    refine ⟨?_, fun id used => prunedReads ok r p read pair inside used⟩
    rcases pruned.mem inside with old | ⟨first, -, last, -, fuses⟩
    · exact r.toExtends.fitSelf ok (ok.sound a there j old)
    · exact fuses.fits

end

theorem WellFormed.prune {f g : Func} {gone : Nat → Prop} (ok : WellFormed f)
    (signature : g.signature = f.signature) (types : g.valueTypes = f.valueTypes)
    (p : PrunedBlocks g gone f.blocks g.blocks)
    (read : ∀ j ∈ g.insts, ∀ id ∈ j.usedTemps, ¬ gone id) : WellFormed g := by
  have r : Rewrites f g := ⟨signature, types ▸ List.prefix_refl _, p.heads⟩
  have ids : g.definedIds.Sublist f.definedIds := p.definedIds
  have w : Rewriting f g := { r with
    once := ok.once.sublist ids
    blocks := fun _ _ => prunedBlock ok r types p read }
  refine w.wellFormed ok fun a b pair reaches => ?_
  have within : Available (fun v => KnownAt f a v ∧ v ∈ f.definedIds) a.insts :=
    (ok.available a pair.left reaches).monoOn fun i listed v used known =>
      ⟨known, (ok.sound a pair.left i listed).defined v used⟩
  refine (p.pair pair).available within (fun v stays held => ?_) fun j listed =>
    read j (Func.memInsts pair.right listed)
  refine w.knownAt ok (fun a' b' pair' defines => ?_) pair (prunedKeeps r p held.2 stays) held.1
  rw [Block.definedIds, r.sameParamIds pair'] at defines
  exact (((List.Sublist.refl _).append (p.pair pair').results).subset) defines

theorem PrunedBlocks.tidy {f g : Func} {gone : Nat → Prop} (p : PrunedBlocks g gone f.blocks g.blocks)
    (tidy : Tidy f) : Tidy g := by
  intro b inside j listed absent
  obtain ⟨k, right⟩ := List.getElem?_of_mem inside
  have below : k < f.blocks.length := by
    rw [← List.length_map Block.head, ← p.heads, List.length_map]
    exact (List.getElem?_eq_some_iff.mp right).1
  have left := List.getElem?_eq_getElem below
  have tidy := tidy _ (List.mem_of_getElem? left)
  rcases (p.blockAt left right).2.mem listed with old | ⟨first, -, last, old, fuses⟩
  · exact tidy j old absent
  · exact fuses.args.trans (tidy last old (fuses.targets ▸ absent))

theorem modifyEach (step : Nat → Nat) (n : Nat) (ids : List Nat) (count : Nat → Nat) :
    ids.foldl (fun counts id => counts.modify id step) ((List.range n).map count) =
      (List.range n).map fun v => step^[ids.count v] (count v) := by
  induction ids generalizing count with
  | nil => rfl
  | cons id rest ih =>
    have first : ((List.range n).map count).modify id step =
        (List.range n).map fun v => if id = v then step (count v) else count v := by
      refine List.ext_getElem (by simp) fun v left right => ?_
      simp [List.getElem_modify]
    rw [List.foldl_cons, first, ih]
    refine List.map_congr_left fun v _ => ?_
    rw [List.count_cons]
    by_cases same : id = v <;> simp [same]

theorem Func.countUsesEq (f : Func) : f.countUses =
    (List.range f.numValues).map fun v => (f.insts.flatMap Inst.usedTemps).count v := by
  have absent : List.replicate f.numValues 0 = (List.range f.numValues).map fun _ => 0 := by simp
  rw [Func.countUses, ← List.foldl_flatMap, absent, modifyEach]
  refine List.map_congr_left fun v _ => ?_
  rw [Nat.succ_iterate, Nat.zero_add]

theorem Func.countUsesAt (f : Func) {v : Nat} (below : v < f.numValues) :
    f.countUses.getD v 0 = (f.insts.flatMap Inst.usedTemps).count v := by
  rw [f.countUsesEq, List.getD_eq_getElem?_getD, List.getElem?_map, List.getElem?_range below]
  rfl

end SsaCodegen
