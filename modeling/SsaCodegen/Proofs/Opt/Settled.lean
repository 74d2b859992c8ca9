import Mathlib.Algebra.Order.BigOperators.Group.List
import Mathlib.Algebra.Order.Group.Nat
import SsaCodegen.Proofs.Opt.Preheaders
/-! Rounds of hoisting end when nothing is left to hoist. Each round but the last makes the loop smaller, and one
that does not has found no invariant instruction. -/
namespace SsaCodegen
namespace LoopInvariant

def Still (l : Loop) (blocks : List Nat) (s : Func × DefBlocks) : Prop :=
  ∀ b ∈ blocks, ∀ i ∈ (s.1.block b).insts, isInvariant l s.2 i = false

section Split
variable {l : Loop} {p : Nat}

theorem splitStill {defs : DefBlocks} {insts : List Inst} (absent : ∀ i ∈ insts, isInvariant l defs i = false) :
    splitInsts l p defs insts = ⟨[], insts, defs⟩ := by
  induction insts with
  | nil => rfl
  | cons i rest ih =>
    rw [splitInsts, if_neg (by simp [absent i List.mem_cons_self]), ih fun j later => absent j
      (List.mem_cons_of_mem _ later)]

variable (l p) in
theorem splitKept (defs : DefBlocks) (insts : List Inst) : (splitInsts l p defs insts).kept.length ≤ insts.length ∧
    ((splitInsts l p defs insts).kept.length = insts.length → ∀ i ∈ insts, isInvariant l defs i = false) := by
  induction insts generalizing defs with
  | nil => exact ⟨Nat.le_refl _, fun _ _ absent => nomatch absent⟩
  | cons i rest ih =>
    unfold splitInsts
    split
    · obtain ⟨shorter, -⟩ := ih (i.result.elim defs fun id => defs.set id (some p))
      exact ⟨Nat.le_succ_of_le shorter, fun same => absurd same (Nat.ne_of_lt (Nat.lt_succ_of_le shorter))⟩
    · rename_i stays
      obtain ⟨shorter, absent⟩ := ih defs
      refine ⟨Nat.succ_le_succ shorter, fun same j listed => ?_⟩
      rcases List.mem_cons.mp listed with rfl | later
      · exact Bool.eq_false_iff.mpr stays
      · exact absent (Nat.succ.inj same) j later

end Split

section Block
variable {l : Loop} {p : Nat}

theorem insertNothing (insts : List Inst) : insertBeforeLast [] insts = insts := by
  rcases List.eq_nil_or_concat insts with rfl | ⟨body, last, rfl⟩
  · rfl
  · simp [insertBeforeLast]

theorem modifySame {f : Func} {b : Nat} {h : Block → Block} (same : ∀ bb, f.blocks[b]? = some bb → h bb = bb) :
    f.modifyBlock b h = f := by
  have blocks : f.blocks.modify b h = f.blocks := by
    refine List.ext_getElem? fun k => ?_
    rw [List.getElem?_modify]
    cases located : f.blocks[k]? with
    | none => rfl
    | some bb =>
      by_cases own : b = k
      · subst own
        simp [same bb located]
      · simp [own]
  rw [Func.modifyBlock, blocks]

theorem hoistBlockStill {s : Func × DefBlocks} {b : Nat} (still : Still l [b] s) : hoistBlock l p s b = s := by
  obtain ⟨f, defs⟩ := s
  have same := splitStill (p := p) (still b List.mem_cons_self)
  simp only [hoistBlock, insertNothing, same]
  rw [modifySame fun _ _ => rfl, modifySame fun bb located => by rw [Func.blockAt located]]

theorem hoistBlockShorter (outside : p ∉ l.blocks) (s : Func × DefBlocks) (b : Nat) {c : Nat} (inside : c ∈ l.blocks) :
    ((hoistBlock l p s b).1.block c).insts.length ≤ (s.1.block c).insts.length ∧
      (((hoistBlock l p s b).1.block c).insts.length = (s.1.block c).insts.length → c = b → Still l [b] s) := by
  obtain ⟨f, defs⟩ := s
  have apart : p ≠ c := fun same => outside (same ▸ inside)
  have block : ((hoistBlock l p (f, defs) b).1.block c).insts =
      if b = c then (splitInsts l p defs (f.block c).insts).kept else (f.block c).insts := by
    simp only [hoistBlock, Func.modifyBlock, Func.block, List.getD_eq_getElem?_getD, List.getElem?_modify, if_neg apart]
    cases located : f.blocks[c]? with
    | none => split <;> rfl
    | some bb =>
      by_cases same : b = c
      · subst same
        simp [located]
      · simp [same]
  obtain ⟨shorter, absent⟩ := splitKept l p defs (f.block c).insts
  dsimp only
  rw [block]
  split
  · rename_i same
    subst same
    refine ⟨shorter, fun length _ b' here => ?_⟩
    cases List.mem_singleton.mp here
    exact absent length
  · rename_i other
    exact ⟨Nat.le_refl _, fun _ same => absurd same.symm other⟩

theorem passShorter (outside : p ∉ l.blocks) {blocks : List Nat} (within : ∀ b ∈ blocks, b ∈ l.blocks)
    (s : Func × DefBlocks) : loopSize l (blocks.foldl (hoistBlock l p) s).1 ≤ loopSize l s.1 ∧
      (loopSize l (blocks.foldl (hoistBlock l p) s).1 = loopSize l s.1 →
        blocks.foldl (hoistBlock l p) s = s ∧ Still l blocks s) := by
  induction blocks generalizing s with
  | nil => exact ⟨Nat.le_refl _, fun _ => ⟨rfl, fun _ absent => nomatch absent⟩⟩
  | cons b rest ih =>
    have here := within b List.mem_cons_self
    have one : loopSize l (hoistBlock l p s b).1 ≤ loopSize l s.1 ∧
        (¬ Still l [b] s → loopSize l (hoistBlock l p s b).1 < loopSize l s.1) := by
      simp only [loopSize, List.length_flatMap]
      have shorter (c : Nat) (inside : c ∈ l.blocks) := hoistBlockShorter outside s b inside
      refine ⟨List.sum_le_sum fun c inside => (shorter c inside).1, fun moves => ?_⟩
      refine List.sum_lt_sum _ _ (fun c inside => (shorter c inside).1) ⟨b, here, ?_⟩
      exact Nat.lt_of_le_of_ne (shorter b here).1 fun same => moves ((shorter b here).2 same rfl)
    obtain ⟨later, same⟩ := ih (fun c inside => within c (List.mem_cons_of_mem _ inside)) (hoistBlock l p s b)
    rw [List.foldl_cons]
    refine ⟨Nat.le_trans later one.1, fun size => ?_⟩
    have still : Still l [b] s := Classical.byContradiction fun moves => by
      have less := one.2 moves
      omega
    rw [hoistBlockStill still] at same size ⊢
    obtain ⟨unchanged, rest⟩ := same size
    refine ⟨unchanged, fun c inside => ?_⟩
    rcases List.mem_cons.mp inside with rfl | later
    · exact still c List.mem_cons_self
    · exact rest c later

theorem hoistRoundsStill (outside : p ∉ l.blocks) (rounds : Nat) {s : Func × DefBlocks}
    (enough : loopSize l s.1 < rounds) : Still l l.blocks (hoistRounds l p rounds s) := by
  induction rounds generalizing s with
  | zero => exact absurd enough (Nat.not_lt_zero _)
  | succ rounds ih =>
    obtain ⟨le, same⟩ := passShorter outside (fun _ inside => inside) s
    unfold hoistRounds
    dsimp only
    split
    · rename_i less
      exact ih (by omega)
    · rename_i stays
      obtain ⟨unchanged, still⟩ := same (by omega)
      rwa [unchanged]

theorem hoistLoopStill {g : FlowGraph} (outside : p ∉ l.blocks) (found : preheader? g l = some p)
    (s : Func × DefBlocks) :
    Still l l.blocks (hoistLoop g s l) := by
  rw [hoistLoop, found]
  exact hoistRoundsStill outside _ (Nat.lt_succ_self _)

theorem hoistLoopSame {g : FlowGraph} {s : Func × DefBlocks} (still : Still l l.blocks s) : hoistLoop g s l = s := by
  unfold hoistLoop
  split
  · rename_i q found
    have same : l.blocks.foldl (hoistBlock l q) s = s := by
      refine foldKeeps (· = s) l.blocks (fun t same b inside => ?_) rfl
      rw [same, hoistBlockStill fun c here => still c (List.mem_singleton.mp here ▸ inside)]
    rw [hoistRounds]
    simp only [same, Nat.lt_irrefl, if_false]
  · rfl

end Block

structure Invariant (f : Func) (l : Loop) (i : Inst) : Prop where
  pure : i.op.isPure = true
  result : i.result.isSome = true
  operands : ∀ id, .temp id ∈ i.operands → ∃ k, k ∉ l.blocks ∧ id ∈ (f.block k).definedIds

def Settled (f : Func) (l : Loop) : Prop := ∀ b ∈ l.blocks, ∀ i ∈ (f.block b).insts, ¬ Invariant f l i

theorem Settled.reads {f : Func} (ok : WellFormed f) {l : Loop} (settled : Settled f l) {b : Nat}
    (inside : b ∈ l.blocks)
    {i : Inst} (here : i ∈ (f.block b).insts) (isPure : i.op.isPure = true) :
    ∃ v k, .temp v ∈ i.operands ∧ k ∈ l.blocks ∧ v ∈ (f.block k).definedIds := by
  refine Classical.byContradiction fun absent => settled b inside i here ?_
  obtain ⟨home, own, listed⟩ := Func.memBlock Block.insts rfl here
  have sound := ok.sound home (List.mem_of_getElem? own) i listed
  refine ⟨isPure, Structure.pureResult sound.shape isPure, fun v operand => ?_⟩
  obtain ⟨bb, there, defines⟩ := Func.memDefinedIds.mp (sound.defined v (Inst.operandUsed operand))
  obtain ⟨k, located⟩ := List.getElem?_of_mem there
  rw [← Func.blockAt located] at defines
  exact ⟨k, fun within => absent ⟨v, k, operand, within, defines⟩, defines⟩

def Listed (f : Func) (defs : DefBlocks) : Prop := ∀ v ∈ f.definedIds, (defs.getD v none).isSome = true

section Table
variable {f : Func} {defs : DefBlocks} (placed : Placed f defs) {l : Loop} {i : Inst}
include placed

theorem invariantOfTable (invariant : isInvariant l defs i = true) : Invariant f l i := by
  simp only [isInvariant, Bool.and_eq_true, List.all_eq_true] at invariant
  obtain ⟨⟨result, isPure⟩, operands⟩ := invariant
  refine ⟨isPure, result, fun id operand => ?_⟩
  have free := operands id (List.mem_filterMap.mpr ⟨_, operand, rfl⟩)
  split at free
  · rename_i k found
    obtain ⟨bb, located, defines⟩ := placed id k found
    exact ⟨k, by simpa [Loop.contains] using free, Func.blockAt located ▸ defines⟩
  · cases free

theorem invariantByTable (once : f.definedIds.Nodup) (listed : Listed f defs) :
    isInvariant l defs i = true ↔ Invariant f l i := by
  refine ⟨invariantOfTable placed, fun invariant => ?_⟩
  simp only [isInvariant, Bool.and_eq_true, List.all_eq_true]
  refine ⟨⟨invariant.result, invariant.pure⟩, fun id operand => ?_⟩
  obtain ⟨v, operand, same⟩ := List.mem_filterMap.mp operand
  cases Value.tempIff.mp same
  obtain ⟨k, outside, defines⟩ := invariant.operands id operand
  obtain ⟨bb, located, defines⟩ := Func.memBlock Block.definedIds rfl defines
  obtain ⟨b, found⟩ := Option.isSome_iff_exists.mp
    (listed id (Func.memDefinedIds.mpr ⟨bb, List.mem_of_getElem? located, defines⟩))
  obtain ⟨c, there, also⟩ := placed id b found
  rw [found]
  simpa [Loop.contains, Func.definedInOneBlock once there located also defines] using outside

theorem settledOfStill (once : f.definedIds.Nodup) (listed : Listed f defs) (still : Still l l.blocks (f, defs)) :
    Settled f l := fun b inside i here invariant => by
  have no := still b inside i here
  rw [(invariantByTable placed once listed).mpr invariant] at no
  cases no

theorem stillOfSettled (settled : Settled f l) : Still l l.blocks (f, defs) := fun b inside i here =>
  Bool.eq_false_iff.mpr fun yes => settled b inside i here (invariantOfTable placed yes)

end Table

theorem setSome {defs : DefBlocks} {id v : Nat} (b : Nat)
    (present : (defs.getD v none).isSome = true ∨ v = id ∧ v < defs.length) :
    ((defs.set id (some b)).getD v none).isSome = true := by
  simp only [List.getD_eq_getElem?_getD, List.getElem?_set] at present ⊢
  by_cases same : id = v
  · subst same
    have below : id < defs.length := by
      rcases present with present | ⟨-, below⟩
      · refine Classical.byContradiction fun above => ?_
        rw [List.getElem?_eq_none (by omega)] at present
        cases present
      · exact below
    simp [below]
  · rw [if_neg same]
    exact present.resolve_right fun both => same both.1.symm

theorem setsSome (ids : List Nat) (b : Nat) (defs : DefBlocks) :
    (ids.foldl (fun defs id => defs.set id (some b)) defs).length = defs.length ∧
      ∀ v, (defs.getD v none).isSome = true ∨ v ∈ ids ∧ v < defs.length →
        ((ids.foldl (fun defs id => defs.set id (some b)) defs).getD v none).isSome = true := by
  induction ids generalizing defs with
  | nil => exact ⟨rfl, fun v present => present.resolve_right fun absent => nomatch absent.1⟩
  | cons id rest ih =>
    obtain ⟨length, listed⟩ := ih (defs.set id (some b))
    rw [List.length_set] at length listed
    refine ⟨length, fun v present => listed v ?_⟩
    rcases present with present | ⟨inside, below⟩
    · exact .inl (setSome b (.inl present))
    · rcases List.mem_cons.mp inside with rfl | later
      · exact .inl (setSome b (.inr ⟨rfl, below⟩))
      · exact .inr ⟨later, below⟩

theorem listedOfFunc {f : Func} (ok : WellFormed f) : Listed f (DefBlocks.ofFunc f) := by
  have all (blocks : List (Block × Nat)) (defs : DefBlocks) (v : Nat)
      (present : (defs.getD v none).isSome = true ∨ (∃ e ∈ blocks, v ∈ e.1.definedIds) ∧ v < defs.length) :
      ((blocks.foldl (fun defs e => e.1.definedIds.foldl (fun defs id => defs.set id (some e.2)) defs) defs).getD v
        none).isSome = true := by
    induction blocks generalizing defs with
    | nil => exact present.resolve_right fun absent => by simp at absent
    | cons e rest ih =>
      obtain ⟨length, listed⟩ := setsSome e.1.definedIds e.2 defs
      refine ih _ ?_
      rcases present with present | ⟨⟨d, inside, defines⟩, below⟩
      · exact .inl (listed v (.inl present))
      · rcases List.mem_cons.mp inside with rfl | later
        · exact .inl (listed v (.inr ⟨defines, below⟩))
        · exact .inr ⟨⟨d, later, defines⟩, length.symm ▸ below⟩
  intro v defined
  obtain ⟨bb, inside, defines⟩ := Func.memDefinedIds.mp defined
  obtain ⟨k, located⟩ := List.getElem?_of_mem inside
  refine all _ _ v (.inr ⟨⟨(bb, k), List.mem_zipIdx_iff_getElem?.mpr located, defines⟩, ?_⟩)
  rw [List.length_replicate]
  exact ok.idBelow defined

section Step
variable {m : Loop} {p : Nat} {s t : Func × DefBlocks} (step : HoistStep m p s t)
include step

theorem stepListed (listed : Listed s.1 s.2) : Listed t.1 t.2 := by
  cases step with
  | @move f h defs b home way before after body i last moved version inside invariant =>
    simp only [isInvariant, Bool.and_eq_true] at invariant
    obtain ⟨id, own⟩ := Option.isSome_iff_exists.mp invariant.1.1
    intro v defined
    rw [own]
    exact setSome p (.inl (listed v ((moved.definedIds own).mem_iff.mpr defined)))

theorem stepSettled (placed : Placed s.1 s.2) {l : Loop}
    (around : ∀ b ∈ m.blocks, b ∈ l.blocks → ∀ c ∈ l.blocks, c ∈ m.blocks)
    (aside : p ∉ l.blocks) (settled : Settled s.1 l) : Settled t.1 l := by
  cases step with
  | @move f h defs b home way before after body i last moved version inside invariant =>
    have hoists := invariantOfTable placed invariant
    obtain ⟨id, own⟩ := Option.isSome_iff_exists.mp hoists.result
    have owned : id ∈ (f.block b).definedIds := by
      rw [Func.blockAt moved.fromAt]
      exact Block.memDefinedIds.mpr (.inr ⟨i, moved.split ▸ List.mem_append_right _ List.mem_cons_self, own⟩)
    -- what the moved instruction defines was defined outside the loop before, or it was invariant there
    have outer : b ∉ l.blocks := fun within => by
      have whole := around b inside within
      refine settled b within i ?_ ⟨hoists.pure, hoists.result, fun u operand => ?_⟩
      · rw [Func.blockAt moved.fromAt, moved.split]
        exact List.mem_append_right _ List.mem_cons_self
      · obtain ⟨k, outside, defines⟩ := hoists.operands u operand
        exact ⟨k, fun within => outside (whole k within), defines⟩
    intro c within j listed again
    have other : c ≠ p := fun same => aside (same ▸ within)
    have apart : c ≠ b := fun same => outer (same ▸ within)
    have same : h.block c = f.block c := by
      rw [Func.block, Func.block, List.getD_eq_getElem?_getD, List.getD_eq_getElem?_getD, moved.getElem, if_neg other,
        if_neg apart]
    refine settled c within j (same ▸ listed) ⟨again.pure, again.result, fun u operand => ?_⟩
    obtain ⟨k, outside, defines⟩ := again.operands u operand
    by_cases new : u = id
    · exact ⟨b, outer, new ▸ owned⟩
    · obtain ⟨d, right, defines⟩ := Func.memBlock Block.definedIds rfl defines
      obtain ⟨a, left⟩ : ∃ a, f.blocks[k]? = some a := by
        have head := moved.rewrites.headAt k
        rw [right, Option.map_some] at head
        obtain ⟨a, left, -⟩ := Option.map_eq_some_iff.mp head.symm
        exact ⟨a, left⟩
      exact ⟨k, outside, Func.blockAt left ▸ moved.staysAt own new ⟨k, left, right⟩ defines⟩

end Step

theorem deepestFirstSorted (loops : List Loop) : (deepestFirst loops).Pairwise fun l m => m.depth ≤ l.depth := by
  have insert (l : Loop) (ls : List Loop) (sorted : ls.Pairwise fun l m => m.depth ≤ l.depth) :
      (insertByDepth l ls).Pairwise fun l m => m.depth ≤ l.depth := by
    induction ls with
    | nil => exact List.pairwise_singleton ..
    | cons m rest ih =>
      obtain ⟨first, later⟩ := List.pairwise_cons.mp sorted
      unfold insertByDepth
      split
      · rename_i le
        refine List.pairwise_cons.mpr ⟨fun x inside => ?_, sorted⟩
        rcases List.mem_cons.mp inside with rfl | inside
        · exact le
        · exact Nat.le_trans (first x inside) le
      · rename_i gt
        refine List.pairwise_cons.mpr ⟨fun x inside => ?_, ih later⟩
        rcases List.mem_cons.mp ((insertByDepthPerm l rest).mem_iff.mp inside) with rfl | inside
        · exact Nat.le_of_not_le gt
        · exact first x inside
  induction loops with
  | nil => exact .nil
  | cons l rest ih => exact insert l _ ih

structure Hoisted (f : Func) (done : List Loop) (s : Func × DefBlocks) : Prop where
  hoistable : Hoistable f (FlowGraph.ofFunc f) s
  listed : Listed s.1 s.2
  settled : ∀ l ∈ done, Settled s.1 l

section Run
variable {f : Func} (ok : WellFormed f)
  {loops : List Loop} (forest : (LoopForest.ofFunc f (FlowGraph.ofFunc f)
    (DomTree.ofFunc f (FlowGraph.ofFunc f))).loops = loops)
  (ready : ∀ l ∈ loops, ∃ p, preheader? (FlowGraph.ofFunc f) l = some p)
include ok forest ready

theorem hoistLoopHoisted {done : List Loop} (among : ∀ l ∈ done, l ∈ loops) {m : Loop} (inside : m ∈ loops)
    (deepest : ∀ l ∈ done, m.depth ≤ l.depth) {s : Func × DefBlocks} (now : Hoisted f done s) :
    Hoisted f (m :: done) (hoistLoop (FlowGraph.ofFunc f) s m) := by
  subst forest
  have present := ok.someBlock
  have precise := LoopForest.exact present inside
  obtain ⟨p, found⟩ := ready m inside
  have entered := (enteredFrom ok precise.natural found).2
  have steps := hoistLoopSteps ok precise.natural found now.hoistable
  have still := hoistLoopStill entered.outside found s
  generalize hoistLoop (FlowGraph.ofFunc f) s m = t at steps still ⊢
  have kept : Hoisted f done t := by
    clear still
    induction steps with
    | refl => exact now
    | tail before step ih =>
      refine ⟨stepsHoistable entered (before.tail step) now.hoistable, stepListed step ih.listed, fun l listed => ?_⟩
      have whole {b : Nat} (within : b ∈ l.blocks) (also : b ∈ m.blocks) : ∀ c ∈ l.blocks, c ∈ m.blocks :=
        LoopForest.shallower present (among l listed) inside (deepest l listed) within also
      refine stepSettled step ih.hoistable.placed (fun b within also => whole also within) (fun within => ?_)
        (ih.settled l listed)
      -- the preheader leads to the header only, so a loop that holds it goes through this one
      obtain ⟨s, edge, there⟩ := (LoopForest.exact present (among l listed)).onward within
      rw [((preheaderFound precise).mp found).2, List.mem_singleton] at edge
      exact entered.outside (whole (edge ▸ there) precise.natural.header p within)
  refine ⟨kept.hoistable, kept.listed, fun l listed => ?_⟩
  rcases List.mem_cons.mp listed with rfl | listed
  · exact settledOfStill kept.hoistable.placed kept.hoistable.clean.wellFormed.once kept.listed still
  · exact kept.settled l listed

theorem hoistLoopsHoisted {rest done : List Loop} {s : Func × DefBlocks} (now : Hoisted f done s)
    (among : ∀ l ∈ done, l ∈ loops) (others : ∀ l ∈ rest, l ∈ loops)
    (sorted : rest.Pairwise fun l m => m.depth ≤ l.depth) (deepest : ∀ l ∈ done, ∀ m ∈ rest, m.depth ≤ l.depth) :
    Hoisted f (rest.reverse ++ done) (rest.foldl (hoistLoop (FlowGraph.ofFunc f)) s) := by
  induction rest generalizing done s with
  | nil => exact now
  | cons m rest ih =>
    have inside := others m List.mem_cons_self
    obtain ⟨first, sorted⟩ := List.pairwise_cons.mp sorted
    rw [List.reverse_cons, List.append_assoc]
    refine ih (hoistLoopHoisted ok forest ready among inside
      (fun l listed => deepest l listed m List.mem_cons_self) now) (fun l listed => ?_)
      (fun l listed => others l (List.mem_cons_of_mem _ listed)) sorted fun l listed k later => ?_
    · rcases List.mem_cons.mp listed with rfl | listed
      · exact inside
      · exact among l listed
    · rcases List.mem_cons.mp listed with rfl | listed
      · exact first k later
      · exact deepest l listed k (List.mem_cons_of_mem _ later)

end Run

theorem hoistAllSettled {f : Func} (clean : Clean f) {loops : List Loop}
    (forest : (LoopForest.ofFunc f (FlowGraph.ofFunc f) (DomTree.ofFunc f (FlowGraph.ofFunc f))).loops = loops)
    (ready : ∀ l ∈ loops, ∃ p, preheader? (FlowGraph.ofFunc f) l = some p) :
    Clean (hoistAll (FlowGraph.ofFunc f) loops f) ∧
      FlowGraph.ofFunc (hoistAll (FlowGraph.ofFunc f) loops f) = FlowGraph.ofFunc f ∧
      ∀ l ∈ loops, Settled (hoistAll (FlowGraph.ofFunc f) loops f) l := by
  have start : Hoisted f [] (f, DefBlocks.ofFunc f) :=
    ⟨⟨clean, .refl f, rfl, placedOfFunc f⟩, listedOfFunc clean.wellFormed, fun _ absent => nomatch absent⟩
  have done := hoistLoopsHoisted clean.wellFormed forest ready start (fun _ absent => nomatch absent)
    (fun l listed => (deepestFirstPerm loops).mem_iff.mp listed) (deepestFirstSorted loops)
    (fun _ absent => nomatch absent)
  refine ⟨done.hoistable.clean, done.hoistable.graph, fun l inside => done.settled l ?_⟩
  rw [List.append_nil, List.mem_reverse]
  exact (deepestFirstPerm loops).mem_iff.mpr inside

theorem hoistAllSame {f : Func} {g : FlowGraph} {loops : List Loop} (settled : ∀ l ∈ loops, Settled f l) :
    hoistAll g loops f = f := by
  have same : (deepestFirst loops).foldl (hoistLoop g) (f, DefBlocks.ofFunc f) = (f, DefBlocks.ofFunc f) := by
    refine foldKeeps (· = (f, DefBlocks.ofFunc f)) _ (fun s same l listed => ?_) rfl
    rw [same]
    exact hoistLoopSame (stillOfSettled (placedOfFunc f) (settled l ((deepestFirstPerm loops).mem_iff.mp listed)))
  rw [hoistAll, same]

end LoopInvariant
end SsaCodegen
