import Mathlib.Logic.Relation
import SsaCodegen.Opt.LoopInvariant
import SsaCodegen.Proofs.Execution.Motion
import SsaCodegen.Proofs.Ir.Bare
import SsaCodegen.Proofs.Ir.Move
import SsaCodegen.Proofs.Opt.Preheader
/-! Hoisting is moving one instruction after the other. The table of definitions only ever
names a block that defines the value, so what is invariant by the table is defined outside
the loop. -/
namespace SsaCodegen
open Search

theorem WellFormed.someBlock {f : Func} (ok : WellFormed f) : 0 < f.blocks.length := by
  obtain ⟨entry, rest, fits⟩ := ok.entry
  rw [fits.blocks]
  exact Nat.succ_pos _

theorem WellFormed.noEntryEdge {f : Func} (ok : WellFormed f) (p : Nat) :
    0 ∉ (FlowGraph.ofFunc f).successors p := by
  intro edge
  obtain ⟨bb, located, edge⟩ := FlowGraph.memSuccessors.mp edge
  obtain ⟨label, target, found⟩ := FlowGraph.memTargetsOf.mp edge
  obtain ⟨a, there, rfl⟩ := ok.targetAt (List.mem_of_getElem? located) target
  obtain ⟨k, later⟩ := List.getElem?_of_mem there
  rw [List.getElem?_tail] at later
  cases (Func.findBlockAt ok.labels later).symm.trans found

namespace LoopInvariant

theorem enteredFrom {f : Func} (ok : WellFormed f) {l : Loop} (natural : l.Natural f) {p : Nat}
    (found : preheader? (FlowGraph.ofFunc f) l = some p) :
    p < f.blocks.length ∧ l.EnteredFrom (FlowGraph.ofFunc f) p := by
  have only : entering (FlowGraph.ofFunc f) l = [p] := by
    unfold preheader? at found
    split at found
    · rename_i only
      split at found
      · rw [only, Option.some.inj found]
      · cases found
    · cases found
  have listed : p ∈ entering (FlowGraph.ofFunc f) l := only ▸ List.mem_cons_self
  obtain ⟨before, outside⟩ := List.mem_filter.mp listed
  obtain ⟨below, -, edge⟩ := LoopForest.memPredecessors before
  refine ⟨below, natural.entry fun zero => ok.noEntryEdge p (zero ▸ edge), ?_, natural.reached,
    fun m b reached edge inside => ?_⟩
  · simpa [Loop.contains] using outside
  · by_cases header : b = l.header
    · subst header
      by_cases within : m ∈ l.blocks
      · exact .inl within
      · have enters : m ∈ entering (FlowGraph.ofFunc f) l := List.mem_filter.mpr
          ⟨(FlowGraph.predecessorIff natural.inside).mpr edge, by simpa [Loop.contains] using within⟩
        rw [only] at enters
        exact .inr (List.mem_singleton.mp enters)
    · exact .inl (natural.closed m b reached edge inside header)

def Placed (f : Func) (defs : DefBlocks) : Prop :=
  ∀ v b, defs.getD v none = some b → ∃ bb, f.blocks[b]? = some bb ∧ v ∈ bb.definedIds

theorem setCases {defs : DefBlocks} {id p v b : Nat}
    (found : (defs.set id (some p)).getD v none = some b) :
    (v = id ∧ b = p) ∨ (v ≠ id ∧ defs.getD v none = some b) := by
  simp only [List.getD_eq_getElem?_getD, List.getElem?_set] at found ⊢
  by_cases same : id = v
  · rw [if_pos same] at found
    split at found
    · exact .inl ⟨same.symm, (Option.some.inj found).symm⟩
    · cases found
  · rw [if_neg same] at found
    exact .inr ⟨Ne.symm same, found⟩

theorem placedOfFunc (f : Func) : Placed f (DefBlocks.ofFunc f) := by
  refine List.foldlRecOn f.blocks.zipIdx _ (fun v b found => ?_) fun defs ok e listed => ?_
  · simp only [List.getD_eq_getElem?_getD, List.getElem?_replicate] at found
    split at found <;> cases found
  · have located : f.blocks[e.2]? = some e.1 := List.mem_zipIdx_iff_getElem?.mp listed
    refine List.foldlRecOn (e.1.definedIds) _ ok fun defs ok id defines v k found => ?_
    rcases setCases found with ⟨rfl, rfl⟩ | ⟨-, old⟩
    · exact ⟨e.1, located, defines⟩
    · exact ok v k old

structure Hoistable (f : Func) (g : FlowGraph) (state : Func × DefBlocks) : Prop where
  clean : Clean state.1
  moved : Rearranged f state.1
  graph : FlowGraph.ofFunc state.1 = g
  placed : Placed state.1 state.2

theorem Hoistable.size {f : Func} {g : FlowGraph} {state : Func × DefBlocks} (ok : Hoistable f g state) :
    state.1.blocks.length = g.size := by
  rw [← ok.graph, FlowGraph.sizeOfFunc]

theorem movedRearranged {f h : Func} {b p : Nat} {home way : Block} {before after body : List Inst}
    {i last : Inst} (m : Moved f h b p home way before after body i last) (isPure : i.op.isPure = true) :
    Rearranged f h where
  kin := .ofRewrites m.rewrites m.types
  rest k := by
    have heads := m.rewrites.headAt k
    cases left : f.blocks[k]? with
    | none =>
      rw [left, Option.map_none, Option.map_eq_none_iff] at heads
      simp only [Func.block, List.getD_eq_getElem?_getD, left, heads]
    | some a =>
      rw [left, Option.map_some] at heads
      obtain ⟨c, right, -⟩ := Option.map_eq_some_iff.mp heads
      rw [Func.blockAt left, Func.blockAt right]
      have gone (front back : List Inst) : effects (front ++ i :: back) = effects (front ++ back) := by
        rw [effects, List.filter_append, ← effects, ← effects, effectsPure isPure, effects, effects, effects,
          List.filter_append]
      rcases m.pairs ⟨k, left, right⟩ with rfl | ⟨rfl, rfl⟩ | ⟨rfl, rfl⟩
      · rfl
      · rw [m.split, gone]
      · rw [m.ends, gone]
  insts := m.insts.symm

theorem movedHoistable {f₀ : Func} {g : FlowGraph} {f h : Func} {defs : DefBlocks}
    (ok : Hoistable f₀ g (f, defs))
    {l : Loop} {b p : Nat} {home way : Block} {before after body : List Inst} {i last : Inst}
    (m : Moved f h b p home way before after body i last) (version : h.layoutVersion = f.layoutVersion)
    (entered : l.EnteredFrom g p) (inside : b ∈ l.blocks)
    (invariant : isInvariant l defs i = true) :
    Hoistable f₀ g (h, i.result.elim defs fun id => defs.set id (some p)) := by
  obtain ⟨clean, moved, graph, placed⟩ := ok
  dsimp only at clean moved graph placed
  subst graph
  have wf := clean.wellFormed
  simp only [isInvariant, Bool.and_eq_true, List.all_eq_true] at invariant
  obtain ⟨⟨present, isPure⟩, operands⟩ := invariant
  obtain ⟨id, own⟩ := Option.isSome_iff_exists.mp present
  have plain := (pureInfo isPure).1
  have origin := List.mem_of_getElem? m.fromAt
  have listed : i ∈ home.insts := m.split ▸ List.mem_append_right _ List.mem_cons_self
  have noArgs := clean.tidy home origin i listed
    (Structure.plainTargets (wf.sound home origin i listed).shape plain)
  have made : Clean h := by
    refine m.clean clean own isPure entered inside fun u used => ?_
    have operand : .temp u ∈ i.operands := by
      rcases Inst.memUsedTemps.mp used with operand | ⟨args, absent, -⟩
      · exact operand
      · rw [noArgs] at absent
        cases absent
    have free := operands u (List.mem_filterMap.mpr ⟨_, operand, rfl⟩)
    split at free
    · rename_i k found
      obtain ⟨bb, located, defines⟩ := placed u k found
      exact ⟨k, bb, located, by simpa [Loop.contains] using free, defines⟩
    · cases free
  refine ⟨made, moved.trans (movedRearranged m isPure), ?_, fun v k found => ?_⟩
  · exact (FlowKept.ofPairs m.rewrites version fun a c pair => (m.ended wf plain pair).2).graph version
  · dsimp only at found
    rw [own] at found
    rcases setCases found with ⟨rfl, rfl⟩ | ⟨other, old⟩
    · refine ⟨_, by rw [m.getElem, if_pos rfl], Block.memDefinedIds.mpr (.inr ⟨i, ?_, own⟩)⟩
      exact List.mem_append_right _ List.mem_cons_self
    · obtain ⟨a, left, defines⟩ := placed v k old
      have head := m.rewrites.headAt k
      rw [left, Option.map_some] at head
      obtain ⟨c, right, -⟩ := Option.map_eq_some_iff.mp head
      exact ⟨c, right, m.keepsAt own other ⟨k, left, right⟩ defines⟩

inductive HoistStep (l : Loop) (p : Nat) : Func × DefBlocks → Func × DefBlocks → Prop where
  | move {f h : Func} {defs : DefBlocks} {b : Nat} {home way : Block} {before after body : List Inst} {i last : Inst}
    (m : Moved f h b p home way before after body i last) (version : h.layoutVersion = f.layoutVersion)
    (inside : b ∈ l.blocks) (invariant : isInvariant l defs i = true) :
    HoistStep l p (f, defs) (h, i.result.elim defs fun id => defs.set id (some p))

open Relation (ReflTransGen)

theorem stepsHoistable {f : Func} {g : FlowGraph} {l : Loop} {p : Nat} (entered : l.EnteredFrom g p)
    {s t : Func × DefBlocks} (steps : ReflTransGen (HoistStep l p) s t) (ok : Hoistable f g s) : Hoistable f g t := by
  induction steps with
  | refl => exact ok
  | tail _ step ih =>
    cases step with
    | move m version inside invariant => exact movedHoistable ih m version entered inside invariant

section Split
variable {f : Func} {l : Loop} {b p : Nat} (home way : Block) (body : List Inst) (last : Inst)

def underway (f : Func) (b p : Nat) (home way : Block) (body : List Inst) (last : Inst)
    (kept hoisted rest : List Inst) : Func :=
  { f with
    blocks := (f.blocks.set b { home with insts := kept ++ rest }).set p
      { way with insts := body ++ hoisted ++ [last] } }

theorem underwayMoved (below : b < f.blocks.length) (under : p < f.blocks.length) (apart : b ≠ p)
    (kept hoisted rest : List Inst) (i : Inst) :
    Moved (underway f b p home way body last kept hoisted (i :: rest))
      (underway f b p home way body last kept (hoisted ++ [i]) rest) b p
      { home with insts := kept ++ i :: rest } { way with insts := body ++ hoisted ++ [last] }
      kept rest (body ++ hoisted) i last where
  signature := rfl
  types := rfl
  fromAt := by
    rw [underway, List.getElem?_set_ne (Ne.symm apart), List.getElem?_set_self below]
  toAt := by
    rw [underway, List.getElem?_set_self (by rwa [List.length_set])]
  apart := apart
  split := rfl
  ends := rfl
  blocks := by
    have tail : body ++ (hoisted ++ [i]) ++ [last] = body ++ hoisted ++ [i, last] := by simp
    simp only [underway, tail]
    rw [List.set_comm _ _ (Ne.symm apart), List.set_set, List.set_set]

theorem splitSteps (below : b < f.blocks.length) (under : p < f.blocks.length) (apart : b ≠ p)
    (inside : b ∈ l.blocks) (kept hoisted rest : List Inst) (defs : DefBlocks) :
    ReflTransGen (HoistStep l p) (underway f b p home way body last kept hoisted rest, defs)
      (underway f b p home way body last (kept ++ (splitInsts l p defs rest).kept)
        (hoisted ++ (splitInsts l p defs rest).hoisted) [], (splitInsts l p defs rest).defs) := by
  induction rest generalizing kept hoisted defs with
  | nil => simpa [splitInsts] using ReflTransGen.refl
  | cons i rest ih =>
    unfold splitInsts
    split
    · rename_i invariant
      have next : HoistStep l p (underway f b p home way body last kept hoisted (i :: rest), defs) _ :=
        .move (underwayMoved home way body last below under apart kept hoisted rest i) rfl inside invariant
      have done := ih kept (hoisted ++ [i]) (i.result.elim defs fun id => defs.set id (some p))
      rw [List.append_assoc] at done
      exact .head next done
    -- an instruction that stays joins those kept and changes nothing
    · have same : underway f b p home way body last kept hoisted (i :: rest) =
          underway f b p home way body last (kept ++ [i]) hoisted rest := by
        simp [underway]
      have done := ih (kept ++ [i]) hoisted defs
      rwa [← same, List.append_assoc] at done

end Split

theorem modifySet {blocks : List Block} {k : Nat} {bb : Block} (located : blocks[k]? = some bb)
    (h : Block → Block) : blocks.modify k h = blocks.set k (h bb) := by
  rw [List.modify_eq_set, located, Option.getD_some]

theorem setSelf {blocks : List Block} {k : Nat} {bb : Block} (located : blocks[k]? = some bb) :
    blocks.set k bb = blocks := by
  obtain ⟨below, rfl⟩ := List.getElem?_eq_some_iff.mp located
  exact List.set_getElem_self below

theorem hoistBlockSteps {f₀ : Func} {g : FlowGraph} {l : Loop} {p : Nat} (outside : p ∉ l.blocks) (under : p < g.size)
    {state : Func × DefBlocks} (ok : Hoistable f₀ g state) {b : Nat} (inside : b ∈ l.blocks) (below : b < g.size) :
    ReflTransGen (HoistStep l p) state (hoistBlock l p state b) := by
  obtain ⟨f, defs⟩ := state
  have apart : b ≠ p := fun same => outside (same ▸ inside)
  rw [← ok.size] at under below
  dsimp only at under below
  have fromAt := List.getElem?_eq_getElem below
  have toAt := List.getElem?_eq_getElem under
  generalize f.blocks[b] = home at fromAt
  generalize f.blocks[p] = way at toAt
  obtain ⟨body, last, ends, -⟩ := ok.clean.wellFormed.ended way (List.mem_of_getElem? toAt)
  have start : underway f b p home way body last [] [] home.insts = f := by
    rw [underway, List.nil_append, List.append_nil, ← ends, setSelf fromAt, setSelf toAt]
  have steps := splitSteps home way body last below under apart inside [] [] home.insts defs
  rw [start] at steps
  have hoisted : hoistBlock l p (f, defs) b = (underway f b p home way body last
      (splitInsts l p defs home.insts).kept (splitInsts l p defs home.insts).hoisted [],
      (splitInsts l p defs home.insts).defs) := by
    simp only [hoistBlock, Func.blockAt fromAt, Func.modifyBlock, underway, modifySet fromAt]
    rw [modifySet ((List.getElem?_set_ne apart).trans toAt), insertBeforeLast, ends,
      List.dropLast_concat, List.getLast?_concat, List.append_nil, Option.toList_some]
  rw [hoisted]
  exact steps

theorem foldKeeps {α β : Type} {step : α → β → α} (keeps : α → Prop) (xs : List β)
    (one : ∀ a, keeps a → ∀ x ∈ xs, keeps (step a x)) {a : α} (start : keeps a) :
    keeps (xs.foldl step a) := List.foldlRecOn xs step start one

theorem hoistRoundsSteps {f₀ : Func} {g : FlowGraph} {l : Loop} {p : Nat} (entered : l.EnteredFrom g p)
    (under : p < g.size) (below : ∀ b ∈ l.blocks, b < g.size) (rounds : Nat) {state : Func × DefBlocks}
    (ok : Hoistable f₀ g state) : ReflTransGen (HoistStep l p) state (hoistRounds l p rounds state) := by
  induction rounds generalizing state with
  | zero => exact .refl
  | succ rounds ih =>
    have next : ReflTransGen (HoistStep l p) state (l.blocks.foldl (hoistBlock l p) state) :=
      foldKeeps (ReflTransGen (HoistStep l p) state) l.blocks (fun s steps b inside =>
        steps.trans (hoistBlockSteps entered.outside under (stepsHoistable entered steps ok) inside
          (below b inside))) .refl
    unfold hoistRounds
    dsimp only
    split
    · exact next.trans (ih (stepsHoistable entered next ok))
    · exact next

theorem hoistLoopSteps {f₀ f : Func} (ok : WellFormed f) {l : Loop} (natural : l.Natural f) {p : Nat}
    (found : preheader? (FlowGraph.ofFunc f) l = some p) {state : Func × DefBlocks}
    (start : Hoistable f₀ (FlowGraph.ofFunc f) state) :
    ReflTransGen (HoistStep l p) state (hoistLoop (FlowGraph.ofFunc f) state l) := by
  obtain ⟨under, entered⟩ := enteredFrom ok natural found
  rw [← FlowGraph.sizeOfFunc f] at under
  rw [hoistLoop, found]
  refine hoistRoundsSteps entered under (fun b inside => ?_) _ start
  rw [FlowGraph.sizeOfFunc]
  exact DomTree.reachedInside (FlowGraph.proper f natural.someBlock) (natural.reached b inside)

theorem hoistLoopHoistable {f₀ f : Func} (ok : WellFormed f) {l : Loop} (natural : l.Natural f)
    {state : Func × DefBlocks} (start : Hoistable f₀ (FlowGraph.ofFunc f) state) :
    Hoistable f₀ (FlowGraph.ofFunc f) (hoistLoop (FlowGraph.ofFunc f) state l) := by
  cases found : preheader? (FlowGraph.ofFunc f) l with
  | none => rwa [hoistLoop, found]
  | some p => exact stepsHoistable (enteredFrom ok natural found).2 (hoistLoopSteps ok natural found start) start

theorem hoistAllRearranged {f : Func} (clean : Clean f) {g : Func} (made : hoistAll (FlowGraph.ofFunc f)
    (LoopForest.ofFunc f (FlowGraph.ofFunc f) (DomTree.ofFunc f (FlowGraph.ofFunc f))).loops f = g) :
    Clean g ∧ Rearranged f g := by
  have start : Hoistable f (FlowGraph.ofFunc f) (f, DefBlocks.ofFunc f) :=
    ⟨clean, .refl f, rfl, placedOfFunc f⟩
  have done := foldKeeps (Hoistable f (FlowGraph.ofFunc f)) _ (fun state ok l listed =>
    hoistLoopHoistable clean.wellFormed
      (LoopForest.natural clean.wellFormed.someBlock ((deepestFirstPerm _).mem_iff.mp listed)) ok) start
  exact made ▸ ⟨done.clean, done.moved⟩

theorem hoistAllLowered {f : Func} (ok : Lowered f) : Lowered (hoistAll (FlowGraph.ofFunc f)
    (LoopForest.ofFunc f (FlowGraph.ofFunc f) (DomTree.ofFunc f (FlowGraph.ofFunc f))).loops f) := by
  obtain ⟨clean, moved⟩ := hoistAllRearranged ok.clean rfl
  exact ⟨clean, fun j inside => ok.encoded j (moved.insts.mem_iff.mp inside)⟩

theorem entryHeader {f : Func} (ok : WellFormed f) {e : Entry} (listed : e ∈ (LoopForest.ofFunc f
      (FlowGraph.ofFunc f) (DomTree.ofFunc f (FlowGraph.ofFunc f))).loops.filterMap
        (entryOf? f (FlowGraph.ofFunc f))) {bb : Block} (first : f.blocks[0]? = some bb) :
    bb.label ≠ e.header := by
  obtain ⟨l, inside, found⟩ := List.mem_filterMap.mp listed
  have natural := LoopForest.natural (Nat.lt_of_le_of_lt (Nat.zero_le _)
    (List.getElem?_eq_some_iff.mp first).1) inside
  unfold entryOf? at found
  dsimp only at found
  split at found
  · cases found
  · rename_i other
    simp only [Bool.or_eq_true, beq_iff_eq, not_or] at other
    cases found
    have header := List.getElem?_eq_getElem natural.inside
    rw [Func.blockAt header]
    intro same
    exact other.1.1 (Func.indexUnique ok.labels header first same.symm)

end LoopInvariant

open LoopInvariant in
theorem hoistInvariantsLowered {encode : Func → Inst → Option Encoding}
    (legal : ∀ f inst enc, encode f inst = some enc → enc.isLegal = true)
    (jumps : ∀ f label (params : List Param),
      (encode f (jumpTo label (params.map fun p => .temp p.id) {})).isSome = true)
    {f : Func} (ok : Lowered f) : Lowered (hoistInvariants encode (FlowGraph.ofFunc f)
      (LoopForest.ofFunc f (FlowGraph.ofFunc f) (DomTree.ofFunc f (FlowGraph.ofFunc f))) f).func := by
  have done := insertPreheadersSound legal jumps ((LoopForest.ofFunc f (FlowGraph.ofFunc f)
    (DomTree.ofFunc f (FlowGraph.ofFunc f))).loops.filterMap (entryOf? f (FlowGraph.ofFunc f))) ok
    fun e listed bb first => entryHeader ok.clean.wellFormed listed first
  unfold hoistInvariants
  cases inserted : insertPreheaders encode f _ with
  | mk h changed =>
    rw [inserted] at done
    cases changed with
    | true =>
      exact hoistAllLowered ⟨(SameCode.noted h).clean done.lowered.clean, done.lowered.encoded⟩
    | false =>
      cases done.same rfl
      exact hoistAllLowered ok

end SsaCodegen
