import Mathlib.Data.List.Forall2
import SsaCodegen.Flow.Liveness
import SsaCodegen.Proofs.Flow.Words
import SsaCodegen.Proofs.Ir.WellFormed
/-! The sets that liveness starts from. Whatever the storage held, there is a row of as many
words as the values need for each block, and it says which values the block reads before it
defines them, and which it defines. -/
namespace SsaCodegen

def readsBeforeDef (v : Nat) : List Inst → Bool
  | [] => false
  | i :: rest => i.usesTemp v || (!i.defines v && readsBeforeDef v rest)

def Block.readsOnEntry (b : Block) (v : Nat) : Bool :=
  !b.paramIds.contains v && readsBeforeDef v b.insts

namespace Rows

def holds (rows : List Words) (b v : Nat) : Bool := Words.test (rows.getD b []) v

structure Fit (count words : Nat) (rows : List Words) : Prop where
  length : count ≤ rows.length
  row : ∀ b < count, (rows.getD b []).length = words

variable {rows : List Words} {count words b c v : Nat} {row : Words}

theorem getDSet (inside : b < rows.length) :
    (rows.set b row).getD c [] = if c = b then row else rows.getD c [] := by
  simp only [List.getD_eq_getElem?_getD, List.getElem?_set, inside, if_true]
  by_cases same : c = b
  · simp [same]
  · simp [same, Ne.symm same]

theorem holdsSet (inside : b < rows.length) :
    holds (rows.set b row) c v = if c = b then row.test v else holds rows c v := by
  rw [holds, getDSet inside]
  split <;> rfl

theorem Fit.set (fit : Fit count words rows) (inside : b < count) (same : row.length = words) :
    Fit count words (rows.set b row) where
  length := by rw [List.length_set]; exact fit.length
  row c below := by
    rw [getDSet (Nat.lt_of_lt_of_le inside fit.length)]
    split
    · exact same
    · exact fit.row c below

theorem Fit.holdsBelow (fit : Fit count words rows) (inside : b < count)
    (held : holds rows b v = true) : v < 64 * words :=
  fit.row b inside ▸ Words.testBelow held

theorem getDReset (inside : b < count) : (reset count row rows).getD b [] = row := by
  rw [resetEq, List.getD_eq_getElem?_getD,
    List.getElem?_append_left (by rwa [List.length_replicate]), List.getElem?_replicate]
  simp [inside]

theorem fitReset : Fit count words (reset count (Words.empty words) rows) where
  length := by rw [resetEq, List.length_append, List.length_replicate]; exact Nat.le_add_right ..
  row b inside := by rw [getDReset inside, Words.lengthEmpty]

theorem holdsReset (inside : b < count) : holds (reset count (Words.empty words) rows) b v = false := by
  rw [holds, getDReset inside, Words.testEmpty]

end Rows

namespace Liveness
variable {size words : Nat} {defs uses : Words} {v : Nat}

section Notes
variable (room : size ≤ 64 * words)
include room

theorem defineAll (vs : List Nat) (length : defs.length = words) :
    (vs.foldl (define size) defs).length = words ∧
      ((vs.foldl (define size) defs).test v = true ↔ defs.test v = true ∨ v ∈ vs ∧ v < size) := by
  induction vs generalizing defs with
  | nil => simp [length]
  | cons u rest ih =>
    rw [List.foldl_cons, List.mem_cons]
    unfold define
    split
    · rename_i below
      have wide : (defs.insert u).length = words := by rwa [Words.lengthInsert]
      obtain ⟨same, held⟩ := ih wide
      refine ⟨same, held.trans ?_⟩
      rw [Words.testInsert (by omega), Bool.or_eq_true, beq_iff_eq, or_and_right, or_assoc]
      exact or_congr_right (or_congr_left ⟨fun same => ⟨same, same ▸ below⟩, And.left⟩)
    · rename_i above
      obtain ⟨same, held⟩ := ih length
      refine ⟨same, held.trans (or_congr_right (and_congr_left fun below => ?_))⟩
      exact (or_iff_right fun same : v = u => above (same ▸ below)).symm

theorem noteReads (vs : List Nat) (length : uses.length = words) :
    (vs.foldl (noteRead size defs) uses).length = words ∧
      ((vs.foldl (noteRead size defs) uses).test v = true ↔
        uses.test v = true ∨ v ∈ vs ∧ v < size ∧ defs.test v = false) := by
  induction vs generalizing uses with
  | nil => simp [length]
  | cons u rest ih =>
    rw [List.foldl_cons, List.mem_cons]
    unfold noteRead
    split
    · rename_i counts
      rw [Bool.and_eq_true, decide_eq_true_eq, Bool.not_eq_true'] at counts
      have wide : (uses.insert u).length = words := by rwa [Words.lengthInsert]
      obtain ⟨same, held⟩ := ih wide
      refine ⟨same, held.trans ?_⟩
      rw [Words.testInsert (by omega), Bool.or_eq_true, beq_iff_eq, or_and_right, or_assoc]
      exact or_congr_right (or_congr_left ⟨fun same => ⟨same, same ▸ counts⟩, And.left⟩)
    · rename_i skipped
      rw [Bool.and_eq_true, decide_eq_true_eq, Bool.not_eq_true'] at skipped
      obtain ⟨same, held⟩ := ih length
      refine ⟨same, held.trans (or_congr_right (and_congr_left fun counts => ?_))⟩
      exact (or_iff_right fun same : v = u => skipped (same ▸ counts)).symm

theorem noteInsts (insts : List Inst) (usesLength : uses.length = words)
    (defsLength : defs.length = words) :
    let sets := insts.foldl (noteInst size) (uses, defs)
    (sets.1.length = words ∧ sets.2.length = words) ∧
      (sets.1.test v = true ↔
        uses.test v = true ∨ v < size ∧ defs.test v = false ∧ readsBeforeDef v insts = true) ∧
      (sets.2.test v = true ↔
        defs.test v = true ∨ v < size ∧ ∃ inst ∈ insts, inst.result = some v) := by
  induction insts generalizing uses defs with
  | nil => simp [readsBeforeDef, usesLength, defsLength]
  | cons inst rest ih =>
    obtain ⟨usesNow, read⟩ := @noteReads size words defs uses v room inst.usedTemps usesLength
    obtain ⟨defsNow, defined⟩ := defineAll (v := v) room inst.result.toList defsLength
    rw [Option.mem_toList] at defined
    obtain ⟨lengths, reads, defines⟩ := ih usesNow defsNow
    refine ⟨lengths, reads.trans ?_, defines.trans ?_⟩
    · have apart : (inst.result.toList.foldl (define size) defs).test v = false ↔
          defs.test v = false ∧ ¬ (inst.result = some v ∧ v < size) := by
        rw [← Bool.not_eq_true, defined, not_or, Bool.not_eq_true]
      rw [read, apart]
      simp only [readsBeforeDef, Inst.usesTemp, Inst.defines, Bool.or_eq_true, List.contains_iff_mem,
        Bool.and_eq_true, Bool.not_eq_true', beq_eq_false_iff_ne]
      constructor
      · rintro ((already | ⟨used, below, free⟩) | ⟨below, ⟨free, other⟩, later⟩)
        · exact .inl already
        · exact .inr ⟨below, free, .inl used⟩
        · exact .inr ⟨below, free, .inr ⟨fun same => other ⟨same, below⟩, later⟩⟩
      · rintro (already | ⟨below, free, used | ⟨other, later⟩⟩)
        · exact .inl (.inl already)
        · exact .inl (.inr ⟨used, below, free⟩)
        · exact .inr ⟨below, ⟨free, fun same => other same.1⟩, later⟩
    · rw [defined, or_assoc, and_comm (a := inst.result = some v), ← and_or_left]
      simp only [List.mem_cons, exists_eq_or_imp]

theorem noteBlockFrom (bb : Block) :
    let sets := noteBlock size (Words.empty words, Words.empty words) bb
    (sets.1.length = words ∧ sets.2.length = words) ∧
      (sets.1.test v = true ↔ v < size ∧ bb.readsOnEntry v = true) ∧
      (sets.2.test v = true ↔ v < size ∧ v ∈ bb.definedIds) := by
  obtain ⟨length, params⟩ := defineAll (v := v) room bb.paramIds (Words.lengthEmpty (n := words))
  obtain ⟨lengths, reads, defines⟩ :=
    noteInsts (v := v) room bb.insts (Words.lengthEmpty (n := words)) length
  rw [Words.testEmpty] at params reads
  refine ⟨lengths, reads.trans ?_, defines.trans ?_⟩
  · have free : (bb.paramIds.foldl (define size) (Words.empty words)).test v = false ↔
        ¬ (v ∈ bb.paramIds ∧ v < size) := by
      rw [← Bool.not_eq_true, params]
      simp
    rw [free]
    simp only [Bool.false_eq_true, false_or, Block.readsOnEntry, Bool.and_eq_true, Bool.not_eq_true',
      List.contains_eq_mem, decide_eq_false_iff_not]
    exact and_congr_right fun below => and_congr_left fun _ =>
      not_congr (and_iff_left below)
  · rw [params, Block.memDefinedIds]
    simp only [Bool.false_eq_true, false_or]
    rw [and_comm, ← and_or_left]

end Notes

structure Notes (size : Nat) (uses defs : List Words) (b : Nat) (bb : Block) : Prop where
  uses : ∀ v, Rows.holds uses b v = true ↔ v < size ∧ bb.readsOnEntry v = true
  defs : ∀ v, Rows.holds defs b v = true ↔ v < size ∧ v ∈ bb.definedIds

structure Noting (words count b : Nat) (l : Liveness) : Prop where
  uses : Rows.Fit count words l.uses
  defs : Rows.Fit count words l.defs
  blank : ∀ c, b ≤ c → c < count →
    l.uses.getD c [] = Words.empty words ∧ l.defs.getD c [] = Words.empty words

theorem noteBlocksKeeps (size b : Nat) (blocks : List Block) (l : Liveness) :
    let m := noteBlocks size b blocks l
    m.ins = l.ins ∧ m.outs = l.outs ∧ m.numBlocks = l.numBlocks ∧ m.numWords = l.numWords := by
  induction blocks generalizing b l with
  | nil => exact ⟨rfl, rfl, rfl, rfl⟩
  | cons bb rest ih => exact ih ..

theorem noteBlocksSame {as bs : List Block}
    (same : List.Forall₂ (fun a b => ∀ sets, noteBlock size sets b = noteBlock size sets a) as bs) (b : Nat)
    (l : Liveness) : noteBlocks size b bs l = noteBlocks size b as l := by
  induction same generalizing b l with
  | nil => rfl
  | cons first rest ih => simp only [noteBlocks, first, ih]

theorem ofFuncSame {f g : Func} (values : g.numValues = f.numValues)
    (same : List.Forall₂ (fun a b => ∀ sets, noteBlock f.numValues sets b = noteBlock f.numValues sets a)
      f.blocks g.blocks) (graph : FlowGraph) : ofFunc g graph = ofFunc f graph := by
  have prepared : prepare {} g = prepare {} f := by
    rw [prepare, prepare, emptied, emptied, wordsFor, wordsFor, values, same.length_eq, noteBlocksSame same]
  rw [ofFunc, ofFunc, compute, compute, compute?, compute?, prepared]

theorem noted (room : size ≤ 64 * words) {count b : Nat} (blocks : List Block) {l : Liveness}
    (blank : Noting words count b l) (last : b + blocks.length = count) :
    let m := noteBlocks size b blocks l
    Noting words count count m ∧
      (∀ c < b, m.uses.getD c [] = l.uses.getD c [] ∧ m.defs.getD c [] = l.defs.getD c []) ∧
      ∀ k bb, blocks[k]? = some bb → Notes size m.uses m.defs (b + k) bb := by
  induction blocks generalizing b l with
  | nil => exact ⟨⟨blank.uses, blank.defs, fun c origin below => absurd below (Nat.not_lt_of_le origin)⟩,
      fun _ _ => ⟨rfl, rfl⟩, fun _ _ found => nomatch found⟩
  | cons bb rest ih =>
    rw [List.length_cons] at last
    have inside : b < count := by omega
    obtain ⟨noUses, noDefs⟩ := blank.blank b (Nat.le_refl b) inside
    unfold noteBlocks
    dsimp only
    rw [noUses, noDefs]
    have lengths := (noteBlockFrom (v := 0) room bb).1
    have told (v : Nat) := (noteBlockFrom (v := v) room bb).2
    generalize noteBlock size (Words.empty words, Words.empty words) bb = sets at lengths told
    have usesRow (c : Nat) : (l.uses.set b sets.1).getD c [] = if c = b then sets.1 else l.uses.getD c [] :=
      Rows.getDSet (Nat.lt_of_lt_of_le inside blank.uses.length)
    have defsRow (c : Nat) : (l.defs.set b sets.2).getD c [] = if c = b then sets.2 else l.defs.getD c [] :=
      Rows.getDSet (Nat.lt_of_lt_of_le inside blank.defs.length)
    obtain ⟨done, before, after⟩ := ih (b := b + 1)
      (l := { l with uses := l.uses.set b sets.1, defs := l.defs.set b sets.2 })
      ⟨blank.uses.set inside lengths.1, blank.defs.set inside lengths.2, fun c later below => by
        rw [usesRow, defsRow, if_neg (by omega), if_neg (by omega)]
        exact blank.blank c (by omega) below⟩ (by omega)
    simp only [usesRow, defsRow] at before
    generalize noteBlocks size (b + 1) rest _ = m at done before after ⊢
    refine ⟨done, fun c early => ?_, fun k found located => ?_⟩
    · obtain ⟨uses, defs⟩ := before c (by omega)
      rw [uses, defs, if_neg (by omega), if_neg (by omega)]
      exact ⟨rfl, rfl⟩
    · cases k with
      | zero =>
        cases located
        obtain ⟨uses, defs⟩ := before b (Nat.lt_succ_self b)
        rw [if_pos rfl] at uses defs
        refine ⟨fun v => ?_, fun v => ?_⟩
        · rw [← (told v).1, ← uses]
          rfl
        · rw [← (told v).2, ← defs]
          rfl
      | succ k =>
        have later := after k found located
        rwa [show b + 1 + k = b + (k + 1) by omega] at later

end Liveness
end SsaCodegen
