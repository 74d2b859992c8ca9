import SsaCodegen.Proofs.Flow.Faithful
import SsaCodegen.Proofs.Layout.FrameLaid
import SsaCodegen.Proofs.Legalize.Encodings
import SsaCodegen.Proofs.Legalize.Growth
/-! The entry block. Whatever a transformation does to a function, its first block stays the first, no other
block takes its name, and a prologue that opens it goes on to do so. -/
namespace SsaCodegen

def Concludes (insts : List Inst) : Prop := ∃ t ∈ insts.getLast?, t.isTerminator = true

def Inst.OpensFrame (i : Inst) : Prop := i.op = .prologue ∧ i.uses = []

def Opens (insts : List Inst) : Prop := ∃ p ∈ insts.head?, p.OpensFrame

theorem opensCons {i : Inst} {rest : List Inst} : Opens (i :: rest) ↔ i.OpensFrame := by
  simp [Opens]

theorem concludesSome {insts : List Inst} (concludes : Concludes insts) : insts ≠ [] := by
  obtain ⟨t, last, -⟩ := concludes
  exact List.ne_nil_of_mem (List.mem_of_getLast? last)

theorem concludesAppend {front : List Inst} {last : Inst} :
    Concludes (front ++ [last]) ↔ last.isTerminator = true := by
  simp [Concludes]

theorem concludesCons {i : Inst} {rest : List Inst} (nonempty : rest ≠ []) :
    Concludes (i :: rest) ↔ Concludes rest := by
  obtain ⟨j, others, rfl⟩ := List.exists_cons_of_ne_nil nonempty
  rw [Concludes, Concludes, List.getLast?_cons_cons]

namespace Inst.OpensFrame
variable {i : Inst} (opens : i.OpensFrame)
include opens

theorem plain : i.isTerminator = false := by
  rw [Inst.isTerminator, opens.1]
  rfl

theorem impure : i.op.isPure = false := by
  rw [opens.1]
  rfl

theorem mapUses (read : Value → Value) : (i.mapUses read).OpensFrame :=
  ⟨opens.1, by rw [usesMapUses, opens.2, List.map_nil]⟩

end Inst.OpensFrame

theorem concludesSame {as bs : List Inst} (same : bs.map Inst.isTerminator = as.map Inst.isTerminator)
    (concludes : Concludes as) : Concludes bs := by
  have read (insts : List Inst) : Concludes insts ↔ (insts.map Inst.isTerminator).getLast? = some true := by
    rw [Concludes, List.getLast?_map, Option.map_eq_some_iff]
    rfl
  rwa [read, same, ← read]

theorem Reshapes.concludes {as bs : List Inst} (reshapes : Reshapes as bs) (concludes : Concludes as) :
    Concludes bs := by
  induction reshapes with
  | nil => exact concludes
  | @keep i j as bs leaves last _ ih =>
    by_cases empty : as = []
    · subst empty
      have ends : i.isTerminator = true := by simpa [Concludes] using concludes
      rw [last rfl]
      refine ⟨j, rfl, ?_⟩
      by_contra plain
      have plain := plainLeaves leaves.symm (Bool.not_eq_true _ ▸ plain)
      exact Bool.noConfusion (plain.symm.trans ends)
    · have later := ih ((concludesCons empty).mp concludes)
      exact (concludesCons (concludesSome later)).mpr later
  | @drop i as bs plain _ ih =>
    by_cases empty : as = []
    · subst empty
      have ends : i.isTerminator = true := by simpa [Concludes] using concludes
      exact Bool.noConfusion (plain.symm.trans ends)
    · exact ih ((concludesCons empty).mp concludes)
  | add plain _ ih =>
    have later := ih concludes
    exact (concludesCons (concludesSome later)).mpr later

structure Follows (a b : Block) : Prop where
  label : b.label = a.label
  concludes : Concludes a.insts → Concludes b.insts
  opens : Concludes a.insts → Opens a.insts → Opens b.insts

namespace Follows
variable {a b c : Block}

theorem refl (a : Block) : Follows a a := ⟨rfl, id, fun _ => id⟩

theorem trans (first : Follows a b) (second : Follows b c) : Follows a c where
  label := second.label.trans first.label
  concludes ends := second.concludes (first.concludes ends)
  opens ends opens := second.opens (first.concludes ends) (first.opens ends opens)

theorem ofReshaped (reshaped : Reshaped a b) (opens : Opens a.insts → Opens b.insts) : Follows a b :=
  ⟨reshaped.1, reshaped.2.concludes, fun _ => opens⟩

theorem ofBare (same : b.bare = a.bare) : Follows a b := by
  simp only [Block.bare, Block.mapInsts, Block.mk.injEq] at same
  obtain ⟨label, -, insts⟩ := same
  refine ⟨label, concludesSame ?_, fun _ opens => ?_⟩
  · have ends := congrArg (List.map Inst.isTerminator) insts
    rwa [List.map_map, List.map_map] at ends
  · obtain ⟨p, first, opens⟩ := opens
    have heads : (b.insts.map Inst.bare).head? = some p.bare := by rw [insts, List.head?_map, first]; rfl
    rw [List.head?_map] at heads
    obtain ⟨q, now, bare⟩ := Option.map_eq_some_iff.mp heads
    obtain ⟨op, -, -, operands, -, args⟩ := Inst.bareReads bare
    exact ⟨q, now, op.trans opens.1, by rw [Inst.uses, operands, args]; exact opens.2⟩

end Follows

inductive EntryKept : List Block → List Block → Prop where
  | nil : EntryKept [] []
  | cons {a b : Block} {as bs : List Block} : Follows a b →
      (a.label ∈ bs.map Block.label → a.label ∈ as.map Block.label) → EntryKept (a :: as) (b :: bs)

namespace EntryKept
variable {as bs cs : List Block}

theorem refl (as : List Block) : EntryKept as as := by
  cases as with
  | nil => exact .nil
  | cons a as => exact .cons (.refl a) id

theorem trans (first : EntryKept as bs) (second : EntryKept bs cs) : EntryKept as cs := by
  cases first with
  | nil => exact second
  | cons follows names =>
    cases second with
    | cons follows' names' =>
      exact .cons (follows.trans follows') fun named => names (follows.label ▸ names' (follows.label ▸ named))

theorem ofFollows (follows : List.Forall₂ Follows as bs) : EntryKept as bs := by
  cases follows with
  | nil => exact .nil
  | cons here rest =>
    refine .cons here fun named => ?_
    have labels : List.Forall₂ (fun a b : Block => b.label = a.label) _ _ := rest.imp fun _ _ => Follows.label
    have same := List.forall₂_eq_eq_eq ▸ (List.forall₂_map_left_iff.mpr
      (List.forall₂_map_right_iff.mpr (labels.imp fun _ _ => Eq.symm)))
    exact (congrArg (_ ∈ ·) same).mpr named

theorem ofMap {h : Block → Block} (follows : ∀ a, Follows a (h a)) : EntryKept as (as.map h) :=
  ofFollows (List.forall₂_map_right_iff.mpr (List.forall₂_same.mpr fun a _ => follows a))

theorem ofBare (same : bs.map Block.bare = as.map Block.bare) : EntryKept as bs := by
  refine ofFollows ?_
  have both : List.Forall₂ (fun a b : Block => a.bare = b.bare) as bs :=
    List.forall₂_map_left_iff.mp (List.forall₂_map_right_iff.mp (List.forall₂_eq_eq_eq ▸ same.symm))
  exact both.imp fun _ _ same => .ofBare same.symm

theorem ofSublist {a : Block} (part : bs.Sublist as) : EntryKept (a :: as) (a :: bs) :=
  .cons (.refl a) fun named => (part.map Block.label).subset named

theorem first (kept : EntryKept as bs) {b : Block} (first : b ∈ bs.head?) : ∃ a ∈ as.head?, b.label = a.label := by
  cases kept with
  | nil => cases first
  | cons follows _ =>
    cases first
    exact ⟨_, rfl, follows.label⟩

theorem insertIdx {new : Block} (other : ∀ a ∈ as.head?, a.label ≠ new.label) (k : Nat) :
    EntryKept as (as.insertIdx (k + 1) new) := by
  cases as with
  | nil => exact .nil
  | cons a as =>
    refine .cons (.refl a) fun named => ?_
    obtain ⟨b, inside, same⟩ := List.mem_map.mp named
    rcases List.eq_or_mem_of_mem_insertIdx inside with rfl | old
    · exact absurd same.symm (other a rfl)
    · exact same ▸ List.mem_map_of_mem old

theorem modify {h : Block → Block} {k : Nat} (follows : ∀ a, as[k]? = some a → Follows a (h a)) :
    EntryKept as (as.modify k h) := by
  refine ofFollows (List.forall₂_iff_get.mpr ⟨(List.length_modify ..).symm, fun m left right => ?_⟩)
  rw [List.get_eq_getElem, List.get_eq_getElem, List.getElem_modify]
  split
  · rename_i here
    subst here
    exact follows _ (List.getElem?_eq_getElem left)
  · exact .refl _

end EntryKept

def EntryFramed (f : Func) : Prop := ∀ entry rest, f.blocks = entry :: rest →
  Concludes entry.insts ∧ (f.frame.laidOut = true → Opens entry.insts) ∧ entry.label ∉ rest.map Block.label

theorem EntryFramed.kept {f g : Func} (ok : EntryFramed f) (kept : EntryKept f.blocks g.blocks)
    (frame : g.frame = f.frame) : EntryFramed g := by
  intro entry rest blocks
  rw [blocks] at kept
  cases before : f.blocks with
  | nil =>
    rw [before] at kept
    cases kept
  | cons a as =>
    rw [before] at kept
    cases kept with
    | cons follows names =>
      obtain ⟨ends, opens, alone⟩ := ok a as before
      exact ⟨follows.concludes ends, fun laid => follows.opens ends (opens (frame ▸ laid)),
        fun named => alone (names (follows.label ▸ named))⟩

theorem Opens.first {insts : List Inst} (opens : Opens insts) : ∃ p rest, insts = p :: rest ∧ p.OpensFrame := by
  obtain ⟨p, first, opens⟩ := opens
  obtain ⟨rest, rfl⟩ := List.head?_eq_some_iff.mp first
  exact ⟨p, rest, rfl, opens⟩

theorem Opens.append {front : List Inst} (opens : Opens front) (back : List Inst) : Opens (front ++ back) := by
  obtain ⟨p, rest, rfl, starts⟩ := opens.first
  exact opensCons.mpr starts

theorem opensDropLast {insts : List Inst} (ends : Concludes insts) (opens : Opens insts) : Opens insts.dropLast := by
  obtain ⟨p, rest, rfl, starts⟩ := opens.first
  have nonempty : rest ≠ [] := by
    rintro rfl
    have last : p.isTerminator = true := by simpa [Concludes] using ends
    exact Bool.noConfusion (starts.plain.symm.trans last)
  rw [List.dropLast_cons_of_ne_nil nonempty]
  exact opensCons.mpr starts

section Passes

open ConstantFold in
theorem foldConstantsEntry (f : Func) : EntryKept f.blocks (foldConstants f).1.blocks := by
  have opens (known : Known) (insts : List Inst) (opens : Opens insts) : Opens (foldInsts f known insts).1 := by
    obtain ⟨p, rest, rfl, starts⟩ := opens.first
    have stays : fold? f known p = none := by simp [fold?, starts.1, isFoldable]
    refine opensCons.mpr ?_
    rwa [stays]
  have blocks (known : Known) (blocks : List Block) : List.Forall₂ Follows blocks (foldBlocks f known blocks) := by
    induction blocks generalizing known with
    | nil => exact .nil
    | cons bb rest ih =>
      exact .cons ⟨rfl, concludesSame (foldInstsEnds f known bb.insts), fun _ => opens known bb.insts⟩ (ih _)
  obtain ⟨known, same, -⟩ := folded f
  rw [same]
  exact .ofFollows (blocks known f.blocks)

open NanGuard in
theorem canonicalizeNansEntry (f : Func) : EntryKept f.blocks (canonicalizeNans f).1.blocks := by
  have opens (next : Nat) (insts : List Inst) (opens : Opens insts) : Opens (guardInsts next insts).1 := by
    obtain ⟨p, rest, rfl, starts⟩ := opens.first
    have other : isFloatArithmetic p.op = false := by
      rw [starts.1]
      rfl
    rw [guardInsts, other]
    exact opensCons.mpr starts
  have blocks (next : Nat) (blocks : List Block) : List.Forall₂ Follows blocks (guardBlocks next blocks).1 := by
    induction blocks generalizing next with
    | nil => exact .nil
    | cons bb rest ih => exact .cons (.ofReshaped ⟨rfl, guardInstsReshapes next bb.insts⟩ (opens next bb.insts)) (ih _)
  exact .ofFollows (blocks _ _)

open CompareBranch in
theorem fuseCompareBranchesEntry (encode : Func → Inst → Option Encoding) (f : Func) :
    EntryKept f.blocks (fuseCompareBranches encode f).1.blocks := by
  unfold fuseCompareBranches
  dsimp only
  split
  · exact .refl _
  · refine .ofMap fun a => ?_
    rcases fuseBlockCases (encode f) f.countUses a with same |
      ⟨before, compare, branch, fused, id, old, new, fusion⟩
    · rw [same]
      exact .refl a
    · obtain ⟨enc, -, rfl⟩ := fusion.fused
      refine ⟨rfl, fun _ => new ▸ concludesAppend.mpr rfl, fun _ opens => ?_⟩
      rw [old] at opens
      rw [new]
      cases before with
      | nil =>
        have compares := (opensCons.mp opens).1
        exact Opcode.noConfusion (fusion.compares.symm.trans compares)
      | cons p rest => exact opensCons.mpr (opensCons.mp opens)

theorem thinnedFollows {a b : Block} (label : b.label = a.label) (thinned : Thinned a.insts b.insts) :
    Follows a b := by
  refine .ofReshaped ⟨label, thinned.reshapes⟩ fun opens => ?_
  obtain ⟨p, rest, same, starts⟩ := opens.first
  rw [same] at thinned
  generalize b.insts = insts at thinned
  cases thinned with
  | keep tail => exact opensCons.mpr starts
  | drop isPure tail => exact Bool.noConfusion (starts.impure.symm.trans isPure)

theorem eliminateDeadCodeEntry (t : DomTree) (f : Func) :
    EntryKept f.blocks (eliminateDeadCode t f).1.blocks ∧ (eliminateDeadCode t f).1.frame = f.frame := by
  have thins := eliminateDeadCodeThins t f
  exact ⟨.ofFollows (thins.blocks.imp fun _ _ pair => thinnedFollows pair.1 pair.2), by rw [thins.rest]⟩

theorem removeUnreachableEntry (t : DomTree) (f : Func) : EntryKept f.blocks (removeUnreachable t f).1.blocks ∧
    (removeUnreachable t f).1.frame = f.frame := by
  unfold removeUnreachable
  dsimp only
  split
  · exact ⟨.refl _, rfl⟩
  · refine ⟨?_, rfl⟩
    cases blocks : f.blocks with
    | nil => exact .refl _
    | cons a as =>
      have part := Unreachable.keptSublist t (a :: as)
      obtain ⟨kept, same⟩ : ∃ kept, Unreachable.keptBlocks t (a :: as) = a :: kept :=
        ⟨_, List.filterMap_cons_some rfl⟩
      rw [same] at part
      dsimp only
      rw [same]
      exact .ofSublist (List.cons_sublist_cons.mp part)

open ValueNumbering in
theorem numberInstsOpens (scope : Scope) (insts : List Inst) (opens : Opens insts) :
    Opens (numberInsts scope insts).1 := by
  obtain ⟨p, rest, rfl, starts⟩ := opens.first
  have starts := starts.mapUses scope.substitution.apply
  have unkeyed : (p.mapUses scope.substitution.apply).valueKey? = none := by
    unfold Inst.valueKey?
    rw [if_neg (by simp [starts.impure])]
  simp only [numberInsts, numberInst, unkeyed]
  exact opensCons.mpr starts

open ValueNumbering in
theorem numberValuesEntry (t : DomTree) (f : Func) : EntryKept f.blocks (numberValues t f).1.blocks ∧
    (numberValues t f).1.frame = f.frame := by
  have visits (fuel : Nat) (leaders : Leaders) (p : Progress) (b : Nat) :
      EntryKept p.blocks (visit t fuel leaders p b).blocks := by
    induction fuel generalizing leaders p b with
    | zero => exact .refl _
    | succ fuel ih =>
      unfold visit
      dsimp only
      refine LoopInvariant.foldKeeps (fun q : Progress => EntryKept p.blocks q.blocks) _
        (fun q below c _ => below.trans (ih _ q c)) ?_
      refine .modify fun a located => ?_
      rw [List.getD_eq_getElem?_getD, located, Option.getD_some]
      exact .ofReshaped ⟨rfl, numberInstsReshapes _ _⟩ (numberInstsOpens _ _)
  unfold numberValues
  split
  · exact ⟨.refl _, rfl⟩
  · refine ⟨(visits (t.order.length + 1) [] ⟨f.blocks, List.replicate f.numValues none, 0⟩ 0).trans ?_, rfl⟩
    refine .ofMap fun a => .ofReshaped ⟨rfl, .ofLeaves ?_⟩ fun opens => ?_
    · rw [Block.mapInsts, List.map_map]
      rfl
    · obtain ⟨p, rest, same, starts⟩ := opens.first
      rw [Block.mapInsts, same]
      exact opensCons.mpr (starts.mapUses _)

theorem allocateEntry (regs : RegisterFile) (g : FlowGraph) (t : DomTree) (f : Func) :
    EntryKept f.blocks (RegAlloc.run regs g t f).1.blocks ∧ (RegAlloc.run regs g t f).1.frame = f.frame := by
  unfold RegAlloc.run
  split
  · exact ⟨.refl _, rfl⟩
  · split
    · exact ⟨.refl _, rfl⟩
    · dsimp only
      rw [RegAlloc.recordSafepointsFold]
      obtain ⟨code, -, -, frame⟩ := RegAlloc.recordedSame _ _ _
      exact ⟨.ofBare code.blocks, frame⟩

theorem Reformed.entry {f g : Func} (r : Reformed f g) : EntryKept f.blocks g.blocks := .ofBare r.sameCode.blocks

end Passes

namespace LoopInvariant

theorem retargetFollows (old new : String) (a : Block) : Follows a (retarget old new a) := by
  unfold retarget
  split
  · rename_i t ends
    obtain ⟨last, ends⟩ := Option.filter_eq_some_iff.mp ends
    exact ⟨rfl, fun _ => concludesAppend.mpr ends, fun concludes opens => (opensDropLast concludes opens).append _⟩
  · exact .refl a

theorem splitInstsReshapes (l : Loop) (preheader : Nat) (defs : DefBlocks) (insts : List Inst) :
    Reshapes insts (splitInsts l preheader defs insts).kept := by
  induction insts generalizing defs with
  | nil => exact .nil
  | cons i rest ih =>
    unfold splitInsts
    split
    · rename_i invariant
      simp only [isInvariant, Bool.and_eq_true] at invariant
      exact .drop (plainOfPure invariant.1.2) (ih _)
    · exact .keep rfl (fun absent => by rw [absent]; rfl) (ih _)

theorem keptFollows (l : Loop) (preheader : Nat) (defs : DefBlocks) (a : Block) :
    Follows a { a with insts := (splitInsts l preheader defs a.insts).kept } := by
  refine .ofReshaped ⟨rfl, splitInstsReshapes ..⟩ fun opens => ?_
  obtain ⟨p, rest, same, starts⟩ := opens.first
  dsimp only
  rw [same, splitInsts, if_neg (by simp [isInvariant, starts.impure])]
  exact opensCons.mpr starts

theorem broughtFollows (moved : List Inst) (a : Block) :
    Follows a { a with insts := insertBeforeLast moved a.insts } := by
  refine ⟨rfl, fun ends => ?_, fun ends opens => ?_⟩
  · obtain ⟨t, last, ends⟩ := ends
    rw [insertBeforeLast, last]
    exact concludesAppend.mpr ends
  · rw [insertBeforeLast, List.append_assoc]
    exact (opensDropLast ends opens).append _

theorem hoistBlockEntry (l : Loop) (preheader : Nat) (state : Func × DefBlocks) (b : Nat) :
    EntryKept state.1.blocks (hoistBlock l preheader state b).1.blocks ∧
      (hoistBlock l preheader state b).1.frame = state.1.frame := by
  refine ⟨.trans (.modify fun a located => ?_) (.modify fun a _ => broughtFollows _ a), rfl⟩
  rw [Func.blockAt located]
  exact keptFollows l preheader state.2 a

theorem hoistAllEntry (g : FlowGraph) (loops : List Loop) (f : Func) :
    EntryKept f.blocks (hoistAll g loops f).blocks ∧ (hoistAll g loops f).frame = f.frame := by
  let keeps (state : Func × DefBlocks) := EntryKept f.blocks state.1.blocks ∧ state.1.frame = f.frame
  have block (l : Loop) (p : Nat) (state : Func × DefBlocks) (kept : keeps state) (b : Nat) :
      keeps (hoistBlock l p state b) := by
    obtain ⟨blocks, frame⟩ := hoistBlockEntry l p state b
    exact ⟨kept.1.trans blocks, frame.trans kept.2⟩
  have rounds (l : Loop) (p rounds : Nat) (state : Func × DefBlocks) (kept : keeps state) :
      keeps (hoistRounds l p rounds state) := by
    induction rounds generalizing state with
    | zero => exact kept
    | succ rounds ih =>
      have next := foldKeeps keeps l.blocks (fun _ kept b _ => block l p _ kept b) kept
      unfold hoistRounds
      dsimp only
      split
      · exact ih _ next
      · exact next
  refine foldKeeps keeps (deepestFirst loops) (fun state kept l _ => ?_) ⟨.refl _, rfl⟩
  unfold hoistLoop
  split
  · exact rounds l _ _ _ kept
  · exact kept

theorem redirectedEntry (old new : String) (sources : List String) (f : Func) :
    let g := sources.foldl (fun f source =>
      match f.findBlock? source with
      | some b => f.modifyBlock b (retarget old new)
      | none => f) f
    EntryKept f.blocks g.blocks ∧ g.frame = f.frame := by
  let keeps (g : Func) := EntryKept f.blocks g.blocks ∧ g.frame = f.frame
  refine foldKeeps keeps sources (fun g kept source _ => ?_) ⟨.refl f.blocks, rfl⟩
  split
  · exact ⟨kept.1.trans (.modify fun a _ => retargetFollows old new a), kept.2⟩
  · exact kept

theorem insertPreheaderEntry (encode : Func → Inst → Option Encoding) {f : Func} {e : Entry}
    (inner : ∀ entry ∈ f.blocks.head?, entry.label ≠ e.header) :
    EntryKept f.blocks (insertPreheader encode f e).1.blocks ∧ (insertPreheader encode f e).1.frame = f.frame := by
  unfold insertPreheader
  split
  · exact ⟨.refl _, rfl⟩
  · rename_i header found
    dsimp only
    split
    · exact ⟨.refl _, rfl⟩
    · obtain ⟨bb, located, named⟩ := Func.findBlockSound found
      obtain ⟨k, rfl⟩ : ∃ k, header = k + 1 := by
        refine Nat.exists_eq_succ_of_ne_zero fun zero => inner bb ?_ named
        rw [List.head?_eq_getElem?, ← zero, located]
        rfl
      have turned := redirectedEntry e.header (f.newLabel (e.header ++ ".preheader")) e.sources
        (f.newParams ((f.block (k + 1)).params.map Param.ty)).2
      refine ⟨turned.1.trans (.insertIdx (fun a first same => ?_) k), turned.2⟩
      obtain ⟨entry, old, label⟩ := turned.1.first first
      refine freshLabelUnused f.labels (e.header ++ ".preheader") ?_
      rw [← show a.label = freshLabel f.labels (e.header ++ ".preheader") from same, label]
      exact List.mem_map_of_mem (List.mem_of_mem_head? old)

theorem insertPreheadersEntry (encode : Func → Inst → Option Encoding) (entries : List Entry) {f : Func}
    (inner : ∀ e ∈ entries, ∀ entry ∈ f.blocks.head?, entry.label ≠ e.header) :
    EntryKept f.blocks (insertPreheaders encode f entries).1.blocks ∧
      (insertPreheaders encode f entries).1.frame = f.frame := by
  induction entries generalizing f with
  | nil => exact ⟨.refl _, rfl⟩
  | cons e rest ih =>
    obtain ⟨here, later⟩ := List.forall_mem_cons.mp inner
    obtain ⟨blocks, frame⟩ := insertPreheaderEntry encode here
    obtain ⟨blocks', frame'⟩ := ih (f := (insertPreheader encode f e).1) fun e' listed b first => by
      obtain ⟨entry, old, label⟩ := blocks.first first
      exact label ▸ later e' listed entry old
    exact ⟨blocks.trans blocks', frame'.trans frame⟩

end LoopInvariant

open LoopInvariant in
theorem hoistInvariantsEntry (encode : Func → Inst → Option Encoding) {g : FlowGraph} (loops : LoopForest) {f : Func}
    (ok : EntryFramed f) (inside : g.preds.length ≤ f.blocks.length) :
    EntryFramed (hoistInvariants encode g loops f).func := by
  have inner (e : Entry) (listed : e ∈ loops.loops.filterMap (entryOf? f g)) (entry : Block)
      (first : entry ∈ f.blocks.head?) : entry.label ≠ e.header := by
    obtain ⟨l, -, made⟩ := List.mem_filterMap.mp listed
    unfold entryOf? at made
    dsimp only at made
    split at made
    · cases made
    · rename_i needs
      cases made
      simp only [Bool.or_eq_true, not_or, beq_iff_eq, List.isEmpty_iff] at needs
      obtain ⟨⟨other, -⟩, entered⟩ := needs
      have below : l.header < g.preds.length := by
        by_contra outside
        refine entered (List.filter_eq_nil_iff.mpr fun p listed => ?_)
        rw [FlowGraph.predecessors, List.getD_eq_getElem?_getD,
          List.getElem?_eq_none (Nat.le_of_not_lt outside)] at listed
        exact absurd listed List.not_mem_nil
      obtain ⟨rest, blocks⟩ := List.head?_eq_some_iff.mp first
      obtain ⟨k, header⟩ := Nat.exists_eq_succ_of_ne_zero other
      have there : k < rest.length := by
        have count := congrArg List.length blocks
        rw [List.length_cons] at count
        omega
      obtain ⟨-, -, alone⟩ := ok entry rest blocks
      rw [Func.block, header, blocks, List.getD_cons_succ]
      intro same
      refine alone (same ▸ List.mem_map_of_mem ?_)
      rw [List.getD_eq_getElem?_getD, List.getElem?_eq_getElem there]
      exact List.getElem_mem there
  obtain ⟨blocks, frame⟩ := insertPreheadersEntry encode _ inner
  unfold hoistInvariants
  dsimp only
  split
  · obtain ⟨blocks', frame'⟩ := hoistAllEntry _ _ (insertPreheaders encode f _).1.noteLayoutChange
    exact ok.kept (blocks.trans blocks') (frame'.trans frame)
  · obtain ⟨blocks', frame'⟩ := hoistAllEntry _ _ (insertPreheaders encode f _).1
    exact ok.kept (blocks.trans blocks') (frame'.trans frame)

namespace X64
open Legalize

theorem liftInstsOpens (next : Nat) (insts : List Inst) (opens : Opens insts) : Opens (liftInsts next insts).1 := by
  obtain ⟨p, rest, rfl, op, uses⟩ := opens.first
  obtain ⟨operands, lists⟩ := List.append_eq_nil_iff.mp uses
  have absent (lists : List (List Value)) (empty : lists.flatten = []) (next : Nat) :
      liftFloatLists p.pos next lists = ([], lists, next) := by
    induction lists with
    | nil => rfl
    | cons args more ih =>
      rw [List.flatten_cons, List.append_eq_nil_iff] at empty
      obtain ⟨rfl, empty⟩ := empty
      rw [liftFloatLists, liftFloats]
      dsimp only
      rw [ih empty]
      rfl
  have lifted : liftInst next p = ([p], next) := by
    unfold liftInst
    split
    · rfl
    · rw [operands, liftFloats]
      dsimp only
      rw [absent _ lists]
      dsimp only
      rw [← operands]
      rfl
  rw [liftInsts, lifted]
  exact opensCons.mpr ⟨op, uses⟩

def Sprouts (used : List String) (a : Block) (blocks : List Block) (later : List String) : Prop :=
  (∃ b new, blocks = b :: new ∧ Follows a b ∧ ∀ c ∈ new, c.label ∉ used) ∧ used ⊆ later

inductive Grown : List String → List Block → List Block → Prop where
  | nil (used : List String) : Grown used [] []
  | cons {used later : List String} {a : Block} {as now bs : List Block} : Sprouts used a now later →
      Grown later as bs → Grown used (a :: as) (now ++ bs)

theorem Grown.names {used : List String} {as bs : List Block} (grown : Grown used as bs) {name : String}
    (taken : name ∈ used) (named : name ∈ bs.map Block.label) : name ∈ as.map Block.label := by
  induction grown with
  | nil => exact named
  | @cons used later a as now bs sprouts _ ih =>
    obtain ⟨⟨b, new, rfl, follows, fresh⟩, more⟩ := sprouts
    rw [List.map_append, List.mem_append, List.map_cons, List.mem_cons, follows.label] at named
    rw [List.map_cons, List.mem_cons]
    rcases named with (first | new) | rest
    · exact .inl first
    · obtain ⟨c, inside, rfl⟩ := List.mem_map.mp new
      exact absurd taken (fresh c inside)
    · exact .inr (ih (more taken) rest)

theorem Grown.entry {used : List String} {as bs : List Block} (grown : Grown used as bs)
    (taken : as.map Block.label ⊆ used) : EntryKept as bs := by
  cases grown with
  | nil => exact .nil
  | @cons _ later a as now bs sprouts rest =>
    obtain ⟨⟨b, new, rfl, follows, fresh⟩, more⟩ := sprouts
    have own : a.label ∈ used := taken List.mem_cons_self
    refine .cons follows fun named => ?_
    rw [List.append_eq, List.map_append, List.mem_append] at named
    rcases named with new | later
    · obtain ⟨c, inside, same⟩ := List.mem_map.mp new
      exact absurd (same ▸ own) (fresh c inside)
    · exact rest.names (more own) later

theorem materializeFloatsEntry (f : Func) : EntryKept f.blocks (materializeFloats f).blocks := by
  have blocks (next : Nat) (blocks : List Block) : List.Forall₂ Follows blocks (liftBlocks next blocks).1 := by
    induction blocks generalizing next with
    | nil => exact .nil
    | cons bb rest ih => exact .cons (.ofReshaped ⟨rfl, liftInstsReshapes _ _⟩ (liftInstsOpens _ _)) (ih _)
  exact .ofFollows (blocks _ _)

theorem splitAtSelectsSprouts (used : List String) (current : Block) (insts : List Inst) :
    Sprouts used { current with insts := current.insts ++ insts } (splitAtSelects used current insts).1
      (splitAtSelects used current insts).2 := by
  induction insts generalizing used current with
  | nil =>
    rw [List.append_nil]
    exact ⟨⟨current, [], rfl, .refl current, List.forall_mem_nil _⟩, List.Subset.refl used⟩
  | cons i rest ih =>
    unfold splitAtSelects
    split
    · rename_i select
      have fresh := freshLabelUnused
      dsimp only
      generalize joined : freshLabel used (current.label ++ ".join") = join
      generalize elsed : freshLabel (used ++ [join]) (current.label ++ ".else") = onFalse
      generalize thened : freshLabel (used ++ [join] ++ [onFalse]) (current.label ++ ".then") = onTrue
      obtain ⟨⟨b, new, same, follows, others⟩, more⟩ := ih (used ++ [join] ++ [onFalse] ++ [onTrue])
        ⟨join, i.result.toList.map fun id => ⟨id, i.ty⟩, []⟩
      have grows : used ⊆ used ++ [join] ++ [onFalse] ++ [onTrue] := fun l inside => by simp [inside]
      have grown := List.Subset.trans grows more
      refine ⟨⟨_, _, rfl, ⟨rfl, fun _ => concludesAppend.mpr rfl, fun _ opens => ?_⟩, ?_⟩, grown⟩
      · cases front : current.insts with
        | nil =>
          rw [front] at opens
          have op := (opensCons.mp opens).1
          rw [isFloatSelect, op] at select
          cases select
        | cons p body =>
          rw [front] at opens
          exact opensCons.mpr (opensCons.mp opens)
      · rw [same]
        refine List.forall_mem_cons.mpr ⟨?_, List.forall_mem_cons.mpr ⟨?_, List.forall_mem_cons.mpr ⟨?_, ?_⟩⟩⟩
        · exact fun inside => fresh _ _ (thened ▸ List.mem_append_left _ (List.mem_append_left _ inside))
        · exact fun inside => fresh _ _ (elsed ▸ List.mem_append_left _ inside)
        · rw [follows.label]
          exact joined ▸ fresh _ _
        · exact fun c inside taken => others c inside (grows taken)
    · have later := ih used { current with insts := current.insts ++ [i] }
      rwa [List.append_assoc] at later

theorem expandFloatSelectsEntry (f : Func) : EntryKept f.blocks (expandFloatSelects f).blocks := by
  have grown (used : List String) (blocks : List Block) : Grown used blocks (expandSelectsFrom used blocks) := by
    induction blocks generalizing used with
    | nil => exact .nil used
    | cons bb rest ih => exact .cons (splitAtSelectsSprouts used { bb with insts := [] } bb.insts) (ih _)
  exact (grown f.labels f.blocks).entry (List.Subset.refl _)

theorem splitEdgesFresh (used : List String) (stem : String) (pos : SourcePos) (targets : List String)
    (args : List (List Value)) :
    (∀ b ∈ (splitEdges used stem pos targets args).blocks, b.label ∉ used) ∧
      used ⊆ (splitEdges used stem pos targets args).used := by
  induction targets generalizing args with
  | nil => exact ⟨List.forall_mem_nil _, List.Subset.refl used⟩
  | cons target rest ih =>
    cases args with
    | nil => exact ⟨List.forall_mem_nil _, List.Subset.refl used⟩
    | cons arg more =>
      obtain ⟨fresh, grows⟩ := ih more
      unfold splitEdges
      dsimp only
      split
      · exact ⟨fresh, grows⟩
      · exact ⟨List.forall_mem_cons.mpr ⟨fun taken => freshLabelUnused _ _ (grows taken), fresh⟩,
          fun l inside => List.mem_append_left _ (grows inside)⟩

theorem splitBlockEdgesSprouts (used : List String) (bb : Block) :
    Sprouts used bb (splitBlockEdges used bb).1 (splitBlockEdges used bb).2 := by
  have itself : Sprouts used bb [bb] used :=
    ⟨⟨bb, [], rfl, .refl bb, List.forall_mem_nil _⟩, List.Subset.refl used⟩
  unfold splitBlockEdges
  split
  · rename_i branch last
    split
    · rename_i conditional
      obtain ⟨fresh, grows⟩ := splitEdgesFresh used bb.label branch.pos branch.targets branch.targetArgs
      refine ⟨⟨_, _, rfl, ⟨rfl, fun _ => concludesAppend.mpr ?_, fun ends opens => ?_⟩, fresh⟩, grows⟩
      · simp only [isConditional, Bool.or_eq_true, beq_iff_eq] at conditional
        rcases conditional with op | op <;> (rw [Inst.isTerminator, op]; rfl)
      · exact (opensDropLast ends opens).append _
    · exact itself
  · exact itself

theorem splitArgumentEdgesEntry (f : Func) : EntryKept f.blocks (splitArgumentEdges f).blocks := by
  have grown (used : List String) (blocks : List Block) : Grown used blocks (splitEdgesFrom used blocks) := by
    induction blocks generalizing used with
    | nil => exact .nil used
    | cons bb rest ih => exact .cons (splitBlockEdgesSprouts used bb) (ih _)
  exact (grown f.labels f.blocks).entry (List.Subset.refl _)

theorem encodeBlocksBare (f : Func) (blocks : List Block) :
    (encodeBlocks f blocks).1.map Block.bare = blocks.map Block.bare := by
  have insts (insts : List Inst) : (encodeInsts f insts).1.map Inst.bare = insts.map Inst.bare := by
    induction insts with
    | nil => rfl
    | cons i rest ih =>
      unfold encodeInsts
      split
      · rfl
      · exact List.cons_eq_cons.mpr ⟨rfl, ih⟩
  induction blocks with
  | nil => rfl
  | cons bb rest ih =>
    have here : Block.bare { bb with insts := (encodeInsts f bb.insts).1 } = bb.bare := by
      simp only [Block.bare, Block.mapInsts, insts]
    simp only [encodeBlocks]
    split
    · exact List.cons_eq_cons.mpr ⟨here, rfl⟩
    · exact List.cons_eq_cons.mpr ⟨here, ih⟩

theorem legalizeEntry (f : Func) : EntryKept f.blocks (legalize f).1.blocks ∧ (legalize f).1.frame = f.frame := by
  unfold legalize
  cases checkSignature f.signature with
  | error e => exact ⟨.refl _, rfl⟩
  | ok =>
    dsimp only
    have lowered := (materializeFloatsEntry f).trans ((expandFloatSelectsEntry _).trans (splitArgumentEdgesEntry _))
    have frame : (splitArgumentEdges (expandFloatSelects (materializeFloats f))).frame = f.frame := rfl
    generalize splitArgumentEdges (expandFloatSelects (materializeFloats f)) = g at *
    have interned : SameCode g (internConstants g) :=
      SameCore.toSameCode ⟨internBlocksCore g.constants g.blocks, rfl, rfl⟩
    have encoded := (lowered.trans (.ofBare interned.blocks)).trans
      (.ofBare (encodeBlocksBare (internConstants g) (internConstants g).blocks))
    split
    · exact ⟨encoded, frame⟩
    · dsimp only
      split <;> exact ⟨encoded, frame⟩

end X64

end SsaCodegen
