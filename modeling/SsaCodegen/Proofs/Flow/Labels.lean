import SsaCodegen.Proofs.Flow.Dominance
import SsaCodegen.Proofs.Ir.WellFormed
/-! Blocks by index and by label. With labels that are all different, a path through the
flow graph is a path along the labels that terminators name. -/
namespace SsaCodegen
open Search FlowGraph

variable {f : Func}

namespace Func

theorem findBlockSound {label : String} {i : Nat} (found : f.findBlock? label = some i) :
    ∃ bb, f.blocks[i]? = some bb ∧ bb.label = label := by
  obtain ⟨inside, same, -⟩ := List.findIdx?_eq_some_iff_getElem.mp found
  exact ⟨f.blocks[i], List.getElem?_eq_getElem inside, by simpa using same⟩

theorem labelAt {i : Nat} {bb : Block} (located : f.blocks[i]? = some bb) :
    f.labels[i]? = some bb.label := by
  simp [labels, located]

theorem indexUnique (labels : f.labels.Nodup) {i j : Nat} {a b : Block}
    (left : f.blocks[i]? = some a) (right : f.blocks[j]? = some b) (same : a.label = b.label) :
    i = j := by
  have inside : i < f.labels.length := (List.getElem?_eq_some_iff.mp (labelAt left)).1
  have entries : f.labels[i]? = f.labels[j]? := by rw [labelAt left, labelAt right, same]
  exact (List.getElem?_inj inside labels).mp entries

theorem findBlockAt (labels : f.labels.Nodup) {i : Nat} {bb : Block}
    (located : f.blocks[i]? = some bb) : f.findBlock? bb.label = some i := by
  have inside : i < f.blocks.length := (List.getElem?_eq_some_iff.mp located).1
  cases found : f.findBlock? bb.label with
  | none =>
    have absent := List.findIdx?_eq_none_iff.mp found bb (List.mem_of_getElem? located)
    simp at absent
  | some j =>
    obtain ⟨b, there, same⟩ := findBlockSound found
    rw [indexUnique labels there located same]

theorem blockAt {i : Nat} {bb : Block} (located : f.blocks[i]? = some bb) : f.block i = bb := by
  simp [block, located]

theorem memBlock {α : Type} (part : Block → List α) (nothing : part default = []) {k : Nat} {x : α}
    (listed : x ∈ part (f.block k)) : ∃ bb, f.blocks[k]? = some bb ∧ x ∈ part bb := by
  cases located : f.blocks[k]? with
  | none =>
    rw [block, List.getD_eq_getElem?_getD, located, Option.getD_none, nothing] at listed
    cases listed
  | some bb => exact ⟨bb, rfl, blockAt located ▸ listed⟩

theorem atOfMem {bb : Block} (inside : bb ∈ f.blocks) : ∃ i : Nat, f.blocks[i]? = some bb :=
  List.getElem?_of_mem inside

theorem sameOfLabel (labels : f.labels.Nodup) {a b : Block} (left : a ∈ f.blocks)
    (right : b ∈ f.blocks) (same : a.label = b.label) : a = b := by
  obtain ⟨i, left⟩ := atOfMem left
  obtain ⟨j, right⟩ := atOfMem right
  have index := indexUnique labels left right same
  subst index
  exact Option.some.inj (left.symm.trans right)

end Func

namespace FlowGraph

theorem memTargetsOf {bb : Block} {s : Nat} :
    s ∈ targetsOf f bb ↔ ∃ label ∈ bb.targets, f.findBlock? label = some s := by
  unfold Block.targets
  cases ends : bb.terminator? with
  | none => simp [targetsOf, ends]
  | some t => simp only [targetsOfIff ends]

theorem flowsOfReached {lets : Block → Prop} {barrier : List Nat} {i : Nat}
    (nonempty : f.blocks ≠ [])
    (pass : ∀ i bb, f.blocks[i]? = some bb → i ∉ barrier → lets bb)
    (reached : Reached (ofFunc f).successors [0] barrier i) :
    ∃ bb, f.blocks[i]? = some bb ∧ Flows f lets bb.label := by
  induction reached with
  | root found free =>
    obtain ⟨entry, rest, blocks⟩ := List.exists_cons_of_ne_nil nonempty
    cases List.mem_singleton.mp found
    exact ⟨entry, by simp [blocks], .entry blocks⟩
  | step before edge free ih =>
    obtain ⟨origin, located, flows⟩ := ih
    obtain ⟨bb, here, edge⟩ := memSuccessors.mp edge
    cases Option.some.inj (located.symm.trans here)
    obtain ⟨label, target, found⟩ := memTargetsOf.mp edge
    obtain ⟨next, there, rfl⟩ := Func.findBlockSound found
    exact ⟨next, there, .edge (List.mem_of_getElem? located) flows (pass _ _ located before.free) target⟩

theorem reachedOfFlows (labels : f.labels.Nodup) {lets : Block → Prop} {barrier : List Nat}
    (hold : ∀ i bb, f.blocks[i]? = some bb → lets bb → i ∉ barrier) {label : String}
    (flows : Flows f lets label) {i : Nat} {bb : Block} (located : f.blocks[i]? = some bb)
    (named : bb.label = label) (free : i ∉ barrier) :
    Reached (ofFunc f).successors [0] barrier i := by
  induction flows generalizing i bb with
  | entry first =>
    have zero := Func.indexUnique labels located (j := 0) (by simp [first]) named
    subst zero
    exact .root List.mem_cons_self free
  | edge inside before pass target ih =>
    obtain ⟨j, there⟩ := Func.atOfMem inside
    refine .step (ih there rfl (hold j _ there pass)) (memSuccessors.mpr ⟨_, there, ?_⟩) free
    exact memTargetsOf.mpr ⟨_, target, named ▸ Func.findBlockAt labels located⟩

theorem reachesIff (labels : f.labels.Nodup) {i : Nat} {bb : Block}
    (located : f.blocks[i]? = some bb) :
    Reached (ofFunc f).successors [0] [] i ↔ Reaches f bb.label := by
  constructor
  · intro reached
    have nonempty : f.blocks ≠ [] := List.ne_nil_of_mem (List.mem_of_getElem? located)
    obtain ⟨b, here, flows⟩ := flowsOfReached nonempty (fun _ _ _ _ => trivial) reached
    cases Option.some.inj (located.symm.trans here)
    exact flows
  · intro flows
    exact reachedOfFlows labels (fun _ _ _ _ => List.not_mem_nil) flows located rfl List.not_mem_nil

theorem memOrderIff (labels : f.labels.Nodup) {i : Nat} {bb : Block} (located : f.blocks[i]? = some bb) :
    i ∈ (DomTree.ofFunc f (ofFunc f)).order ↔ Reaches f bb.label := by
  have positive : 0 < f.blocks.length := List.length_pos_of_mem (List.mem_of_getElem? located)
  rw [DomTree.ofFunc, DomTree.memOrder (proper f positive), reachesIff labels located]

theorem missingIff (labels : f.labels.Nodup) {v a i : Nat} {bb : Block}
    (located : f.blocks[i]? = some bb) (other : i ≠ a)
    (only : ∀ j b, f.blocks[j]? = some b → (v ∈ b.definedIds ↔ j = a)) :
    Reached (ofFunc f).successors [0] [a] i ↔ Missing f v bb.label := by
  constructor
  · intro reached
    have nonempty : f.blocks ≠ [] := List.ne_nil_of_mem (List.mem_of_getElem? located)
    obtain ⟨b, here, flows⟩ := flowsOfReached nonempty
      (fun j b there free => mt (only j b there).mp (by simpa using free)) reached
    cases Option.some.inj (located.symm.trans here)
    exact flows
  · intro flows
    refine reachedOfFlows labels (fun j b there pass => ?_) flows located rfl (by simpa using other)
    simpa using mt (only j b there).mpr pass

theorem firstAtDefinition {lets : Block → Prop} {v : Nat} {bb : Block}
    (only : ∀ b ∈ f.blocks, v ∈ b.definedIds → b = bb) {label : String}
    (flows : Flows f lets label) : Flows f (fun b => lets b ∧ v ∉ b.definedIds) label ∨
      Flows f (fun b => lets b ∧ v ∉ b.definedIds) bb.label ∧ lets bb := by
  induction flows with
  | entry first => exact .inl (.entry first)
  | @edge b label inside before pass target ih =>
    rcases ih with missing | done
    · by_cases defines : v ∈ b.definedIds
      · cases only b inside defines
        exact .inr ⟨missing, pass⟩
      · exact .inl (.edge inside missing ⟨pass, defines⟩ target)
    · exact .inr done

theorem missingAtDefinition {v : Nat} {bb : Block}
    (only : ∀ b ∈ f.blocks, v ∈ b.definedIds → b = bb) {label : String}
    (reaches : Reaches f label) : Missing f v label ∨ Missing f v bb.label :=
  (firstAtDefinition only reaches).imp (fun flows => flows.mono fun _ pass => pass.2)
    fun flows => flows.1.mono fun _ pass => pass.2

theorem firstAtBlock {lets : Block → Prop} (bb : Block) {label : String}
    (flows : Flows f lets label) : Flows f (fun b => lets b ∧ b ≠ bb) label ∨
      Flows f (fun b => lets b ∧ b ≠ bb) bb.label ∧ lets bb := by
  induction flows with
  | entry first => exact .inl (.entry first)
  | @edge b label inside before pass target ih =>
    rcases ih with around | done
    · by_cases same : b = bb
      · subst same
        exact .inr ⟨around, pass⟩
      · exact .inl (.edge inside around ⟨pass, same⟩ target)
    · exact .inr done

theorem knownBelow (labels : f.labels.Nodup) {a b : Nat} {above below : Block}
    (upper : f.blocks[a]? = some above) (lower : f.blocks[b]? = some below)
    (parent : (DomTree.ofFunc f (ofFunc f)).idom b = some a) {v : Nat}
    (known : ¬ Missing f v above.label ∨ v ∈ above.definedIds) : ¬ Missing f v below.label := by
  intro missing
  have nonempty : 0 < f.blocks.length := Nat.lt_of_le_of_lt (Nat.zero_le _)
    (List.getElem?_eq_some_iff.mp upper).1
  obtain ⟨-, passes, other⟩ := DomTree.idomSound (proper f nonempty) parent
  rcases firstAtBlock above missing with around | ⟨arrives, pass⟩
  · refine passes (reachedOfFlows labels (fun i bb located free => ?_) around lower rfl
      (by simpa using Ne.symm other))
    intro same
    cases List.mem_singleton.mp same
    exact free.2 (Option.some.inj (located.symm.trans upper))
  · rcases known with found | defines
    · exact found (arrives.mono fun b both => both.1)
    · exact pass defines

end FlowGraph
end SsaCodegen
