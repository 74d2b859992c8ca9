import SsaCodegen.Proofs.Ir.Reshape
/-! A block on the way into a loop. Paths to old labels may go through the new one, but between old labels it
changes no dominance and makes no loop. -/
namespace SsaCodegen

namespace Func

def LeadsTo (f : Func) (a b : String) : Prop := ∃ bb ∈ f.blocks, bb.label = a ∧ b ∈ bb.targets

structure Dominates (f : Func) (a b : String) : Prop where
  reached : Reaches f b
  passes : a ≠ b → ¬ Flows f (fun bb => bb.label ≠ a) b

def Enters (f : Func) (a header : String) : Prop := f.LeadsTo a header ∧ ¬ f.Dominates header a

def IsHeader (f : Func) (header : String) : Prop := ∃ a, f.LeadsTo a header ∧ f.Dominates header a

def HasPreheader (f : Func) (header : String) : Prop :=
  ∃ p, (∀ a, f.Enters a header ↔ a = p) ∧ ∀ b, f.LeadsTo p b ↔ b = header

theorem LeadsTo.labels {f : Func} (ok : WellFormed f) {a b : String} (leads : f.LeadsTo a b) :
    a ∈ f.labels ∧ b ∈ f.labels := by
  obtain ⟨bb, inside, rfl, target⟩ := leads
  exact ⟨List.mem_map_of_mem inside, ok.targetUsed inside target⟩

end Func

theorem Func.blockNamed {f : Func} {label : String} (named : label ∈ f.labels) :
    ∃ (i : Nat) (bb : Block), f.blocks[i]? = some bb ∧ bb.label = label := by
  obtain ⟨bb, inside, same⟩ := List.mem_map.mp named
  obtain ⟨i, there⟩ := List.getElem?_of_mem inside
  exact ⟨i, bb, there, same⟩

namespace FlowGraph
open Search

theorem successorsOnce (f : Func) (b : Nat) : ((ofFunc f).successors b).Nodup := by
  simp only [successors, ofFunc, List.getD_eq_getElem?_getD, List.getElem?_map]
  cases f.blocks[b]? with
  | none => exact List.nodup_nil
  | some bb => exact nodupTargetsOf f bb

variable {f : Func} (ok : WellFormed f) {i j : Nat} {a b : Block} (left : f.blocks[i]? = some a)
  (right : f.blocks[j]? = some b)
include ok left right

theorem leadsToIff : f.LeadsTo a.label b.label ↔ j ∈ (ofFunc f).successors i := by
  constructor
  · rintro ⟨bb, inside, same, target⟩
    cases Func.sameOfLabel ok.labels inside (List.mem_of_getElem? left) same
    exact memSuccessors.mpr ⟨_, left, memTargetsOf.mpr ⟨_, target, Func.findBlockAt ok.labels right⟩⟩
  · intro edge
    obtain ⟨bb, located, edge⟩ := memSuccessors.mp edge
    cases Option.some.inj (left.symm.trans located)
    obtain ⟨label, target, found⟩ := memTargetsOf.mp edge
    obtain ⟨c, there, rfl⟩ := Func.findBlockSound found
    cases Option.some.inj (right.symm.trans there)
    exact ⟨a, List.mem_of_getElem? left, rfl, target⟩

theorem passesIff : Passes (ofFunc f).successors 0 i j ↔
    (a.label ≠ b.label → ¬ Flows f (fun bb => bb.label ≠ a.label) b.label) := by
  have nonempty : f.blocks ≠ [] := List.ne_nil_of_mem (List.mem_of_getElem? left)
  constructor
  · intro passes other flows
    refine passes (reachedOfFlows ok.labels (fun k bb located pass => ?_) flows right rfl ?_)
    · simp only [List.mem_singleton]
      rintro rfl
      exact pass (congrArg Block.label (Option.some.inj (located.symm.trans left)))
    · simp only [List.mem_singleton]
      rintro rfl
      exact other (congrArg Block.label (Option.some.inj (left.symm.trans right)))
  · intro avoids reached
    have same {k : Nat} {bb : Block} (located : f.blocks[k]? = some bb) (named : bb.label = a.label) : k ∈ [i] :=
      List.mem_singleton.mpr (Func.indexUnique ok.labels located left named)
    have pass : ∀ (k : Nat) bb, f.blocks[k]? = some bb → k ∉ [i] → bb.label ≠ a.label :=
      fun k bb located free => mt (same located) free
    obtain ⟨bb, there, flows⟩ := flowsOfReached nonempty pass reached
    cases Option.some.inj (right.symm.trans there)
    exact avoids (fun named => reached.free (same right named.symm)) flows

theorem dominatesLabelIff : f.Dominates a.label b.label ↔ Reached (ofFunc f).successors [0] [] j ∧
    Passes (ofFunc f).successors 0 i j := by
  rw [reachesIff ok.labels right, passesIff ok left right]
  exact ⟨fun rules => ⟨rules.reached, rules.passes⟩, fun both => ⟨both.1, both.2⟩⟩

end FlowGraph

theorem Flows.to {f : Func} {p : String → Prop} {a b : String} (flows : Flows f (fun bb => p bb.label) a)
    (pass : p a) (leads : f.LeadsTo a b) : Flows f (fun bb => p bb.label) b := by
  obtain ⟨bb, inside, rfl, target⟩ := leads
  exact .edge inside flows pass target

theorem Flows.named {f : Func} (ok : WellFormed f) {lets : Block → Prop} {a : String} (flows : Flows f lets a) :
    a ∈ f.labels := by
  cases flows with
  | entry first => exact List.mem_map_of_mem (first ▸ List.mem_cons_self)
  | edge inside _ _ target => exact ok.targetUsed inside target

theorem Flows.opens {f g : Func} (same : g.labels.head? = f.labels.head?) {entry : Block} {rest : List Block}
    (first : f.blocks = entry :: rest) (lets : Block → Prop) : Flows g lets entry.label := by
  rw [Func.labels, Func.labels, first, List.map_cons, List.head?_cons, List.head?_map] at same
  obtain ⟨a, head, label⟩ := Option.map_eq_some_iff.mp same
  obtain ⟨others, blocks⟩ := List.head?_eq_some_iff.mp head
  exact label ▸ .entry blocks

structure Interposed (f g : Func) (way home : String) (sources : String → Prop) : Prop where
  opens : g.labels.head? = f.labels.head?
  fresh : way ∉ f.labels
  known : home ∈ f.labels
  leads : ∀ a b, g.LeadsTo a b ↔ a = way ∧ b = home ∨ f.LeadsTo a b ∧ ¬ (b = home ∧ sources a) ∨
    b = way ∧ f.LeadsTo a home ∧ sources a

namespace Interposed
variable {f g : Func} {way home : String} {sources : String → Prop} (ok : WellFormed f)
  (x : Interposed f g way home sources)
include x

include ok in
theorem apart {a b : String} (leads : f.LeadsTo a b) : a ≠ way ∧ b ≠ way :=
  ⟨fun same => x.fresh (same ▸ (leads.labels ok).1), fun same => x.fresh (same ▸ (leads.labels ok).2)⟩

section Paths
variable {p : String → Prop} (pass : p way)
include pass

theorem on {b : String} (flows : Flows f (fun bb => p bb.label) b) :
    Flows g (fun bb => p bb.label) b := by
  induction flows with
  | entry first => exact .opens x.opens first _
  | @edge bb b inside before through target ih =>
    by_cases sent : b = home ∧ sources bb.label
    · obtain ⟨rfl, source⟩ := sent
      have edgeTo : g.LeadsTo bb.label way := (x.leads _ _).mpr (.inr (.inr ⟨rfl, ⟨bb, inside, rfl, target⟩, source⟩))
      exact (ih.to through edgeTo).to pass ((x.leads _ _).mpr (.inl ⟨rfl, rfl⟩))
    · exact ih.to through ((x.leads _ _).mpr (.inr (.inl ⟨⟨bb, inside, rfl, target⟩, sent⟩)))

include ok in
theorem back {b : String} (flows : Flows g (fun bb => p bb.label) b) :
    (b ≠ way → Flows f (fun bb => p bb.label) b) ∧
      (b = way → ∃ a, sources a ∧ f.LeadsTo a home ∧ p a ∧ Flows f (fun bb => p bb.label) a) := by
  induction flows with
  | entry first =>
    have opens := Flows.opens x.opens.symm first fun bb => p bb.label
    exact ⟨fun _ => opens, fun same => absurd (same ▸ opens.named ok) x.fresh⟩
  | @edge bb b inside before through target ih =>
    rcases (x.leads bb.label b).mp ⟨bb, inside, rfl, target⟩ with ⟨same, rfl⟩ | ⟨leads, -⟩ | ⟨rfl, leads, source⟩
    · obtain ⟨a, -, leads, through, flows⟩ := ih.2 same
      exact ⟨fun _ => flows.to through leads, fun same => absurd (same ▸ x.known) x.fresh⟩
    · have other := x.apart ok leads
      exact ⟨fun _ => (ih.1 other.1).to through leads, fun same => absurd same other.2⟩
    · have flows := ih.1 (x.apart ok leads).1
      exact ⟨fun no => absurd rfl no, fun _ => ⟨_, source, leads, through, flows⟩⟩

end Paths

include ok in
theorem dominates {a b : String} (apart : a ≠ way) (old : b ≠ way) : g.Dominates a b ↔ f.Dominates a b := by
  constructor
  · rintro ⟨reached, passes⟩
    exact ⟨(x.back ok (p := fun _ => True) trivial reached).1 old,
      fun other flows => passes other (x.on (p := (· ≠ a)) (Ne.symm apart) flows)⟩
  · rintro ⟨reached, passes⟩
    exact ⟨x.on (p := fun _ => True) trivial reached,
      fun other flows => passes other ((x.back ok (p := (· ≠ a)) (Ne.symm apart) flows).1 old)⟩

end Interposed

section Preheader
variable {f g : Func} {way home : String} (ok : WellFormed f) (x : Interposed f g way home (f.Enters · home))
include ok x

theorem Interposed.wayFree : ¬ g.Dominates home way := by
  rintro ⟨reached, passes⟩
  have apart : home ≠ way := fun same => x.fresh (same ▸ x.known)
  obtain ⟨a, enters, leads, -, flows⟩ := (x.back ok (p := fun _ => True) trivial reached).2 rfl
  refine enters.2 ⟨flows, fun other around => passes apart ?_⟩
  have on := x.on (p := (· ≠ home)) (Ne.symm apart) around
  exact on.to (p := (· ≠ home)) (Ne.symm other) ((x.leads _ _).mpr (.inr (.inr ⟨rfl, leads, enters⟩)))

theorem Interposed.aroundHome {b : String} (flows : Flows f (fun bb => bb.label ≠ home) b) (other : b ≠ home) :
    Flows g (fun bb => bb.label ≠ way) b := by
  induction flows with
  | entry first => exact .opens x.opens first _
  | @edge bb b inside before through target ih =>
    have leads : f.LeadsTo bb.label b := ⟨bb, inside, rfl, target⟩
    exact (ih through).to (p := (· ≠ way)) (x.apart ok leads).1
      ((x.leads _ _).mpr (.inr (.inl ⟨leads, fun sent => other sent.1⟩)))

theorem Interposed.noHeader : ¬ g.IsHeader way := by
  rintro ⟨a, leads, reached, passes⟩
  rcases (x.leads a way).mp leads with ⟨-, same⟩ | ⟨old, -⟩ | ⟨-, old, enters⟩
  · exact x.fresh (same ▸ x.known)
  · exact (x.apart ok old).2 rfl
  · have other := (x.apart ok old).1
    have reachedOld := (x.back ok (p := fun _ => True) trivial reached).1 other
    by_cases same : home = a
    · exact enters.2 ⟨reachedOld, fun no => absurd same no⟩
    · refine enters.2 ⟨reachedOld, fun _ around => passes (Ne.symm other) ?_⟩
      exact x.aroundHome ok around (Ne.symm same)

theorem Interposed.entersHome (a : String) : g.Enters a home ↔ a = way := by
  constructor
  · rintro ⟨leads, free⟩
    rcases (x.leads a home).mp leads with ⟨same, -⟩ | ⟨old, stays⟩ | ⟨same, -⟩
    · exact same
    · refine absurd ((x.dominates ok (fun same => x.fresh (same ▸ x.known)) (x.apart ok old).1).mpr ?_) free
      exact Classical.byContradiction fun free => stays ⟨rfl, old, free⟩
    · exact absurd (same ▸ x.known) x.fresh
  · rintro rfl
    exact ⟨(x.leads _ _).mpr (.inl ⟨rfl, rfl⟩), x.wayFree ok⟩

theorem Interposed.entersOther {c : String} (other : c ≠ home) (old : c ≠ way) (a : String) :
    g.Enters a c ↔ f.Enters a c := by
  have leads : g.LeadsTo a c ↔ f.LeadsTo a c := by
    rw [x.leads]
    simp [other, old]
  unfold Func.Enters
  rw [leads]
  exact and_congr_right fun leads => not_congr (x.dominates ok old (x.apart ok leads).1)

theorem Interposed.preheaders {c : String} (header : g.IsHeader c) :
    f.IsHeader c ∧ (c = home ∨ f.HasPreheader c → g.HasPreheader c) := by
  have away : home ≠ way := fun same => x.fresh (same ▸ x.known)
  obtain ⟨a, leads, rules⟩ := header
  have old : c ≠ way := fun same => x.noHeader ok (same ▸ ⟨a, leads, rules⟩)
  have was : f.LeadsTo a c := by
    rcases (x.leads a c).mp leads with ⟨rfl, rfl⟩ | ⟨was, -⟩ | ⟨same, -⟩
    · exact absurd rules (x.wayFree ok)
    · exact was
    · exact absurd same old
  refine ⟨⟨a, was, (x.dominates ok old (x.apart ok was).1).mp rules⟩, fun ready => ?_⟩
  by_cases same : c = home
  · subst same
    refine ⟨way, x.entersHome ok, fun b => ?_⟩
    rw [x.leads]
    constructor
    · rintro (⟨-, same⟩ | ⟨old, -⟩ | ⟨-, old, -⟩)
      · exact same
      · exact absurd rfl (x.apart ok old).1
      · exact absurd rfl (x.apart ok old).1
    · rintro rfl
      exact .inl ⟨rfl, rfl⟩
  · obtain ⟨p, enters, only⟩ := ready.resolve_left same
    refine ⟨p, fun a => (x.entersOther ok same old a).trans (enters a), fun b => ?_⟩
    have leads := (only c).mpr rfl
    have aside : ¬ f.LeadsTo p home := fun into => same ((only home).mp into).symm
    have outside := (x.apart ok leads).1
    rw [x.leads, ← only b]
    constructor
    · rintro (⟨same, -⟩ | ⟨old, -⟩ | ⟨-, into, -⟩)
      · exact absurd same outside
      · exact old
      · exact absurd into aside
    · exact fun old => .inr (.inl ⟨old, fun sent => aside (sent.1 ▸ old)⟩)

end Preheader

end SsaCodegen
