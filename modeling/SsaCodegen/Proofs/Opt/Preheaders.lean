import SsaCodegen.Proofs.Flow.Forest
import SsaCodegen.Proofs.Flow.Interpose
import SsaCodegen.Proofs.Opt.LoopInvariant
/-! Every loop has a preheader once those are inserted that were missing. -/
namespace SsaCodegen
open Search
namespace LoopInvariant

section Insert
variable {f : Func} (clean : Clean f) {header : Nat} {home : Block} {label : String} {enc : Encoding}
  (located : f.blocks[header]? = some home) (later : 0 < header) (unused : label ∉ f.labels)

theorem retargetTargets {old new : String} {bb : Block} (ended : Ended bb.insts) :
    (retarget old new bb).targets = bb.targets.map fun l => if l = old then new else l := by
  obtain ⟨body, last, same, ends, -⟩ := ended
  have sent : (retarget old new bb).insts = body ++ [sentTo old new last] := by rw [retargetEnds same ends]
  rw [Ended.targets sent ends, Ended.targets same ends]
  rfl

theorem turnLabel (old new : String) (sources : List String) (bb : Block) :
    (turn old new sources bb).label = bb.label := congrArg Prod.fst (turnHead sources bb)

include located in
theorem memInserted {sources : List String} {b : Block} :
    b ∈ ((sentThrough f home label sources).insertBlock header (preheader f home label enc)).blocks ↔
      b = preheader f home label enc ∨ ∃ a ∈ f.blocks, b = turn home.label label sources a := by
  have below : header ≤ (f.blocks.map (turn home.label label sources)).length := by
    rw [List.length_map]
    exact Nat.le_of_lt (List.getElem?_eq_some_iff.mp located).1
  rw [sentThrough, Func.insertBlock, List.mem_insertIdx below]
  simp [eq_comm]

include clean in
theorem turnTargets {sources : List String} {a : Block} (inside : a ∈ f.blocks) {l : String} :
    l ∈ (turn home.label label sources a).targets ↔
      (l ∈ a.targets ∧ ¬ (l = home.label ∧ a.label ∈ sources)) ∨
        l = label ∧ home.label ∈ a.targets ∧ a.label ∈ sources := by
  unfold turn
  split
  · rename_i chosen
    rw [retargetTargets (clean.wellFormed.ended a inside), List.mem_map]
    constructor
    · rintro ⟨t, target, rfl⟩
      by_cases same : t = home.label
      · exact .inr ⟨if_pos same, same ▸ target, chosen⟩
      · rw [if_neg same]
        exact .inl ⟨target, fun sent => same sent.1⟩
    · rintro (⟨target, stays⟩ | ⟨rfl, target, -⟩)
      · exact ⟨l, target, if_neg fun same => stays ⟨same, chosen⟩⟩
      · exact ⟨_, target, if_pos rfl⟩
  · rename_i other
    simp [other]

include clean located later unused

variable (enc) in
theorem insertedInterposed {sources : List String} (exactly : ∀ a, a ∈ sources ↔ f.Enters a home.label) :
    Interposed f ((sentThrough f home label sources).insertBlock header (preheader f home label enc)) label
      home.label (f.Enters · home.label) where
  opens := by
    rw [Func.labels, Func.labels, List.head?_map, List.head?_map, List.head?_eq_getElem?, List.head?_eq_getElem?,
      Func.insertBlock, List.getElem?_insertIdx_of_lt later, sentThrough, List.getElem?_map, Option.map_map]
    exact congrArg (Option.map · _) (funext fun a => turnLabel _ _ _ a)
  fresh := unused
  known := List.mem_map_of_mem (List.mem_of_getElem? located)
  leads a b := by
    constructor
    · rintro ⟨bb, inside, rfl, target⟩
      rcases (memInserted located).mp inside with rfl | ⟨old, there, rfl⟩
      · exact .inl ⟨rfl, List.mem_singleton.mp target⟩
      · rw [turnLabel, ← exactly]
        rcases (turnTargets clean there).mp target with ⟨target, stays⟩ | ⟨same, target, chosen⟩
        · exact .inr (.inl ⟨⟨old, there, rfl, target⟩, stays⟩)
        · exact .inr (.inr ⟨same, ⟨old, there, rfl, target⟩, chosen⟩)
    · have onward {bb : Block} (there : bb ∈ f.blocks) (target : b ∈ (turn home.label label sources bb).targets) :
          Func.LeadsTo ((sentThrough f home label sources).insertBlock header (preheader f home label enc))
            bb.label b :=
        ⟨_, (memInserted located).mpr (.inr ⟨bb, there, rfl⟩), turnLabel .., target⟩
      rintro (⟨rfl, rfl⟩ | ⟨⟨bb, there, rfl, target⟩, stays⟩ | ⟨rfl, ⟨bb, there, rfl, target⟩, chosen⟩)
      · exact ⟨_, (memInserted located).mpr (.inl rfl), rfl, List.mem_singleton_self _⟩
      · exact onward there ((turnTargets clean there).mpr (.inl ⟨target, by rwa [exactly]⟩))
      · exact onward there ((turnTargets clean there).mpr (.inr ⟨rfl, target, (exactly _).mpr chosen⟩))

end Insert

structure Pending (f : Func) (entries : List Entry) : Prop where
  ready : ∀ c, f.IsHeader c → f.HasPreheader c ∨ ∃ e ∈ entries, e.header = c
  known : ∀ e ∈ entries, e.header ∈ f.labels
  inner : ∀ e ∈ entries, ∀ bb, f.blocks[0]? = some bb → bb.label ≠ e.header
  sources : ∀ e ∈ entries, ∀ a, a ∈ e.sources ↔ f.Enters a e.header
  apart : (entries.map Entry.header).Nodup

section Run
variable {encode : Func → Inst → Option Encoding}
  (jumps : ∀ f label (params : List Param),
    (encode f (jumpTo label (params.map fun p => .temp p.id) {})).isSome = true)
include jumps

theorem insertPreheaderPending {f : Func} (clean : Clean f) {e : Entry} {rest : List Entry}
    (pending : Pending f (e :: rest)) :
    ∃ g, insertPreheader encode f e = (g, true) ∧ Clean g ∧ Pending g rest := by
  have ok := clean.wellFormed
  have here : e ∈ e :: rest := List.mem_cons_self
  obtain ⟨home, inside, named⟩ := List.mem_map.mp (pending.known e here)
  obtain ⟨header, located⟩ := List.getElem?_of_mem inside
  have later : 0 < header := by
    rcases Nat.eq_zero_or_pos header with rfl | later
    · exact absurd named (pending.inner e here home located)
    · exact later
  obtain ⟨label, unused, G, same⟩ := insertPreheaderFound encode ok located named
  obtain ⟨enc, encoded⟩ := Option.isSome_iff_exists.mp (jumps G home.label
    (freshParams f.numValues (home.params.map Param.ty)))
  rw [encoded] at same
  have turned := sentThroughTurned f home label e.sources
  have x := insertedInterposed clean enc located later unused fun a => named ▸ pending.sources e here a
  refine ⟨_, same, preheaderClean clean located later unused turned, ?_⟩
  obtain ⟨absent, apart⟩ := List.nodup_cons.mp pending.apart
  have other (e' : Entry) (listed : e' ∈ rest) : e'.header ≠ home.label := fun same =>
    absent (List.mem_map.mpr ⟨e', listed, same.trans named⟩)
  refine ⟨fun c header => ?_, fun e' listed => ?_, fun e' listed bb first => ?_, fun e' listed a => ?_, apart⟩
  · obtain ⟨was, gets⟩ := x.preheaders ok header
    rcases pending.ready c was with ready | ⟨e', listed, rfl⟩
    · exact .inl (gets (.inr ready))
    · rcases List.mem_cons.mp listed with rfl | listed
      · exact .inl (gets (.inl named.symm))
      · exact .inr ⟨e', listed, rfl⟩
  · obtain ⟨old, there, label'⟩ := List.mem_map.mp (pending.known e' (List.mem_cons_of_mem _ listed))
    exact List.mem_map.mpr ⟨_, (memInserted located).mpr (.inr ⟨old, there, rfl⟩), (turnLabel ..).trans label'⟩
  · obtain ⟨a, old, label'⟩ := turnedEntry turned later _ first
    exact label' ▸ pending.inner e' (List.mem_cons_of_mem _ listed) a old
  · have known := pending.known e' (List.mem_cons_of_mem _ listed)
    rw [x.entersOther ok (other e' listed) fun same => unused (same ▸ known)]
    exact pending.sources e' (List.mem_cons_of_mem _ listed) a

theorem insertPreheadersPending (entries : List Entry) {f : Func} (clean : Clean f) (pending : Pending f entries) :
    Clean (insertPreheaders encode f entries).1 ∧ Pending (insertPreheaders encode f entries).1 [] ∧
      ((insertPreheaders encode f entries).2 = false → (insertPreheaders encode f entries).1 = f) := by
  induction entries generalizing f with
  | nil => exact ⟨clean, pending, fun _ => rfl⟩
  | cons e rest ih =>
    obtain ⟨g, same, clean, pending⟩ := insertPreheaderPending jumps clean pending
    obtain ⟨cleanLater, done, -⟩ := ih clean pending
    unfold insertPreheaders
    rw [same]
    refine ⟨cleanLater, done, fun no => ?_⟩
    cases no

end Run

section Index
variable {f : Func} (ok : WellFormed f) {l : Loop} (precise : l.Exact f)
include precise

theorem memEntering {p : Nat} : p ∈ entering (FlowGraph.ofFunc f) l ↔
    l.header ∈ (FlowGraph.ofFunc f).successors p ∧
      ¬ (Reached (FlowGraph.ofFunc f).successors [0] [] p ∧ Passes (FlowGraph.ofFunc f).successors 0 l.header p) := by
  rw [entering, List.mem_filter, FlowGraph.predecessorIff precise.natural.inside, Loop.contains,
    Bool.not_eq_true', List.contains_eq_mem, decide_eq_false_iff_not]
  refine and_congr_right fun edge => not_congr ⟨fun inside => ?_, fun rules => ?_⟩
  · exact ⟨precise.natural.reached p inside, precise.passes p inside⟩
  · refine (precise.member p).mpr (or_iff_not_imp_left.mpr fun other => ?_)
    exact .root ((precise.latch p).mpr ⟨edge, rules⟩) (by simpa using other)

variable {home : Block} (located : f.blocks[l.header]? = some home)
include ok located

theorem entersIff {p : Nat} {a : Block} (there : f.blocks[p]? = some a) :
    f.Enters a.label home.label ↔ p ∈ entering (FlowGraph.ofFunc f) l := by
  rw [memEntering precise, Func.Enters, FlowGraph.leadsToIff ok there located, FlowGraph.dominatesLabelIff ok
    located there]

theorem preheaderIff : f.HasPreheader home.label ↔ ∃ p, entering (FlowGraph.ofFunc f) l = [p] ∧
    (FlowGraph.ofFunc f).successors p = [l.header] := by
  have single {xs : List Nat} (once : xs.Nodup) (p : Nat) : xs = [p] ↔ ∀ a, a ∈ xs ↔ a = p := by
    rw [← List.perm_singleton, List.perm_ext_iff_of_nodup once (List.nodup_singleton p)]
    simp only [List.mem_singleton]
  have onceIn : (entering (FlowGraph.ofFunc f) l).Nodup := (LoopForest.predecessorsOnce f _).filter _
  have enters (j : Nat) (inside : j ∈ entering (FlowGraph.ofFunc f) l) : ∃ a, f.blocks[j]? = some a := by
    obtain ⟨a, there, -⟩ := FlowGraph.memSuccessors.mp ((memEntering precise).mp inside).1
    exact ⟨a, there⟩
  constructor
  · rintro ⟨p, origin, only⟩
    obtain ⟨i, a, there, rfl⟩ := Func.blockNamed (((origin p).mpr rfl).1.labels ok).1
    refine ⟨i, (single onceIn i).mpr fun j => ⟨fun inside => ?_, ?_⟩,
      (single (FlowGraph.successorsOnce f i) _).mpr fun s => ⟨fun edge => ?_, ?_⟩⟩
    · obtain ⟨b, located', same⟩ : ∃ b, f.blocks[j]? = some b ∧ b.label = a.label := by
        obtain ⟨b, located'⟩ := enters j inside
        exact ⟨b, located', (origin _).mp ((entersIff ok precise located located').mpr inside)⟩
      exact Func.indexUnique ok.labels located' there same
    · rintro rfl
      exact (entersIff ok precise located there).mp ((origin _).mpr rfl)
    · have edgeTo := List.getElem?_eq_getElem (FlowGraph.boundedSuccessors f i s edge)
      exact Func.indexUnique ok.labels edgeTo located ((only _).mp ((FlowGraph.leadsToIff ok there edgeTo).mpr edge))
    · rintro rfl
      exact (FlowGraph.leadsToIff ok there located).mp ((only _).mpr rfl)
  · rintro ⟨p, only, onward⟩
    obtain ⟨a, there⟩ := enters p (only ▸ List.mem_cons_self)
    refine ⟨a.label, fun b => ⟨fun into => ?_, ?_⟩, fun b => ⟨fun leads => ?_, ?_⟩⟩
    · obtain ⟨j, c, located', rfl⟩ := Func.blockNamed (into.1.labels ok).1
      have inside := (entersIff ok precise located located').mp into
      rw [only, List.mem_singleton] at inside
      subst inside
      rw [Option.some.inj (located'.symm.trans there)]
    · rintro rfl
      exact (entersIff ok precise located there).mpr (only ▸ List.mem_cons_self)
    · obtain ⟨j, c, located', rfl⟩ := Func.blockNamed (leads.labels ok).2
      have inside := (FlowGraph.leadsToIff ok there located').mp leads
      rw [onward, List.mem_singleton] at inside
      subst inside
      rw [Option.some.inj (located'.symm.trans located)]
    · rintro rfl
      exact (FlowGraph.leadsToIff ok there located).mpr (onward ▸ List.mem_cons_self)

omit ok located in
theorem preheaderFound {p : Nat} : preheader? (FlowGraph.ofFunc f) l = some p ↔
    entering (FlowGraph.ofFunc f) l = [p] ∧ (FlowGraph.ofFunc f).successors p = [l.header] := by
  have one (only : entering (FlowGraph.ofFunc f) l = [p]) : ((FlowGraph.ofFunc f).successors p).length = 1 ↔
      (FlowGraph.ofFunc f).successors p = [l.header] := by
    have edge := ((memEntering precise).mp (only ▸ List.mem_cons_self)).1
    refine ⟨fun length => ?_, fun same => by rw [same]; rfl⟩
    obtain ⟨s, same⟩ := List.length_eq_one_iff.mp length
    rw [same, List.mem_singleton] at edge
    rw [same, edge]
  unfold preheader?
  split
  · rename_i q only
    rw [Option.ite_none_right_eq_some, Option.some.injEq, only]
    constructor
    · rintro ⟨length, rfl⟩
      exact ⟨rfl, (one only).mp length⟩
    · rintro ⟨same, onward⟩
      cases same
      exact ⟨(one only).mpr onward, rfl⟩
  · rename_i others
    exact ⟨(fun no => nomatch no), fun both => absurd both.1 (others p)⟩

end Index

section Start
variable {f : Func} (ok : WellFormed f)
include ok

theorem headerIff {c : String} : f.IsHeader c ↔ ∃ l ∈ (LoopForest.ofFunc f (FlowGraph.ofFunc f)
    (DomTree.ofFunc f (FlowGraph.ofFunc f))).loops, ∃ home, f.blocks[l.header]? = some home ∧ home.label = c := by
  constructor
  · rintro ⟨a, leads, rules⟩
    obtain ⟨i, latch, there, rfl⟩ := Func.blockNamed (leads.labels ok).1
    obtain ⟨j, home, located, rfl⟩ := Func.blockNamed (leads.labels ok).2
    obtain ⟨reached, passes⟩ := (FlowGraph.dominatesLabelIff ok located there).mp rules
    obtain ⟨l, inside, rfl⟩ := LoopForest.loopOfHeader ok.someBlock
      ((FlowGraph.leadsToIff ok there located).mp leads) reached passes
    exact ⟨l, inside, home, located, rfl⟩
  · rintro ⟨l, inside, home, located, rfl⟩
    have precise := LoopForest.exact ok.someBlock inside
    obtain ⟨p, latch⟩ := List.exists_mem_of_ne_nil _ precise.looped
    obtain ⟨edge, rules⟩ := (precise.latch p).mp latch
    obtain ⟨a, there, -⟩ := FlowGraph.memSuccessors.mp edge
    exact ⟨a.label, (FlowGraph.leadsToIff ok there located).mpr edge,
      (FlowGraph.dominatesLabelIff ok located there).mpr rules⟩

theorem enteringSome {l : Loop} (precise : l.Exact f) : entering (FlowGraph.ofFunc f) l ≠ [] := by
  have o := DomTree.orderedOrder (FlowGraph.proper f ok.someBlock)
  obtain ⟨p, latch⟩ := List.exists_mem_of_ne_nil _ precise.looped
  have other : l.header ≠ 0 := fun zero => ok.noEntryEdge p (zero ▸ ((precise.latch p).mp latch).1)
  -- on the way to the header there is a block before it in the order
  obtain ⟨q, reached, edge, before⟩ := o.edge (precise.natural.reached _ precise.natural.header) other
  refine List.ne_nil_of_mem ((memEntering precise).mpr ⟨edge, fun rules => ?_⟩)
  rcases o.passes reached rules.2 with same | after
  · exact Nat.lt_irrefl _ (same ▸ before)
  · exact Nat.lt_asymm before after

theorem entryCases {l : Loop} (precise : l.Exact f) {home : Block} (located : f.blocks[l.header]? = some home) :
    entryOf? f (FlowGraph.ofFunc f) l = some ⟨home.label, (entering (FlowGraph.ofFunc f) l).map fun p =>
      (f.block p).label⟩ ∨
      entryOf? f (FlowGraph.ofFunc f) l = none ∧ f.HasPreheader home.label := by
  obtain ⟨p, latch⟩ := List.exists_mem_of_ne_nil _ precise.looped
  have other : l.header ≠ 0 := fun zero => ok.noEntryEdge p (zero ▸ ((precise.latch p).mp latch).1)
  have present : (entering (FlowGraph.ofFunc f) l).isEmpty = false :=
    List.isEmpty_eq_false_iff.mpr (enteringSome ok precise)
  cases found : preheader? (FlowGraph.ofFunc f) l with
  | none => exact .inl (by simp [entryOf?, found, other, present, Func.blockAt located])
  | some p =>
    refine .inr ⟨by simp [entryOf?, found], ?_⟩
    exact (preheaderIff ok precise located).mpr ⟨p, (preheaderFound precise).mp found⟩

theorem entryMade {l : Loop} (precise : l.Exact f) {home : Block} (located : f.blocks[l.header]? = some home)
    {e : Entry}
    (made : entryOf? f (FlowGraph.ofFunc f) l = some e) :
    e = ⟨home.label, (entering (FlowGraph.ofFunc f) l).map fun p => (f.block p).label⟩ := by
  rcases entryCases ok precise located with same | ⟨absent, -⟩
  · exact Option.some.inj (made.symm.trans same)
  · cases made.symm.trans absent

theorem startPending : Pending f ((LoopForest.ofFunc f (FlowGraph.ofFunc f)
    (DomTree.ofFunc f (FlowGraph.ofFunc f))).loops.filterMap (entryOf? f (FlowGraph.ofFunc f))) := by
  have present := ok.someBlock
  have origin (e : Entry) (listed : e ∈ (LoopForest.ofFunc f (FlowGraph.ofFunc f)
      (DomTree.ofFunc f (FlowGraph.ofFunc f))).loops.filterMap (entryOf? f (FlowGraph.ofFunc f))) :
      ∃ l, l.Exact f ∧ ∃ home, f.blocks[l.header]? = some home ∧
        e = ⟨home.label, (entering (FlowGraph.ofFunc f) l).map fun p => (f.block p).label⟩ := by
    obtain ⟨l, inside, made⟩ := List.mem_filterMap.mp listed
    have precise := LoopForest.exact present inside
    have located := List.getElem?_eq_getElem precise.natural.inside
    exact ⟨l, precise, _, located, entryMade ok precise located made⟩
  refine ⟨fun c header => ?_, fun e listed => ?_, fun e listed bb first => entryHeader ok listed first,
    fun e listed a => ?_, ?_⟩
  · obtain ⟨l, inside, home, located, rfl⟩ := (headerIff ok).mp header
    rcases entryCases ok (LoopForest.exact present inside) located with same | ⟨-, ready⟩
    · exact .inr ⟨_, List.mem_filterMap.mpr ⟨l, inside, same⟩, rfl⟩
    · exact .inl ready
  · obtain ⟨l, -, home, located, rfl⟩ := origin e listed
    exact List.mem_map_of_mem (List.mem_of_getElem? located)
  · obtain ⟨l, precise, home, located, rfl⟩ := origin e listed
    rw [List.mem_map]
    constructor
    · rintro ⟨p, inside, rfl⟩
      obtain ⟨b, there, -⟩ := FlowGraph.memSuccessors.mp ((memEntering precise).mp inside).1
      rw [Func.blockAt there]
      exact (entersIff ok precise located there).mpr inside
    · intro enters
      obtain ⟨p, b, there, rfl⟩ := Func.blockNamed (enters.1.labels ok).1
      exact ⟨p, (entersIff ok precise located there).mp enters, by rw [Func.blockAt there]⟩
  · have apart := List.pairwise_map.mp (LoopForest.loopsApart present)
    refine List.pairwise_map.mpr (List.pairwise_filterMap.mpr (apart.imp_of_mem ?_))
    intro l m left right other d fromL e fromM same
    have exactL := LoopForest.exact present left
    have exactM := LoopForest.exact present right
    have atL := List.getElem?_eq_getElem exactL.natural.inside
    have atM := List.getElem?_eq_getElem exactM.natural.inside
    rw [entryMade ok exactL atL fromL, entryMade ok exactM atM fromM] at same
    exact other (Func.indexUnique ok.labels atL atM same)

end Start

theorem Pending.entered {f : Func} (pending : Pending f []) (ok : WellFormed f) {l : Loop}
    (inside : l ∈ (LoopForest.ofFunc f (FlowGraph.ofFunc f) (DomTree.ofFunc f (FlowGraph.ofFunc f))).loops) :
    ∃ p, entering (FlowGraph.ofFunc f) l = [p] ∧ (FlowGraph.ofFunc f).successors p = [l.header] := by
  have present := ok.someBlock
  have precise := LoopForest.exact present inside
  have located := List.getElem?_eq_getElem precise.natural.inside
  rcases pending.ready _ ((headerIff ok).mpr ⟨l, inside, _, located, rfl⟩) with ready | ⟨e, absent, -⟩
  · exact (preheaderIff ok precise located).mp ready
  · cases absent

end LoopInvariant
end SsaCodegen
