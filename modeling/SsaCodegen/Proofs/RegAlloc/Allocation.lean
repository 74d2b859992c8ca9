import SsaCodegen.Proofs.Ir.Bare
import SsaCodegen.Proofs.RegAlloc.Intervals
import SsaCodegen.Proofs.RegAlloc.LinearScan
import SsaCodegen.X64.Registers
/-! Register allocation as a whole. Allocating succeeds on every well-formed function without
unreachable blocks, and the locations pass the check on exact liveness: what the checker
sees live together has intervals that share a position, and what it sees live across a
call has an interval that contains the call. -/
namespace SsaCodegen
open Intervals

theorem Func.blockModify (f : Func) (a b : Nat) (h : Block → Block) :
    (f.modifyBlock a h).blocks[b]? = f.blocks[b]?.map fun bb => if a = b then h bb else bb := by
  simp only [Func.modifyBlock, List.getElem?_modify]
  rfl

namespace RegAlloc

def recordAt (slots : CallSite → List Nat) (f : Func) (c : CallSite) : Func :=
  f.modifyBlock c.block fun bb =>
    { bb with insts := bb.insts.modify c.index ({ · with safepointSlots := slots c }) }

theorem recordOne {slots : CallSite → List Nat} {f : Func} {c : CallSite} {b k : Nat} {bb : Block}
    {inst : Inst} (located : (recordAt slots f c).blocks[b]? = some bb)
    (there : bb.insts[k]? = some inst) :
    ∃ old was, f.blocks[b]? = some old ∧ old.insts[k]? = some was ∧
      inst = if c.block = b ∧ c.index = k then { was with safepointSlots := slots c } else was := by
  rw [recordAt, Func.blockModify] at located
  obtain ⟨old, here, rfl⟩ := Option.map_eq_some_iff.mp located
  by_cases block : c.block = b
  · simp only [if_pos block, List.getElem?_modify, Option.map_eq_map,
      Option.map_eq_some_iff] at there
    obtain ⟨was, there, same⟩ := there
    refine ⟨old, was, here, there, ?_⟩
    rw [← same]
    by_cases index : c.index = k <;> simp [block, index]
  · rw [if_neg block] at there
    exact ⟨old, inst, here, there, by rw [if_neg fun both => block both.1]⟩

theorem recordSame (slots : CallSite → List Nat) (f : Func) (c : CallSite) :
    SameCode f (recordAt slots f c) := by
  refine ⟨List.ext_getElem? fun b => ?_, rfl, rfl⟩
  rw [List.getElem?_map, recordAt, Func.blockModify, List.getElem?_map]
  cases f.blocks[b]? with
  | none => rfl
  | some bb =>
    simp only [Option.map_some]
    split
    · refine congrArg some ?_
      simp only [Block.bare, Block.mapInsts, Block.mk.injEq, true_and]
      refine List.ext_getElem? fun k => ?_
      rw [List.getElem?_map, List.getElem?_modify, List.getElem?_map]
      cases bb.insts[k]? with
      | none => rfl
      | some inst =>
        simp only [Option.map_eq_map, Option.map_some, Option.some.injEq]
        split <;> rfl
    · rfl

theorem recordedSame (slots : CallSite → List Nat) (calls : List CallSite) (f : Func) :
    SameCode f (calls.foldl (recordAt slots) f) ∧
      (calls.foldl (recordAt slots) f).locations = f.locations ∧
      (calls.foldl (recordAt slots) f).stackSlots = f.stackSlots ∧
      (calls.foldl (recordAt slots) f).frame = f.frame := by
  induction calls generalizing f with
  | nil => exact ⟨.refl f, rfl, rfl, rfl⟩
  | cons c rest ih =>
    obtain ⟨code, same⟩ := ih (recordAt slots f c)
    exact ⟨(recordSame slots f c).trans code, same⟩

theorem recordedAt (slots : CallSite → List Nat) (calls : List CallSite) (f : Func)
    (alone : ∀ c ∈ calls, ∀ d ∈ calls, c.block = d.block → c.index = d.index → c = d) {b k : Nat}
    {bb : Block} {inst : Inst} (located : (calls.foldl (recordAt slots) f).blocks[b]? = some bb)
    (there : bb.insts[k]? = some inst) :
    ∃ old was, f.blocks[b]? = some old ∧ old.insts[k]? = some was ∧ inst.enc = was.enc ∧
      (∀ c ∈ calls, c.block = b → c.index = k → inst.safepointSlots = slots c) ∧
      ((∀ c ∈ calls, ¬ (c.block = b ∧ c.index = k)) → inst = was) := by
  induction calls generalizing f with
  | nil => exact ⟨bb, inst, located, there, rfl,
      fun c absent => absurd absent List.not_mem_nil, fun _ => rfl⟩
  | cons c rest ih =>
    obtain ⟨mid, was, at', there', enc, listed, kept⟩ := ih (recordAt slots f c)
      (fun c hc d hd => alone c (List.mem_cons_of_mem _ hc) d (List.mem_cons_of_mem _ hd)) located
    obtain ⟨old, first, here, there'', same⟩ := recordOne at' there'
    refine ⟨old, first, here, there'', ?_, fun d inside block index => ?_, fun absent => ?_⟩
    · rw [enc, same]
      split <;> rfl
    · by_cases later : ∃ e ∈ rest, e.block = b ∧ e.index = k
      · obtain ⟨e, inside', block', index'⟩ := later
        rw [listed e inside' block' index']
        exact congrArg slots (alone _ (List.mem_cons_of_mem _ inside') _ inside
          (block'.trans block.symm) (index'.trans index.symm))
      · have last : inst = was := kept fun e inside' both => later ⟨e, inside', both⟩
        rcases List.mem_cons.mp inside with rfl | inside
        · rw [last, same, if_pos ⟨block, index⟩]
        · exact absurd ⟨d, inside, block, index⟩ later
    · rw [kept fun e inside => absent e (List.mem_cons_of_mem _ inside), same,
        if_neg (absent c List.mem_cons_self)]

theorem recordFold (slots : List Location → CallSite → List Nat) {locations : List Location}
    (calls : List CallSite) (g : Func) (same : g.locations = locations) :
    calls.foldl (fun f call => f.modifyBlock call.block fun bb =>
      { bb with insts := bb.insts.modify call.index fun inst =>
        { inst with safepointSlots := slots f.locations call } }) g =
    calls.foldl (recordAt (slots locations)) g := by
  induction calls generalizing g with
  | nil => rfl
  | cons c rest ih =>
    rw [List.foldl_cons, List.foldl_cons, same]
    exact ih _ same

theorem recordSafepointsFold (intervals : Intervals) (f : Func) : recordSafepoints intervals f =
    intervals.calls.foldl (recordAt (safepointSlots f.locations intervals.intervals)) f :=
  recordFold (safepointSlots · intervals.intervals) intervals.calls f rfl

theorem runVersion (regs : RegisterFile) (g : FlowGraph) (t : DomTree) (f : Func) :
    (run regs g t f).1.layoutVersion = f.layoutVersion := by
  unfold run
  split
  · rfl
  · split
    · rfl
    · dsimp only
      rw [recordSafepointsFold]
      exact List.foldlRecOn (motive := fun h : Func => h.layoutVersion = f.layoutVersion) _ _ rfl
        fun h same c _ => same

theorem runSameCode (regs : RegisterFile) (g : FlowGraph) (t : DomTree) (f : Func) :
    SameCode f (run regs g t f).1 := by
  unfold run
  split
  · exact .refl f
  · split
    · exact .refl f
    · dsimp only
      rw [recordSafepointsFold]
      refine .trans ?_ (recordedSame _ _ _).1
      exact ⟨rfl, rfl, rfl⟩

theorem contributesSlot {locations : List Location} {iv : Interval} {c : CallSite} {slot : Nat} :
    (if iv.isRef && iv.start < c.pos && c.pos < iv.stop then
      match locations.getD iv.value .unassigned with
      | .slot s => some s
      | _ => none
    else none) = some slot ↔ iv.isRef = true ∧ iv.start < c.pos ∧ c.pos < iv.stop ∧
      locations.getD iv.value .unassigned = .slot slot := by
  simp only [Option.ite_none_right_eq_some, Bool.and_eq_true, decide_eq_true_eq, and_assoc]
  refine and_congr_right fun _ => and_congr_right fun _ => and_congr_right fun _ => ?_
  cases locations.getD iv.value .unassigned <;> simp

theorem memSafepointSlots {locations : List Location} {intervals : List Interval} {c : CallSite}
    {slot : Nat} : slot ∈ safepointSlots locations intervals c ↔ ∃ iv ∈ intervals,
      iv.isRef = true ∧ iv.start < c.pos ∧ c.pos < iv.stop ∧
        locations.getD iv.value .unassigned = .slot slot := by
  unfold safepointSlots
  rw [(List.mergeSort_perm _ _).mem_iff, List.mem_filterMap]
  exact exists_congr fun iv => and_congr_right fun _ => contributesSlot

structure Allocation (regs : RegisterFile) (f : Func) (ivs : Intervals) (g : Func) : Prop where
  placed : ∀ v ∈ f.definedIds, Placed regs g v
  apart : ∀ a ∈ ivs.intervals, ∀ b ∈ ivs.intervals, a.value ≠ b.value → a.start ≤ b.stop →
    b.start ≤ a.stop → ∀ r, g.location a.value = .reg r → g.location b.value ≠ .reg r
  across : ∀ iv ∈ ivs.intervals, ∀ c ∈ ivs.calls, iv.start < c.pos → c.pos < iv.stop →
    (∃ k, g.location iv.value = .slot k) ∨
      ∃ r, g.location iv.value = .reg r ∧ regs.isCalleeSaved r = true
  slots : ∀ k < g.stackSlots.length,
    ∃ v, g.location v = .slot k ∧ ∀ w, g.location w = .slot k → w = v

variable {regs : RegisterFile} {f : Func}

structure Scanned (regs : RegisterFile) (f : Func) (ivs : Intervals) (g : Func) : Prop where
  code : SameCode f g
  lists : Lists f ivs
  scan : ∃ s pos, Scan.Scanned regs f.numValues (· ∈ ivs.intervals) pos s ∧
    g.locations = s.locations ∧ g.stackSlots.length = s.slots

namespace Scanned
variable {ivs : Intervals} {g : Func} (scanned : Scanned regs f ivs g)
include scanned

theorem decided {iv : Interval} (inside : iv ∈ ivs.intervals) :
    Scan.Decided regs g.stackSlots.length iv (g.location iv.value) := by
  obtain ⟨s, pos, inv, locations, slots⟩ := scanned.scan
  simp only [Func.location, locations, slots]
  exact inv.decided iv inside

theorem inOrder {a b : Interval} (left : a ∈ ivs.intervals) (right : b ∈ ivs.intervals)
    (differ : a.value ≠ b.value) {r : Nat} (ina : g.location a.value = .reg r)
    (inb : g.location b.value = .reg r) : a.stop < b.start ∨ b.stop < a.start := by
  obtain ⟨s, pos, inv, locations, -⟩ := scanned.scan
  simp only [Func.location, locations] at ina inb
  exact inv.apart a b left right (fun same => differ (same ▸ rfl)) r ina inb

theorem ofTouched {v pos : Nat} (touched : Touched f v pos) : ∃ iv ∈ ivs.intervals, iv.value = v :=
  scanned.lists.all v pos touched

theorem ownSlot {v w k : Nat} (first : g.location v = .slot k) (second : g.location w = .slot k) :
    v = w := by
  obtain ⟨s, pos, inv, locations, -⟩ := scanned.scan
  simp only [Func.location, locations] at first second
  obtain ⟨a, ina, rfl⟩ := inv.fresh v (by rw [Scan.locationOf, first]; exact Location.noConfusion)
  obtain ⟨b, inb, rfl⟩ := inv.fresh w (by rw [Scan.locationOf, second]; exact Location.noConfusion)
  exact congrArg Interval.value (inv.own a b k ina inb first second)

theorem allocation : Allocation regs f ivs g where
  placed v defined := by
    obtain ⟨pos, touched⟩ := definedTouched defined
    obtain ⟨iv, inside, rfl⟩ := scanned.ofTouched touched
    have decided := scanned.decided inside
    have hull := scanned.lists.hull iv inside
    have ty : g.valueType iv.value = f.valueType iv.value := by
      simp only [Func.valueType, scanned.code.types]
    unfold Placed
    cases home : g.location iv.value with
    | unassigned => simp [home, Scan.Decided] at decided
    | slot k =>
      rw [home] at decided
      exact decided
    | reg r =>
      rw [home] at decided
      refine ⟨decided.allocatable, ?_⟩
      rw [ty, ← hull.cls]
      exact decided.cls
  apart a left b right differ le ge r ina inb := by
    rcases scanned.inOrder left right differ ina inb with before | after <;> omega
  across iv inside c call before after := by
    have decided := scanned.decided inside
    have hull := scanned.lists.hull iv inside
    have crosses := hull.crosses.mpr ⟨c, scanned.lists.calls ▸ call, before, after⟩
    cases home : g.location iv.value with
    | unassigned => simp [home, Scan.Decided] at decided
    | slot k => exact .inl ⟨k, rfl⟩
    | reg r =>
      rw [home] at decided
      exact .inr ⟨r, rfl, decided.crosses crosses⟩
  slots k below := by
    obtain ⟨s, pos, inv, locations, slots⟩ := scanned.scan
    obtain ⟨iv, inside, home⟩ := inv.slots k (slots ▸ below)
    rw [Scan.locationOf, ← locations] at home
    exact ⟨iv.value, home, fun w also => scanned.ownSlot also home⟩

theorem apartOf {v w : Nat} (pos : Nat) (differ : v ≠ w) (left : ∃ p, Touched f v p ∧ p ≤ pos)
    (left' : ∃ p, Touched f v p ∧ pos ≤ p) (right : Touched f w pos) : Apart g v w := by
  obtain ⟨p, touched, before⟩ := left
  obtain ⟨q, touched', after⟩ := left'
  obtain ⟨a, ina, rfl⟩ := scanned.ofTouched touched
  obtain ⟨b, inb, rfl⟩ := scanned.ofTouched right
  have hullA := scanned.lists.hull a ina
  have hullB := scanned.lists.hull b inb
  refine apartOfDiffer fun same => ?_
  have decided := scanned.decided ina
  cases home : g.location a.value with
  | unassigned => simp [home, Scan.Decided] at decided
  | slot k => exact differ (scanned.ownSlot home (same ▸ home))
  | reg r =>
    have ends := (hullA.covers q touched').2
    have starts := (hullA.covers p touched).1
    have covers := hullB.covers pos right
    rcases scanned.inOrder ina inb differ home (same ▸ home) with before | after <;> omega

theorem crosses (ok : WellFormed f) {b k v : Nat} {bb : Block} {call : Inst}
    (located : f.blocks[b]? = some bb) (there : bb.insts[k]? = some call) (called : call.op = .call)
    (live : v ∈ f.liveAt b (k + 1)) (other : call.result ≠ some v) :
    (⟨instPos (blockStart f b) k, b, k⟩ : CallSite) ∈ ivs.calls ∧ ∃ iv ∈ ivs.intervals,
      iv.value = v ∧ iv.start < instPos (blockStart f b) k ∧
        instPos (blockStart f b) k < iv.stop := by
  obtain ⟨⟨p, touched, before⟩, q, touched', after⟩ :=
    liveAcross located there (callInner ok located there called) live other
  obtain ⟨iv, listed, rfl⟩ := scanned.ofTouched touched
  have hull := scanned.lists.hull iv listed
  refine ⟨scanned.lists.calls ▸ memCallSites.mpr ⟨bb, call, located, there, called, rfl⟩,
    iv, listed, rfl, ?_, ?_⟩
  · exact Nat.lt_of_le_of_lt (hull.covers p touched).1 before
  · exact Nat.lt_of_lt_of_le after (hull.covers q touched').2

theorem besideResult {b k id v : Nat} {bb : Block} {inst : Inst} (located : f.blocks[b]? = some bb)
    (there : bb.insts[k]? = some inst) (made : inst.result = some id) (live : v ∈ f.liveAt b (k + 1))
    (differ : v ≠ id) : Apart g v id := by
  have inside : k + 1 ≤ bb.insts.length := (List.getElem?_eq_some_iff.mp there).1
  obtain ⟨p, touched, before⟩ := liveSince located inside live
  obtain ⟨q, touched', after⟩ := liveStill located inside live
  have written : Touched f id (instPos (blockStart f b) k) :=
    touchedIff.mpr ⟨b, bb, located, .inr (.inl ⟨k, inst, there, rfl, .inr made⟩)⟩
  refine scanned.apartOf _ differ ⟨p, touched, ?_⟩ ⟨q, touched', ?_⟩ written <;>
    simp only [instPos] <;> omega

theorem besideParam {b id v : Nat} {bb : Block} (located : f.blocks[b]? = some bb)
    (param : id ∈ bb.paramIds) (live : v ∈ f.liveAt b 0) (other : v ∉ bb.paramIds) : Apart g v id := by
  obtain ⟨p, touched, before⟩ := liveSince located (Nat.zero_le _) live
  obtain ⟨q, touched', after⟩ := liveStill located (Nat.zero_le _) live
  refine scanned.apartOf (blockStart f b) (fun same => other (same ▸ param)) ⟨p, touched, ?_⟩
    ⟨q, touched', ?_⟩ (paramTouched located param) <;> omega

theorem located (ok : WellFormed f) (framed : g.frame.laidOut = false)
    (size : g.locations.length = g.numValues)
    (encoded : ∀ bb ∈ g.blocks, ∀ inst ∈ bb.insts, inst.enc.isLegal = true)
    (recorded : ∀ b k bb inst, g.blocks[b]? = some bb → bb.insts[k]? = some inst → ∀ c ∈ ivs.calls,
      c.block = b → c.index = k →
        inst.safepointSlots = safepointSlots g.locations ivs.intervals c) :
    Located regs g := by
  have gok := scanned.code.wellFormed ok
  have allocation := scanned.allocation
  have blockOf {b : Nat} (below : b < g.blocks.length) :
      g.blocks[b]? = some (g.block b) ∧ ∃ old, f.blocks[b]? = some old ∧
        (g.block b).paramIds = old.paramIds ∧
        (g.block b).insts.map Inst.bare = old.insts.map Inst.bare := by
    have sited := Func.blockBelow below
    obtain ⟨old, was, -, params, insts⟩ := scanned.code.blockAt sited
    exact ⟨sited, old, was, by rw [Block.paramIds, params, Block.paramIds], insts⟩
  refine ⟨size, fun laidOut => absurd (framed.symm.trans laidOut) Bool.false_ne_true, encoded,
    fun v defined => allocation.placed v ?_, fun b k inst there below => ?_, fun b below => ?_⟩
  · exact (scanned.code.narrows ok).definedIds ▸ defined
  · obtain ⟨sited, old, was, -, insts⟩ := blockOf below
    obtain ⟨first, there', same⟩ := Inst.ofBares insts there
    obtain ⟨op, -, result, -⟩ := Inst.bareReads same
    constructor
    · intro id made v live differ
      exact scanned.besideResult was there' (result ▸ made)
        (scanned.code.liveAt .. ▸ live) differ
    · intro called v live other
      rw [scanned.code.liveAt] at live
      obtain ⟨site, iv, listed, rfl, before, after⟩ :=
        scanned.crosses ok was there' (op ▸ called) live (result ▸ other)
      unfold Survives
      rcases allocation.across iv listed _ site before after with ⟨slot, home⟩ | ⟨r, home, kept⟩
      · rw [home]
        intro isRef
        rw [recorded b k _ inst sited there _ site rfl rfl]
        refine memSafepointSlots.mpr ⟨iv, listed, ?_, before, after, home⟩
        rw [(scanned.lists.hull iv listed).isRef]
        simpa only [Func.valueType, scanned.code.types] using isRef
      · rw [home]
        exact kept
  · obtain ⟨sited, old, was, params, insts⟩ := blockOf below
    constructor
    · intro id param v live other
      exact scanned.besideParam was (params ▸ param) (scanned.code.liveAt .. ▸ live) (params ▸ other)
    · have once : (g.block b).paramIds.Nodup :=
        (List.nodup_append.mp (Func.definedOnceIn gok.once (List.mem_of_getElem? sited))).1
      refine once.imp_of_mem fun {v w} first second differ => ?_
      have touched := paramTouched was (params ▸ first)
      exact scanned.apartOf _ differ ⟨_, touched, Nat.le_refl _⟩ ⟨_, touched, Nat.le_refl _⟩
        (paramTouched was (params ▸ second))

end Scanned

theorem everyReachable (ok : WellFormed f) (reachable : ∀ bb ∈ f.blocks, Reaches f bb.label)
    {bb : Block} {b : Nat} (located : f.blocks[b]? = some bb) :
    (DomTree.ofFunc f (FlowGraph.ofFunc f)).isReachable b = true := by
  have inside := List.mem_of_getElem? located
  have reached := (FlowGraph.reachesIff ok.labels located).mpr (reachable bb inside)
  exact (DomTree.isReachableIff (FlowGraph.proper f (List.length_pos_of_mem inside))).mpr
    reached

theorem sitesAlone {c d : CallSite} (left : c ∈ callSites f) (right : d ∈ callSites f)
    (block : c.block = d.block) (index : c.index = d.index) : c = d := by
  obtain ⟨_, _, _, _, _, posC⟩ := memCallSites.mp left
  obtain ⟨_, _, _, _, _, posD⟩ := memCallSites.mp right
  have pos : c.pos = d.pos := by rw [posC, posD, block, index]
  cases c
  cases d
  exact CallSite.mk.injEq .. ▸ ⟨pos, block, index⟩

theorem runScanned (consistent : Scan.Consistent regs) (ok : WellFormed f)
    (reachable : ∀ bb ∈ f.blocks, Reaches f bb.label) :
    ∃ g ivs, run regs (FlowGraph.ofFunc f) (DomTree.ofFunc f (FlowGraph.ofFunc f)) f = (g, .ok ()) ∧
      Intervals.ofFunc f (Liveness.ofFunc f (FlowGraph.ofFunc f)) = .ok ivs ∧
      Scanned regs f ivs g ∧ g.frame = f.frame ∧ g.locations.length = g.numValues ∧
      (∀ bb ∈ g.blocks, ∀ inst ∈ bb.insts, ∃ was ∈ f.insts, inst.enc = was.enc) ∧
      ∀ b k bb inst, g.blocks[b]? = some bb → bb.insts[k]? = some inst → ∀ c ∈ ivs.calls,
        c.block = b → c.index = k →
          inst.safepointSlots = safepointSlots g.locations ivs.intervals c := by
  obtain ⟨ivs, made, lists⟩ := ofWellFormed ok
  obtain ⟨pos, inv⟩ := Scan.runScanned consistent (fun iv inside => (lists.hull iv inside).allocated)
    lists.once (lists.ordered.imp fun {a b} order => by omega)
  generalize scan : Scan.run regs f.numValues ivs.intervals = s at inv
  let mid : Func := { f with locations := s.locations, stackSlots := List.replicate s.slots {} }
  have alone : ∀ c ∈ ivs.calls, ∀ d ∈ ivs.calls, c.block = d.block → c.index = d.index → c = d :=
    lists.calls ▸ fun c left d right => sitesAlone left right
  obtain ⟨code, locations, stack, frame⟩ :=
    recordedSame (safepointSlots s.locations ivs.intervals) ivs.calls mid
  have start : SameCode f mid := ⟨rfl, rfl, rfl⟩
  refine ⟨_, ivs, ?_, made, ⟨start.trans code, lists, s, pos, inv, ?_, ?_⟩,
    ?_, ?_, ?_, ?_⟩
  · unfold run
    split
    · rename_i bb b found
      have missed := List.find?_some found
      have located := List.mem_zipIdx_iff_getElem?.mp (List.mem_of_find?_eq_some found)
      simp only [everyReachable ok reachable located] at missed
      cases missed
    · rw [made]
      simp only [scan]
      rw [recordSafepointsFold]
  · exact locations
  · rw [stack, List.length_replicate]
  · exact frame
  · rw [locations, Func.numValues, code.types]
    exact inv.length
  · intro bb inside inst there
    obtain ⟨b, located⟩ := List.getElem?_of_mem inside
    obtain ⟨k, there⟩ := List.getElem?_of_mem there
    obtain ⟨old, was, here, there', enc, -⟩ := recordedAt _ _ mid alone located there
    exact ⟨was, List.mem_flatMap.mpr ⟨old, List.mem_of_getElem? here, List.mem_of_getElem? there'⟩,
      enc⟩
  · intro b k bb inst located there c inside block index
    obtain ⟨_, _, _, _, _, listed, _⟩ := recordedAt _ _ mid alone located there
    rw [listed c inside block index, locations]

section Given
variable {graph : FlowGraph} {t : DomTree} {g : Func} (ran : run regs graph t f = (g, .ok ()))
include ran

theorem runMade : ∃ (ivs : Intervals) (s : Scan), ivs.calls = callSites f ∧ s.Given ∧
    g = ivs.calls.foldl (recordAt (safepointSlots s.locations ivs.intervals))
      { f with locations := s.locations, stackSlots := List.replicate s.slots {} } := by
  unfold run at ran
  split at ran
  · cases ran
  · split at ran
    · cases ran
    · rename_i ivs made
      dsimp only at ran
      rw [recordSafepointsFold] at ran
      have calls : ivs.calls = callSites f := by
        simp only [Intervals.ofFunc] at made
        split at made
        · cases made
        · cases made
          rfl
      exact ⟨ivs, _, calls, Scan.runGiven regs f.numValues ivs.intervals, (Prod.mk.inj ran).1.symm⟩

theorem runHomesGiven : ∀ slot, .slot slot ∈ g.locations → slot < g.stackSlots.length := by
  obtain ⟨ivs, s, -, given, rfl⟩ := runMade ran
  obtain ⟨-, locations, stack, -⟩ := recordedSame (safepointSlots s.locations ivs.intervals) ivs.calls
    { f with locations := s.locations, stackSlots := List.replicate s.slots {} }
  rw [locations, stack, List.length_replicate]
  exact given

theorem runListsGiven : ∀ i ∈ g.insts, i.op = .call → ∀ slot ∈ i.safepointSlots, slot < g.stackSlots.length := by
  have homes := runHomesGiven ran
  obtain ⟨ivs, s, calls, -, rfl⟩ := runMade ran
  intro i inside called slot listed
  obtain ⟨bb, there, held⟩ := List.mem_flatMap.mp inside
  obtain ⟨b, located⟩ := List.getElem?_of_mem there
  obtain ⟨k, place⟩ := List.getElem?_of_mem held
  obtain ⟨code, locations, -, -⟩ := recordedSame (safepointSlots s.locations ivs.intervals) ivs.calls
    { f with locations := s.locations, stackSlots := List.replicate s.slots {} }
  obtain ⟨was, here, -, -, insts⟩ := code.blockAt located
  obtain ⟨first, there', bare⟩ := Inst.ofBares insts place
  have site : (⟨instPos (blockStart f b) k, b, k⟩ : CallSite) ∈ ivs.calls :=
    calls ▸ memCallSites.mpr ⟨was, first, here, there', (Inst.bareReads bare).1.symm.trans called, rfl⟩
  obtain ⟨-, -, -, -, -, recorded, -⟩ := recordedAt _ ivs.calls _
    (calls ▸ fun c left d right => sitesAlone left right) located place
  rw [recorded _ site rfl rfl] at listed
  obtain ⟨iv, -, -, -, -, home⟩ := memSafepointSlots.mp listed
  refine homes slot ?_
  rw [locations]
  rw [List.getD_eq_getElem?_getD] at home
  cases found : s.locations[iv.value]? with
  | none => rw [found] at home; cases home
  | some l =>
    rw [found] at home
    cases home
    exact List.mem_of_getElem? found

end Given

theorem registersConsistent : Scan.Consistent X64.registerFile where
  cls _ _ listed := X64.allocatableClass listed
  named := by decide

/-- Allocation for the target's registers, of a function that the verifier accepts. -/
theorem allocationSucceeds {f : Func} (verified : verifyFunction f = [])
    (reachable : ∀ bb ∈ f.blocks, Reaches f bb.label)
    (encoded : ∀ inst ∈ f.insts, inst.enc.isLegal = true) (unframed : f.frame.laidOut = false) :
    ∃ g ivs, run X64.registerFile (FlowGraph.ofFunc f) (DomTree.ofFunc f (FlowGraph.ofFunc f)) f =
        (g, .ok ()) ∧
      Intervals.ofFunc f (Liveness.ofFunc f (FlowGraph.ofFunc f)) = .ok ivs ∧
      Allocation X64.registerFile f ivs g ∧ verifyLocations X64.registerFile g = [] := by
  have ok := verifiedIff.mp verified
  obtain ⟨g, ivs, ran, made, scanned, frame, size, encs, recorded⟩ :=
    runScanned registersConsistent ok reachable
  refine ⟨g, ivs, ran, made, scanned.allocation, locatedIff.mpr ?_⟩
  refine scanned.located ok (frame ▸ unframed) size (fun bb inside inst there => ?_) recorded
  obtain ⟨was, listed, enc⟩ := encs bb inside inst there
  exact enc ▸ encoded was listed

theorem callUntilZeroReachable : ∀ bb ∈ callUntilZero.blocks, Reaches callUntilZero bb.label := by
  have listed (k : Nat) (below : k < 3) : callUntilZero.block k ∈ callUntilZero.blocks :=
    List.mem_of_getElem? (Func.blockBelow below)
  have first : callUntilZero.blocks = callUntilZero.block 0 :: callUntilZero.blocks.tail := rfl
  have entry : Reaches callUntilZero (callUntilZero.block 0).label := .entry first
  have again : Reaches callUntilZero (callUntilZero.block 1).label :=
    .edge (listed 0 (by decide)) entry trivial (by decide)
  have done : Reaches callUntilZero (callUntilZero.block 2).label :=
    .edge (listed 1 (by decide)) again trivial (by decide)
  intro bb inside
  simp only [callUntilZero, List.mem_cons, List.not_mem_nil, or_false] at inside
  rcases inside with rfl | rfl | rfl
  · exact entry
  · exact again
  · exact done

theorem callUntilZeroAllocates : verifyFunction callUntilZero = [] ∧
    (∀ bb ∈ callUntilZero.blocks, Reaches callUntilZero bb.label) ∧
    (∀ inst ∈ callUntilZero.insts, inst.enc.isLegal = true) ∧
    callUntilZero.frame.laidOut = false ∧ ∃ g ivs,
      run X64.registerFile (FlowGraph.ofFunc callUntilZero)
        (DomTree.ofFunc callUntilZero (FlowGraph.ofFunc callUntilZero)) callUntilZero =
          (g, .ok ()) ∧
      Intervals.ofFunc callUntilZero
        (Liveness.ofFunc callUntilZero (FlowGraph.ofFunc callUntilZero)) = .ok ivs ∧
      Allocation X64.registerFile callUntilZero ivs g ∧ verifyLocations X64.registerFile g = [] :=
  ⟨by decide, callUntilZeroReachable, by decide, rfl,
    allocationSucceeds (by decide) callUntilZeroReachable (by decide) rfl⟩

end RegAlloc
end SsaCodegen
