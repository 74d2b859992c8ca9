import SsaCodegen.Proofs.RegAlloc.Allocation
/-! Stack maps of calls. A map lists the slots of the references whose interval goes on past
the call, so every reference that a run reads later is in it. Intervals follow the layout
and runs do not: a map may also list a slot that no run to the call has stored to. The
location verifier looks for missing references in slots only; a reference in a register
that callees keep is in no map. -/
namespace SsaCodegen
open Intervals Machine

section
variable {Word World Store : Type} {m : Meaning Word World} {k : Keeping Word Store} {f : Func}

def written (f : Func) (s next : State Store World) : List Nat :=
  match (f.block s.block).insts[s.index]? with
  | none => []
  | some inst =>
    if inst.isTerminator then (f.block next.block).paramIds else inst.result.toList

inductive Needs (m : Meaning Word World) (k : Keeping Word Store) (f : Func) (v : Nat) :
    State Store World → Prop where
  | reads {s inst} (there : (f.block s.block).insts[s.index]? = some inst)
      (used : v ∈ inst.usedTemps) : Needs m k f v s
  | later {s event next} (goes : step m k f s = some (event, some next))
      (kept : v ∉ written f s next) (needs : Needs m k f v next) : Needs m k f v s

theorem nextOfInner {s next : State Store World} {event : Event Word World} {inst : Inst}
    (there : (f.block s.block).insts[s.index]? = some inst) (inner : inst.isTerminator = false)
    (goes : step m k f s = some (event, some next)) :
    next.block = s.block ∧ next.index = s.index + 1 := by
  unfold step at goes
  simp only [there, inner, Bool.false_eq_true, if_false] at goes
  split at goes
  · cases goes
  · cases goes
    exact ⟨rfl, rfl⟩

theorem nextOfEdge {s next : State Store World} {event : Event Word World} {inst : Inst}
    (there : (f.block s.block).insts[s.index]? = some inst) (ends : inst.isTerminator = true)
    (goes : step m k f s = some (event, some next)) :
    next.index = 0 ∧ ∃ edge : Nat, inst.targets[edge]?.bind f.findBlock? = some next.block := by
  unfold step at goes
  simp only [there, ends, if_true] at goes
  split at goes
  · cases goes
  · split at goes
    · cases goes
    · rename_i target
      cases goes
      exact ⟨rfl, _, target⟩

theorem stepLive (ok : WellFormed f) {s next : State Store World} {event : Event Word World}
    {v : Nat} (inside : s.block < f.blocks.length) (goes : step m k f s = some (event, some next))
    (kept : v ∉ written f s next) (live : v ∈ f.liveAt next.block next.index) :
    v ∈ f.liveAt s.block s.index := by
  obtain ⟨inst, there⟩ : ∃ inst, (f.block s.block).insts[s.index]? = some inst := by
    refine Option.ne_none_iff_exists'.mp fun absent => ?_
    simp only [step, absent] at goes
    cases goes
  simp only [written, there] at kept
  cases ends : inst.isTerminator with
  | true =>
    obtain ⟨start, edge, target⟩ := nextOfEdge there ends goes
    rw [start] at live
    exact ok.edgeLive inside there ends target live (by simpa only [ends, if_true] using kept)
  | false =>
    obtain ⟨block, index⟩ := nextOfInner there ends goes
    rw [block, index] at live
    refine (memLiveAt there).mpr (.inr ⟨live, fun own => kept ?_⟩)
    simp [ends, own]

theorem stepInside (ok : WellFormed f) {s next : State Store World} {event : Event Word World}
    (inside : s.block < f.blocks.length) (goes : step m k f s = some (event, some next)) :
    next.block < f.blocks.length := by
  cases there : (f.block s.block).insts[s.index]? with
  | none =>
    simp only [step, there] at goes
    cases goes
  | some inst =>
    cases ends : inst.isTerminator with
    | true =>
      obtain ⟨-, edge, target⟩ := nextOfEdge there ends goes
      exact (ok.edgeAt inside there target).1
    | false => exact (nextOfInner there ends goes).1 ▸ inside

theorem Needs.live (ok : WellFormed f) {v : Nat} {s : State Store World}
    (needs : Needs m k f v s) (inside : s.block < f.blocks.length) :
    v ∈ f.liveAt s.block s.index := by
  induction needs with
  | reads there used => exact ok.usedIsLive inside there used
  | later goes kept needs ih => exact stepLive ok inside goes kept (ih (stepInside ok inside goes))

end

namespace RegAlloc
variable {regs : RegisterFile} {f g : Func} {ivs : Intervals}

structure MapsCall (ivs : Intervals) (g : Func) (c : CallSite) (call : Inst) : Prop where
  ascending : call.safepointSlots.Pairwise (· < ·)
  crossing : ∀ slot, slot ∈ call.safepointSlots ↔ ∃ iv ∈ ivs.intervals,
    (g.valueType iv.value).isRef = true ∧ iv.start < c.pos ∧ c.pos < iv.stop ∧
      g.location iv.value = .slot slot
  owned : ∀ slot ∈ call.safepointSlots, ∃ v, (g.valueType v).isRef = true ∧
    ∀ w, g.location w = .slot slot ↔ w = v
  live : ∀ v ∈ g.liveAt c.block (c.index + 1), call.result ≠ some v →
    (g.valueType v).isRef = true → ∃ slot ∈ call.safepointSlots, g.location v = .slot slot
  needed : ∀ {Word World Store : Type} (m : Meaning Word World) (k : Keeping Word Store)
    (s next : State Store World) (event : Event Word World), s.block = c.block →
    s.index = c.index → step m k g s = some (event, some next) → ∀ v, Needs m k g v next →
    call.result ≠ some v → (g.valueType v).isRef = true →
      ∃ slot ∈ call.safepointSlots, g.location v = .slot slot

namespace Scanned
variable (scanned : Scanned regs f ivs g)
include scanned

theorem crossingSpilled {iv : Interval} {c : CallSite} (inside : iv ∈ ivs.intervals)
    (site : c ∈ ivs.calls) (isRef : (f.valueType iv.value).isRef = true)
    (before : iv.start < c.pos) (after : c.pos < iv.stop) :
    ∃ slot, g.location iv.value = .slot slot := by
  have hull := scanned.lists.hull iv inside
  have crosses := hull.crosses.mpr ⟨c, scanned.lists.calls ▸ site, before, after⟩
  have decided := scanned.decided inside
  cases home : g.location iv.value with
  | unassigned => simp [home, Scan.Decided] at decided
  | slot slot => exact ⟨slot, rfl⟩
  | reg r =>
    rw [home] at decided
    have free := decided.free
    simp [Scan.mustSpill, crosses, hull.isRef, isRef] at free

theorem listed {v p q : Nat} {c : CallSite} (site : c ∈ ivs.calls)
    (isRef : (f.valueType v).isRef = true) (needed : Touched f v p) (before : p < c.pos)
    (needed' : Touched f v q) (after : c.pos < q) :
    ∃ slot ∈ safepointSlots g.locations ivs.intervals c, g.location v = .slot slot := by
  obtain ⟨iv, inside, rfl⟩ := scanned.ofTouched needed
  have hull := scanned.lists.hull iv inside
  have starts := Nat.lt_of_le_of_lt (hull.covers p needed).1 before
  have stops := Nat.lt_of_lt_of_le after (hull.covers q needed').2
  obtain ⟨slot, home⟩ := scanned.crossingSpilled inside site isRef starts stops
  refine ⟨slot, memSafepointSlots.mpr ⟨iv, inside, ?_, starts, stops, home⟩, home⟩
  rw [hull.isRef, isRef]

theorem slotsAscend (c : CallSite) :
    (safepointSlots g.locations ivs.intervals c).Pairwise (· < ·) := by
  have sorted : (safepointSlots g.locations ivs.intervals c).Pairwise (· ≤ ·) := by
    refine (List.pairwise_mergeSort (fun a b d => ?_) (fun a b => ?_) _).imp of_decide_eq_true
    · simp only [decide_eq_true_eq]
      exact Nat.le_trans
    · simp only [Bool.or_eq_true, decide_eq_true_eq]
      exact Nat.le_total a b
  have once : (safepointSlots g.locations ivs.intervals c).Nodup := by
    unfold safepointSlots
    refine (List.mergeSort_perm _ _).nodup_iff.mpr (List.pairwise_filterMap.mpr ?_)
    refine (List.pairwise_map.mp scanned.lists.once).imp fun {a b} differ j hj k hk same => ?_
    refine differ ?_
    have first : g.location a.value = .slot j := (contributesSlot.mp hj).2.2.2
    have second : g.location b.value = .slot k := (contributesSlot.mp hk).2.2.2
    exact scanned.ownSlot first (same ▸ second)
  exact sorted.imp₂ (fun a b le differ => Nat.lt_of_le_of_ne le differ) once

theorem mapsCall (ok : WellFormed f) {b k : Nat} {bb : Block} {call : Inst}
    (located : g.blocks[b]? = some bb) (there : bb.insts[k]? = some call) (called : call.op = .call)
    (recorded : ∀ c ∈ ivs.calls, c.block = b → c.index = k →
      call.safepointSlots = safepointSlots g.locations ivs.intervals c) :
    ∃ c ∈ ivs.calls, c.block = b ∧ c.index = k ∧ MapsCall ivs g c call := by
  obtain ⟨old, here, -, -, insts⟩ := scanned.code.blockAt located
  obtain ⟨was, there', bare⟩ := Inst.ofBares insts there
  obtain ⟨op, -, result, -⟩ := Inst.bareReads bare
  have site : (⟨instPos (blockStart f b) k, b, k⟩ : CallSite) ∈ ivs.calls :=
    scanned.lists.calls ▸ memCallSites.mpr ⟨old, was, here, there', op ▸ called, rfl⟩
  have types (v : Nat) : g.valueType v = f.valueType v := by
    simp only [Func.valueType, scanned.code.types]
  have listed : call.safepointSlots = safepointSlots g.locations ivs.intervals _ :=
    recorded _ site rfl rfl
  have live : ∀ v ∈ g.liveAt b (k + 1), call.result ≠ some v → (g.valueType v).isRef = true →
      ∃ slot ∈ call.safepointSlots, g.location v = .slot slot := by
    intro v live other isRef
    rw [scanned.code.liveAt] at live
    obtain ⟨-, iv, inside, rfl, before, after⟩ :=
      scanned.crosses ok here there' (op ▸ called) live (result ▸ other)
    have hull := scanned.lists.hull iv inside
    rw [listed]
    exact scanned.listed site (types _ ▸ isRef) hull.starts before hull.stops after
  refine ⟨_, site, rfl, rfl, ⟨listed ▸ scanned.slotsAscend _, fun slot => ?_, fun slot inside => ?_,
    live, ?_⟩⟩
  · rw [listed, memSafepointSlots]
    refine exists_congr fun iv => and_congr_right fun inside => ?_
    rw [(scanned.lists.hull iv inside).isRef, types]
    rfl
  · rw [listed] at inside
    obtain ⟨iv, inside, isRef, -, -, home⟩ := memSafepointSlots.mp inside
    refine ⟨iv.value, ?_, fun w => ⟨fun also => scanned.ownSlot also home, fun same => same ▸ home⟩⟩
    rw [types, ← (scanned.lists.hull iv inside).isRef, isRef]
  · intro Word World Store m keep s next event block index goes v needs
    have gok := scanned.code.wellFormed ok
    have below : s.block < g.blocks.length := block ▸ (List.getElem?_eq_some_iff.mp located).1
    have here : (g.block s.block).insts[s.index]? = some call := by
      rw [block, index, Func.blockAt located, there]
    have inner : call.isTerminator = false := by rw [Inst.isTerminator, called]; rfl
    obtain ⟨block', index'⟩ := nextOfInner here inner goes
    -- what the run reads later is live behind the call
    have later := needs.live gok (stepInside gok below goes)
    rw [block', index', block, index] at later
    exact live v later

end Scanned

/-- Allocation for the target's registers succeeds and gives every call its stack map. -/
theorem allocationMapsCalls {f : Func} (verified : verifyFunction f = [])
    (reachable : ∀ bb ∈ f.blocks, Reaches f bb.label) :
    ∃ g ivs, run X64.registerFile (FlowGraph.ofFunc f) (DomTree.ofFunc f (FlowGraph.ofFunc f)) f =
        (g, .ok ()) ∧
      Intervals.ofFunc f (Liveness.ofFunc f (FlowGraph.ofFunc f)) = .ok ivs ∧
      ∀ b k bb call, g.blocks[b]? = some bb → bb.insts[k]? = some call → call.op = .call →
        ∃ c ∈ ivs.calls, c.block = b ∧ c.index = k ∧ MapsCall ivs g c call := by
  obtain ⟨g, ivs, ran, made, scanned, -, -, -, recorded⟩ :=
    runScanned registersConsistent (verifiedIff.mp verified) reachable
  refine ⟨g, ivs, ran, made, fun b k bb call located there called => ?_⟩
  exact scanned.mapsCall (verifiedIff.mp verified) located there called (recorded b k bb call located there)

/-- Makes a reference and uses it in a later block; between the two lies a block that makes
a call and that only runs without the reference come to. -/
def collectBesideUse : Func :=
  { signature := { params := [.b1] }
    blocks := [
      { label := "entry", params := [⟨0, .b1⟩]
        insts := [{ op := .brif, operands := [.temp 0], targets := ["make", "collect"],
                    targetArgs := [[], []] }] },
      { label := "make"
        insts := [{ result := some 1, op := .call, ty := .r64, callee := "allocate" },
                  jumpTo "use" [] {}] },
      { label := "collect", insts := [{ op := .call, callee := "collect" }, { op := .ret }] },
      { label := "use"
        insts := [{ op := .call, operands := [.temp 1], callee := "consume" }, { op := .ret }] }]
    valueTypes := [.b1, .r64] }

theorem collectBesideUseReachable :
    ∀ bb ∈ collectBesideUse.blocks, Reaches collectBesideUse bb.label := by
  have listed (k : Nat) (below : k < 4) : collectBesideUse.block k ∈ collectBesideUse.blocks :=
    List.mem_of_getElem? (Func.blockBelow below)
  have first : collectBesideUse.blocks =
    collectBesideUse.block 0 :: collectBesideUse.blocks.tail := rfl
  have entry : Reaches collectBesideUse (collectBesideUse.block 0).label := .entry first
  have make : Reaches collectBesideUse (collectBesideUse.block 1).label :=
    .edge (listed 0 (by decide)) entry trivial (by decide)
  have collect : Reaches collectBesideUse (collectBesideUse.block 2).label :=
    .edge (listed 0 (by decide)) entry trivial (by decide)
  have use : Reaches collectBesideUse (collectBesideUse.block 3).label :=
    .edge (listed 1 (by decide)) make trivial (by decide)
  intro bb inside
  simp only [collectBesideUse, List.mem_cons, List.not_mem_nil, or_false] at inside
  rcases inside with rfl | rfl | rfl | rfl
  · exact entry
  · exact make
  · exact collect
  · exact use

theorem collectBesideUseMapped : verifyFunction collectBesideUse = [] ∧
    (∀ bb ∈ collectBesideUse.blocks, Reaches collectBesideUse bb.label) ∧ ∃ g ivs,
      run X64.registerFile (FlowGraph.ofFunc collectBesideUse)
        (DomTree.ofFunc collectBesideUse (FlowGraph.ofFunc collectBesideUse)) collectBesideUse =
          (g, .ok ()) ∧
      Intervals.ofFunc collectBesideUse
        (Liveness.ofFunc collectBesideUse (FlowGraph.ofFunc collectBesideUse)) = .ok ivs ∧
      ∀ b k bb call, g.blocks[b]? = some bb → bb.insts[k]? = some call → call.op = .call →
        ∃ c ∈ ivs.calls, c.block = b ∧ c.index = k ∧ MapsCall ivs g c call :=
  ⟨by decide, collectBesideUseReachable,
    allocationMapsCalls (by decide) collectBesideUseReachable⟩

/-- The map of the call beside lists the slot of the reference, although nothing is live after
that call and every run comes to it with nothing stored in the slot. -/
theorem collectBesideUseListsDead : verifyFunction collectBesideUse = [] ∧
    (∀ bb ∈ collectBesideUse.blocks, Reaches collectBesideUse bb.label) ∧
    Missing collectBesideUse 1 "collect" ∧ ∃ g call slot,
      run X64.registerFile (FlowGraph.ofFunc collectBesideUse)
        (DomTree.ofFunc collectBesideUse (FlowGraph.ofFunc collectBesideUse)) collectBesideUse =
          (g, .ok ()) ∧
      (g.block 2).insts[0]? = some call ∧ call.op = .call ∧ slot ∈ call.safepointSlots ∧
      g.location 1 = .slot slot ∧ g.liveAt 2 1 = [] := by
  have verified : verifyFunction collectBesideUse = [] := by decide
  obtain ⟨g, ivs, ran, -, scanned, -, -, -, recorded⟩ :=
    runScanned registersConsistent (verifiedIff.mp verified) collectBesideUseReachable
  have first : collectBesideUse.blocks =
    collectBesideUse.block 0 :: collectBesideUse.blocks.tail := rfl
  have missing : Missing collectBesideUse 1 "collect" :=
    .edge (List.mem_of_getElem? (Func.blockBelow (b := 0) (by decide))) (.entry first) (by decide)
      (by decide)
  -- the call follows the definition in the layout and comes before the use
  have site : (⟨12, 2, 0⟩ : CallSite) ∈ ivs.calls := by
    rw [scanned.lists.calls]
    decide
  have made : Touched collectBesideUse 1 6 := by
    unfold Touched
    decide +kernel
  have used : Touched collectBesideUse 1 18 := by
    unfold Touched
    decide +kernel
  obtain ⟨slot, listed, home⟩ :=
    scanned.listed site (by decide) made (by decide) used (by decide)
  obtain ⟨bb, located, -, -, insts⟩ := scanned.code.symm.blockAt
    (Func.blockBelow (f := collectBesideUse) (b := 2) (by decide))
  obtain ⟨call, there, bare⟩ := Inst.ofBares (k := 0) insts rfl
  refine ⟨verified, collectBesideUseReachable, missing, g, call, slot, ran, ?_, ?_, ?_, home, ?_⟩
  · rw [Func.blockAt located, there]
  · exact (Inst.bareReads bare).1.symm
  · rw [recorded 2 0 bb call located there _ site rfl rfl]
    exact listed
  · rw [scanned.code.liveAt]
    decide

end RegAlloc

variable {regs : RegisterFile} {f : Func}

/-- Where the location verifier reports nothing, a reference that is live after a call is in a
slot that the call's map lists, or else in a register that callees keep, which no map lists. -/
theorem verifiedLocationsHoldReferences (structured : verifyFunction f = [])
    (locations : verifyLocations regs f = []) {b k v : Nat} {bb : Block} {call : Inst}
    (located : f.blocks[b]? = some bb) (there : bb.insts[k]? = some call) (called : call.op = .call)
    (live : v ∈ f.liveAt b (k + 1)) (other : call.result ≠ some v)
    (isRef : (f.valueType v).isRef = true) :
    (∃ slot ∈ call.safepointSlots, f.location v = .slot slot) ∨
      ∃ r, f.location v = .reg r ∧ regs.isAllocatable r = true ∧ regs.isCalleeSaved r = true := by
  have ok := verifiedIff.mp structured
  have fits := locatedIff.mp locations
  have below : b < f.blocks.length := (List.getElem?_eq_some_iff.mp located).1
  have inside : k + 1 ≤ bb.insts.length := (List.getElem?_eq_some_iff.mp there).1
  obtain ⟨pos, touched, -⟩ := liveSince located inside live
  have placed := fits.placed v (touchedBelow ok touched)
  have survives := (fits.keeps b k call (by rwa [Func.blockAt located]) below).call called v live other
  unfold Placed at placed
  unfold Survives at survives
  cases home : f.location v with
  | unassigned => simp [home] at placed
  | slot slot =>
    rw [home] at survives
    exact .inl ⟨slot, survives isRef, rfl⟩
  | reg r =>
    rw [home] at placed survives
    exact .inr ⟨r, rfl, placed.1, survives⟩

def collectThenReturn (home : Location) (slots : List Nat) : Func :=
  { signature := { params := [.r64], returns := [.r64] }
    blocks := [
      { label := "entry", params := [⟨0, .r64⟩]
        insts := [
          { op := .call, callee := "collect", enc := { recipe := 18 }, safepointSlots := slots },
          { op := .ret, operands := [.temp 0], enc := { recipe := 26 } }] }]
    valueTypes := [.r64]
    locations := [home]
    stackSlots := [{}] }

theorem slottedReferenceHeld : verifyFunction (collectThenReturn (.slot 0) [0]) = [] ∧
    verifyLocations X64.registerFile (collectThenReturn (.slot 0) [0]) = [] ∧
    0 ∈ (collectThenReturn (.slot 0) [0]).liveAt 0 1 ∧
    ((∃ slot ∈ [0], (collectThenReturn (.slot 0) [0]).location 0 = .slot slot) ∨
      ∃ r, (collectThenReturn (.slot 0) [0]).location 0 = .reg r ∧
        X64.registerFile.isAllocatable r = true ∧ X64.registerFile.isCalleeSaved r = true) :=
  ⟨by decide, by decide, by decide,
    verifiedLocationsHoldReferences (f := collectThenReturn (.slot 0) [0]) (b := 0) (k := 0)
      (v := 0) (by decide) (show verifyLocations X64.registerFile _ = [] by decide) rfl rfl rfl
      (by decide) nofun rfl⟩

theorem registerReferenceAccepted :
    verifyFunction (collectThenReturn (.reg X64.rbx) []) = [] ∧
    verifyLocations X64.registerFile (collectThenReturn (.reg X64.rbx) []) = [] ∧
    ∃ call, ((collectThenReturn (.reg X64.rbx) []).block 0).insts[0]? = some call ∧
      call.op = .call ∧ call.result = none ∧ 0 ∈ (collectThenReturn (.reg X64.rbx) []).liveAt 0 1 ∧
      ((collectThenReturn (.reg X64.rbx) []).valueType 0).isRef = true ∧
      ∀ slot ∈ call.safepointSlots, (collectThenReturn (.reg X64.rbx) []).location 0 ≠ .slot slot :=
  ⟨by decide, by decide, _, rfl, rfl, rfl, by decide, rfl, by decide⟩

end SsaCodegen
