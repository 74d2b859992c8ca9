import SsaCodegen.Proofs.Ir.Machine
import SsaCodegen.Proofs.Verify.Locations
/-! Locations that the verifier accepts keep every value for as long as it is read. A run
with values in their locations and a run with values under their names agree on whatever
is live, and so on all they read and on the way they go. -/
namespace SsaCodegen
open FlowGraph Machine

variable {regs : RegisterFile} {f : Func}

theorem Func.blockBelow {b : Nat} (below : b < f.blocks.length) :
    f.blocks[b]? = some (f.block b) := by
  simp [Func.block, below]

theorem liveAtStep {b i : Nat} {inst : Inst} (there : (f.block b).insts[i]? = some inst) :
    f.liveAt b i = inst.liveBefore f.numValues (f.liveAt b (i + 1)) := by
  obtain ⟨below, rfl⟩ := List.getElem?_eq_some_iff.mp there
  unfold Func.liveAt
  rw [List.drop_eq_getElem_cons below]
  rfl

theorem ascendingAt (b i : Nat) : (f.liveAt b i).Pairwise (· < ·) :=
  ascendingFrom (Liveness.ascendingOut _ b) _

theorem memLiveAt {b i v : Nat} {inst : Inst} (there : (f.block b).insts[i]? = some inst) :
    v ∈ f.liveAt b i ↔ (v ∈ inst.usedTemps ∧ v < f.numValues) ∨
      (v ∈ f.liveAt b (i + 1) ∧ inst.result ≠ some v) := by
  rw [liveAtStep there, Inst.memLiveBefore (ascendingAt b (i + 1))]

namespace WellFormed
variable (ok : WellFormed f)
include ok

theorem allocated {id : Nat} (defined : id ∈ f.definedIds) : id < f.numValues := by
  obtain ⟨bb, inside, defines⟩ := Func.memDefinedIds.mp defined
  have declared := ok.declared bb inside
  rcases Block.memDefinedIds.mp defines with param | ⟨inst, there, result⟩
  · obtain ⟨p, listed, rfl⟩ := List.mem_map.mp param
    exact (List.getElem?_eq_some_iff.mp (declared.params p listed)).1
  · exact (List.getElem?_eq_some_iff.mp (declared.results inst there id result)).1

theorem usedIsLive {b i : Nat} {inst : Inst} (below : b < f.blocks.length)
    (there : (f.block b).insts[i]? = some inst) {id : Nat} (used : id ∈ inst.usedTemps) :
    id ∈ f.liveAt b i := by
  have sound := ok.sound _ (List.mem_of_getElem? (Func.blockBelow below)) inst
    (List.mem_of_getElem? there)
  exact (memLiveAt there).mpr (.inl ⟨used, ok.allocated (sound.defined id used)⟩)

theorem terminatorAt {b i : Nat} {inst : Inst} (below : b < f.blocks.length)
    (there : (f.block b).insts[i]? = some inst) (ends : inst.isTerminator = true) :
    i + 1 = (f.block b).insts.length ∧ (f.block b).targets = inst.targets := by
  obtain ⟨body, last, same, final, inner⟩ :=
    ok.ended _ (List.mem_of_getElem? (Func.blockBelow below))
  have index : i = body.length := by
    have inside := (List.getElem?_eq_some_iff.mp there).1
    rw [same, List.length_append, List.length_singleton] at inside
    refine Nat.le_antisymm (by omega) (Nat.le_of_not_lt fun before => ?_)
    rw [same, List.getElem?_append_left before] at there
    exact absurd ((inner inst (List.mem_of_getElem? there)).symm.trans ends) Bool.false_ne_true
  subst index
  rw [same, List.getElem?_append_right (Nat.le_refl _), Nat.sub_self] at there
  cases Option.some.inj there
  exact ⟨by simp [same], Ended.targets same final⟩

theorem edgeAt {b i edge t : Nat} {inst : Inst} (below : b < f.blocks.length)
    (there : (f.block b).insts[i]? = some inst)
    (target : inst.targets[edge]?.bind f.findBlock? = some t) :
    t < f.blocks.length ∧ (inst.argsOf edge).length = (f.block t).params.length ∧
      ∀ v ∈ inst.argsOf edge, v ∈ inst.uses := by
  obtain ⟨label, named, found⟩ := Option.bind_eq_some_iff.mp target
  have sound := ok.sound _ (List.mem_of_getElem? (Func.blockBelow below)) inst
    (List.mem_of_getElem? there)
  obtain ⟨inside, -⟩ := List.getElem?_eq_some_iff.mp named
  have lists := sound.lists (List.ne_nil_of_length_pos (by omega))
  have args : inst.targetArgs[edge]? = some (inst.argsOf edge) := by
    simp [Inst.argsOf, lists, inside]
  have pair : (label, inst.argsOf edge) ∈ inst.targets.zip inst.targetArgs := by
    refine List.mem_of_getElem? (i := edge) ?_
    rw [List.getElem?_zip_eq_some]
    exact ⟨named, args⟩
  obtain ⟨bb, home, same, length, -⟩ := sound.edges _ pair
  obtain ⟨bb', located, same'⟩ := Func.findBlockSound found
  cases Func.sameOfLabel ok.labels (List.mem_of_mem_tail home) (List.mem_of_getElem? located)
    (same.trans same'.symm)
  refine ⟨(List.getElem?_eq_some_iff.mp located).1, by rw [Func.blockAt located]; exact length,
    fun v listed => List.mem_append_right _ ?_⟩
  exact List.mem_flatten.mpr ⟨_, List.mem_of_getElem? args, listed⟩

theorem edgeLive {b i edge t v : Nat} {inst : Inst} (below : b < f.blocks.length)
    (there : (f.block b).insts[i]? = some inst) (ends : inst.isTerminator = true)
    (target : inst.targets[edge]?.bind f.findBlock? = some t) (live : v ∈ f.liveAt t 0)
    (other : v ∉ (f.block t).paramIds) : v ∈ f.liveAt b i := by
  obtain ⟨last, targets⟩ := ok.terminatorAt below there ends
  have sound := ok.sound _ (List.mem_of_getElem? (Func.blockBelow below)) inst
    (List.mem_of_getElem? there)
  have quiet := resultOfTerminator sound.shape ends
  refine (memLiveAt there).mpr (.inr ⟨?_, by simp [quiet]⟩)
  obtain ⟨inside, -⟩ := ok.edgeAt below there target
  obtain ⟨allocated, into⟩ := (Liveness.liveAtStart (Func.blockBelow inside)
    (by simpa only [Func.liveAt, List.drop_zero] using live)).resolve_left other
  unfold Func.liveAt
  rw [last, List.drop_length]
  refine (Liveness.memLiveOut (Func.blockBelow below)).mpr ⟨allocated, t, ?_, into⟩
  obtain ⟨label, named, found⟩ := Option.bind_eq_some_iff.mp target
  exact memTargetsOf.mpr ⟨label, targets ▸ List.mem_of_getElem? named, found⟩

end WellFormed

namespace Located
variable (fits : Located regs f)
include fits

theorem assigned {id : Nat} (defined : id ∈ f.definedIds) : f.location id ≠ .unassigned := by
  intro nowhere
  have placed := fits.placed id defined
  simp [Placed, nowhere] at placed

theorem resultDiffers {b i : Nat} {inst : Inst} (below : b < f.blocks.length)
    (there : (f.block b).insts[i]? = some inst) {id v : Nat} (result : inst.result = some id)
    (live : v ∈ f.liveAt b (i + 1)) (other : v ≠ id) : f.location v ≠ f.location id := by
  refine ((fits.keeps b i inst there below).result id result v live other).differ ?_
  refine fits.assigned (Func.memDefinedIds.mpr ?_)
  exact ⟨_, List.mem_of_getElem? (Func.blockBelow below),
    Block.memDefinedIds.mpr (.inr ⟨inst, List.mem_of_getElem? there, result⟩)⟩

theorem paramDiffers {b : Nat} (below : b < f.blocks.length) {id v : Nat}
    (param : id ∈ (f.block b).paramIds) (live : v ∈ (f.block b).paramIds ∨ v ∈ f.liveAt b 0)
    (other : v ≠ id) : f.location v ≠ f.location id := by
  have keeps := fits.params b below
  have home {id : Nat} (param : id ∈ (f.block b).paramIds) : f.location id ≠ .unassigned :=
    fits.assigned (Func.memDefinedIds.mpr ⟨_, List.mem_of_getElem? (Func.blockBelow below),
      Block.memDefinedIds.mpr (.inl param)⟩)
  by_cases also : v ∈ (f.block b).paramIds
  · obtain ⟨i, hi, rfl⟩ := List.mem_iff_getElem.mp also
    obtain ⟨j, hj, rfl⟩ := List.mem_iff_getElem.mp param
    have apart := List.pairwise_iff_getElem.mp keeps.others
    rcases Nat.lt_trichotomy i j with before | rfl | after
    · exact (apart i j hi hj before).differ (home param)
    · exact absurd rfl other
    · exact ((apart j i hj hi after).differ (home also)).symm
  · exact (keeps.live id param v (live.resolve_left also) also).differ (home param)

end Located

section Agreement
variable {Word World : Type}

def Agree (f : Func) (among : Nat → Prop) (env : Nat → Word) (cells : Cells Word) : Prop :=
  ∀ v, among v → env v = cells.held (f.location v)

variable {among : Nat → Prop} {env : Nat → Word} {cells : Cells Word} {m : Meaning Word World}
  {junk : Nat → Nat → Word}

theorem Agree.sameValue {v : Value} (agree : Agree f among env cells)
    (known : ∀ id, v = .temp id → among id) :
    value m (located regs f junk) cells v = value m named env v := by
  cases v with
  | temp id => exact (agree id (known id rfl)).symm
  | _ => rfl

theorem Agree.sameValues {values : List Value} (agree : Agree f among env cells)
    (known : ∀ id, .temp id ∈ values → among id) :
    values.map (value m (located regs f junk) cells) = values.map (value m named env) :=
  List.map_congr_left fun _ inside => agree.sameValue fun id same => known id (same ▸ inside)

theorem Agree.write {id : Nat} {word : Word} (agree : Agree f (fun v => among v ∧ v ≠ id) env cells)
    (differ : ∀ v, among v → v ≠ id → f.location v ≠ f.location id) :
    Agree f among (named.write env id word) ((located regs f junk).write cells id word) := by
  intro v tracked
  by_cases own : v = id
  · simp [named, located, own]
  · simp only [named, located, if_neg own, if_neg (differ v tracked own)]
    exact agree v ⟨tracked, own⟩

theorem Agree.assign {pairs : List (Nat × Word)}
    (agree : Agree f (fun v => among v ∧ v ∉ pairs.map Prod.fst) env cells)
    (differ : ∀ id ∈ pairs.map Prod.fst, ∀ v, among v → v ≠ id → f.location v ≠ f.location id) :
    Agree f among (assign named env pairs) (assign (located regs f junk) cells pairs) := by
  induction pairs generalizing env cells with
  | nil => exact fun v tracked => agree v ⟨tracked, List.not_mem_nil⟩
  | cons pair rest ih =>
    refine ih ?_ fun id listed => differ id (List.mem_cons_of_mem _ listed)
    refine Agree.write (fun v ⟨⟨tracked, later⟩, own⟩ => agree v ⟨tracked, ?_⟩)
      fun v tracked own => differ pair.1 List.mem_cons_self v tracked.1 own
    exact fun listed => (List.mem_cons.mp listed).elim own later

theorem Agree.across {inst : Inst} (agree : Agree f among env cells)
    (survives : inst.op = .call → ∀ v, among v → Survives regs f inst v) :
    Agree f among env ((located regs f junk).across inst cells) := by
  intro v tracked
  rw [agree v tracked]
  by_cases called : inst.op = .call
  · have safe := survives called v tracked
    simp only [located, if_pos called, Cells.clobber]
    unfold Survives at safe
    cases home : f.location v with
    | reg n =>
      simp only [home] at safe
      simp only [if_pos safe]
    | _ => rfl
  · simp only [located, if_neg called]

structure Related (f : Func) (s : State (Nat → Word) World) (u : State (Cells Word) World) :
    Prop where
  block : u.block = s.block
  index : u.index = s.index
  world : u.world = s.world
  inside : s.block < f.blocks.length
  agree : Agree f (· ∈ f.liveAt s.block s.index) s.store u.store

inductive Together (f : Func) : Option (Event Word World × Option (State (Nat → Word) World)) →
    Option (Event Word World × Option (State (Cells Word) World)) → Prop where
  | stops : Together f none none
  | last (event) : Together f (some (event, none)) (some (event, none))
  | next {s u} (event) (related : Related f s u) :
      Together f (some (event, some s)) (some (event, some u))

theorem pairNames {ids : List Nat} {words : List Word} (enough : ids.length ≤ words.length) :
    (ids.zip words).map Prod.fst = ids := by
  rw [List.map_fst_zip enough]

theorem bindParams (fits : Located regs f) {b : Nat} (below : b < f.blocks.length)
    {pairs : List (Nat × Word)} (names : pairs.map Prod.fst = (f.block b).paramIds)
    (agree : Agree f (fun v => v ∈ f.liveAt b 0 ∧ v ∉ (f.block b).paramIds) env cells) :
    Agree f (· ∈ f.liveAt b 0) (assign named env pairs)
      (assign (located regs f junk) cells pairs) := by
  refine Agree.assign (names ▸ agree) fun id listed v live other => ?_
  exact fits.paramDiffers below (names ▸ listed) (.inr live) other

theorem stepTogether (ok : WellFormed f) (fits : Located regs f) {s : State (Nat → Word) World}
    {u : State (Cells Word) World} (related : Related f s u) :
    Together f (step m named f s) (step m (located regs f junk) f u) := by
  have inside := related.inside
  unfold step
  rw [related.block, related.index, related.world]
  cases there : (f.block s.block).insts[s.index]? with
  | none => exact .stops
  | some inst =>
    have reads {values : List Value} (present : ∀ v ∈ values, v ∈ inst.uses) :
        values.map (value m (located regs f junk) u.store) =
          values.map (value m named s.store) := by
      refine related.agree.sameValues fun id listed => ok.usedIsLive inside there ?_
      exact List.mem_filterMap.mpr ⟨_, present _ listed, rfl⟩
    have operands := reads fun v (listed : v ∈ inst.operands) => List.mem_append_left _ listed
    simp only [operands]
    split
    · rename_i ends
      cases m.choose inst (inst.operands.map (value m named s.store)) s.world with
      | none => exact .last _
      | some chosen =>
        obtain ⟨edge, world⟩ := chosen
        simp only
        cases target : inst.targets[edge]?.bind f.findBlock? with
        | none => exact .last _
        | some t =>
          obtain ⟨below, length, listed⟩ := ok.edgeAt inside there target
          have args := reads listed
          simp only [args]
          refine .next _ ⟨rfl, rfl, rfl, below, bindParams fits below ?_ fun v ⟨live, other⟩ => ?_⟩
          · refine pairNames (Nat.le_of_eq ?_)
            rw [List.length_map, length, Block.paramIds, List.length_map]
          · exact related.agree v (ok.edgeLive inside there ends target live other)
    · cases m.act inst (inst.operands.map (value m named s.store)) s.world with
      | none => exact .last _
      | some acted =>
        obtain ⟨word, world⟩ := acted
        simp only
        refine .next _ ⟨rfl, rfl, rfl, inside, ?_⟩
        have survivors : Agree f (fun v => v ∈ f.liveAt s.block (s.index + 1) ∧
            inst.result ≠ some v) s.store ((located regs f junk).across inst u.store) := by
          refine Agree.across (fun v tracked => ?_) fun called v tracked => ?_
          · exact related.agree v ((memLiveAt there).mpr (.inr tracked))
          · exact (fits.keeps s.block s.index inst there inside).call called v tracked.1 tracked.2
        cases result : inst.result with
        | none => exact fun v live => survivors v ⟨live, by simp [result]⟩
        | some id =>
          change Agree f _ (named.write s.store id word) ((located regs f junk).write _ id word)
          refine Agree.write (fun v tracked => survivors v ⟨tracked.1, ?_⟩) fun v live other =>
            fits.resultDiffers inside there result live other
          rw [result]
          exact fun same => tracked.2 (Option.some.inj same).symm

theorem traceSame (ok : WellFormed f) (fits : Located regs f) (n : Nat)
    {s : State (Nat → Word) World} {u : State (Cells Word) World} (related : Related f s u) :
    trace m (located regs f junk) f n u = trace m named f n s := by
  induction n generalizing s u with
  | zero => rfl
  | succ n ih =>
    have together : Together f (step m named f s) (step m (located regs f junk) f u) :=
      stepTogether ok fits related
    rw [trace, trace]
    generalize step m named f s = a, step m (located regs f junk) f u = b at together
    cases together with
    | stops => rfl
    | last event => rfl
    | next event related => simp only [ih related]

theorem startRelated (ok : WellFormed f) (fits : Located regs f) (args : Nat → Word)
    (world : World) : Related f (start named f env args world)
      (start (located regs f junk) f cells args world) := by
  obtain ⟨entry, rest, opens⟩ := ok.entry
  have below : 0 < f.blocks.length := by simp [opens.blocks]
  refine ⟨rfl, rfl, rfl, below, bindParams fits below ?_ fun v ⟨live, other⟩ => ?_⟩
  · rw [List.map_map]
    exact List.zipIdx_map_fst 0 _
  · have into := (Liveness.liveAtStart (Func.blockBelow below)
      (by simpa only [Func.liveAt, List.drop_zero] using live)).resolve_left other
    exact absurd into.2 (notLiveIntoEntry ok)

/-- Whatever instructions mean, whatever calls leave in registers and whatever the stores
held before: a run in verified locations reads what a run under names reads, and goes
the same way. -/
theorem verifiedLocationsKeepRuns (structured : verifyFunction f = [])
    (locations : verifyLocations regs f = []) (m : Meaning Word World) (junk : Nat → Nat → Word)
    (env : Nat → Word) (cells : Cells Word) (args : Nat → Word) (world : World) (n : Nat) :
    trace m (located regs f junk) f n (start (located regs f junk) f cells args world) =
      trace m named f n (start named f env args world) := by
  have ok := verifiedIff.mp structured
  have fits := locatedIff.mp locations
  exact traceSame ok fits n (startRelated ok fits args world)

end Agreement

def twoRegisters : RegisterFile :=
  { names := ["a", "b"], classes := [.gpr, .gpr], allocatableGpr := [0, 1], allocatableFpr := [],
    calleeSaved := [1] }

def callUntilZero : Func :=
  { signature := { params := [.i64], returns := [.i64] }
    blocks := [
      { label := "entry", params := [⟨0, .i64⟩]
        insts := [{ jumpTo "again" [.temp 0] {} with enc := { recipe := 1 } }] },
      { label := "again", params := [⟨1, .i64⟩]
        insts := [
          { result := some 2, op := .call, ty := .i64, operands := [.temp 1], callee := "next",
            enc := { recipe := 1 } },
          { op := .brif, operands := [.temp 2], targets := ["again", "done"],
            targetArgs := [[.temp 1], []], enc := { recipe := 1 } }] },
      { label := "done", insts := [{ op := .ret, operands := [.temp 1], enc := { recipe := 1 } }] }]
    valueTypes := [.i64, .i64, .i64]
    locations := [.reg 0, .reg 1, .reg 0] }

def countDown : Meaning Nat Nat where
  literal _ := 0
  act _ _ left := some (left, left - 1)
  choose inst words left := if inst.op = .ret then none else some (if words = [0] then 1 else 0, left)

theorem callUntilZeroKeepsRuns : verifyFunction callUntilZero = [] ∧
    verifyLocations twoRegisters callUntilZero = [] ∧
    trace countDown (located twoRegisters callUntilZero fun _ _ => 9) callUntilZero 12
        (start (located twoRegisters callUntilZero fun _ _ => 9) callUntilZero ⟨fun _ => 7, 0⟩
          (fun _ => 5) 2) =
      trace countDown named callUntilZero 12
        (start named callUntilZero (fun _ => 8) (fun _ => 5) 2) :=
  ⟨by decide, by decide +kernel, verifiedLocationsKeepRuns (by decide) (by decide +kernel) _ _ _ _ _ _ _⟩

end SsaCodegen
