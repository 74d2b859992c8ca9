import SsaCodegen.Proofs.Layout.Emission
import SsaCodegen.Proofs.Pipeline.Operations
/-! Emission into a buffer. A session knows its final layout by a flag and by sizes, which
a layout sets and everything that starts anew takes back. As long as the function is the
one that was laid out, the buffer gets all of the code or nothing. A pass leaves the flag
alone, so a function that it rewrote is emitted under the sizes of the old one. -/
namespace SsaCodegen
open X64 (Target LaidOut emitFunction)
namespace Session

/-- The function and the sizes of the last layout, as long as no later layout failed and no
other function took its place. -/
def lastLayout (known : Option (Func × CodeInfo)) (s : Session) :
    List Operation → Option (Func × CodeInfo)
  | [] => known
  | op :: rest =>
    let (u, result) := op.apply s
    let known := match op, result with
      | .compile _, .ok (some info) | .compileAndEmit _, .ok (some info) | .relax _, .ok (some info) =>
        some (u.func, info)
      | .compile _, _ | .compileAndEmit _, _ | .relax _, _ | .setFunction _, _ | .clear, _ => none
      | _, _ => known
    lastLayout known u rest

def Backed (s : Session) : Option (Func × CodeInfo) → Prop
  | none => s.laidOut = false
  | some (f, info) => s.laidOut = true ∧ s.info = info ∧
    ∃ limit < 4294967296, LaidOut limit f info

theorem Backed.same {s u : Session} {known : Option (Func × CodeInfo)} (backed : Backed s known)
    (flag : u.laidOut = s.laidOut) (info : u.info = s.info) : Backed u known := by
  cases known with
  | none => exact flag.trans backed
  | some layout => exact ⟨flag.trans backed.1, info.trans backed.2.1, backed.2.2⟩

theorem performFlag (s : Session) (t : Target) (stage : Stage) :
    (s.perform t stage).1.laidOut = s.laidOut := by
  cases stage <;> try rfl
  all_goals
    simp only [perform, legalizeFunction, removeUnreachableBlocks, layOut]
    split <;> rfl

theorem performInfo (s : Session) (t : Target) {stage : Stage} (pass : stage.isPass = true) :
    (s.perform t stage).1.info = s.info := by
  cases stage <;> try rfl
  case relaxBranches => cases pass
  all_goals
    simp only [perform, legalizeFunction, removeUnreachableBlocks]
    split <;> rfl

theorem runStageFlag (s : Session) (t : Target) (stage : Stage) :
    (s.runStage t stage).1.laidOut = s.laidOut := by
  obtain ⟨before, after, result, same, worked, ended, -⟩ := runStageWorks s t stage
  have kept := performFlag before t stage
  rw [worked] at kept
  exact ended.laidOut.symm.trans (kept.trans same.laidOut.symm)

theorem runStageInfo (s : Session) (t : Target) {stage : Stage} (pass : stage.isPass = true) :
    (s.runStage t stage).1.info = s.info := by
  obtain ⟨before, after, result, same, worked, ended, -⟩ := runStageWorks s t stage
  have kept := performInfo before t pass
  rw [worked] at kept
  exact ended.info.symm.trans (kept.trans same.info.symm)

theorem runStagesFlag (s : Session) (t : Target) (stages : List Stage) :
    (runStages t stages s).1.laidOut = s.laidOut := by
  induction stages generalizing s with
  | nil => rfl
  | cons stage rest ih =>
    have kept := runStageFlag s t stage
    simp only [runStages]
    cases ran : s.runStage t stage with
    | mk u result =>
      rw [ran] at kept
      cases result with
      | error e => exact (Alike.trace u t _).laidOut.symm.trans kept
      | ok => exact (ih u).trans kept

theorem compileFlag (s : Session) (t : Target) :
    (s.compile t).1.laidOut = (s.compile t).2.toOption.isSome := by
  obtain ⟨begun, same, compiled⟩ := compileWorks s t
  have kept := runStagesFlag begun t (Stage.activeFor t.flags)
  rw [← same.laidOut] at kept
  split at compiled
  · rw [compiled]
    exact same.laidOut.symm
  · rename_i u e _ ran
    rw [ran] at kept
    rw [compiled]
    exact kept
  · obtain ⟨ended, last, compiled⟩ := compiled
    rw [compiled]
    exact last.laidOut.symm

theorem limitIsWord (t : Target) : t.limits.functionLimit < 4294967296 :=
  (BitVec.ofNat 32 t.limits.maxFunctionBytes).isLt

theorem compileBacked (s : Session) (t : Target) :
    match s.compile t with
    | (u, .ok info) => Backed u (some (u.func, info))
    | (u, .error _) => Backed u none := by
  have flag := compileFlag s t
  split
  · rename_i u info done
    obtain ⟨laid, known⟩ := laidOutCompile done
    rw [done] at flag
    exact ⟨flag, known, _, limitIsWord t, laid⟩
  · rename_i u e failed
    rw [failed] at flag
    exact flag

theorem relaxBacked (s : Session) (t : Target) :
    match s.relax t with
    | (u, .ok info) => Backed u (some (u.func, info))
    | (u, .error _) => Backed u none := by
  unfold relax
  have kept := runStageFlag { s with laidOut := false } t .relaxBranches
  cases ran : Session.runStage { s with laidOut := false } t .relaxBranches with
  | mk u result =>
    rw [ran] at kept
    cases result with
    | error e => exact kept
    | ok =>
      obtain ⟨before, after, -, work, same, -⟩ := runStageDone ran
      refine ⟨rfl, rfl, _, limitIsWord t, ?_⟩
      simp only [perform, layOut] at work
      split at work
      · rename_i info found
        obtain ⟨rfl, -⟩ := Prod.mk.inj work
        show LaidOut _ u.func u.info
        rw [← same.func, ← same.info]
        exact X64.laidOutRelax (Prod.ext rfl found)
      · cases (Prod.mk.inj work).2

theorem applyBacked {s : Session} {known : Option (Func × CodeInfo)} (backed : Backed s known)
    (op : Operation) (rest : List Operation) :
    ∃ next, Backed (op.apply s).1 next ∧
      lastLayout known s (op :: rest) = lastLayout next (op.apply s).1 rest := by
  cases op with
  | setFunction f => exact ⟨none, rfl, rfl⟩
  | clear => exact ⟨none, rfl, rfl⟩
  | compile t =>
    have made := compileBacked s t
    simp only [lastLayout, Operation.apply]
    cases done : s.compile t with
    | mk u result =>
      rw [done] at made
      cases result with
      | error e => exact ⟨_, made, rfl⟩
      | ok info => exact ⟨_, made, rfl⟩
  | compileAndEmit t =>
    have made := compileBacked s t
    simp only [lastLayout, Operation.apply, compileAndEmit]
    cases done : s.compile t with
    | mk u result =>
      rw [done] at made
      cases result with
      | error e => exact ⟨_, made, rfl⟩
      | ok info =>
        obtain ⟨limit, word, laid⟩ := made.2.2
        have announced := X64.announcedSizes laid word
        refine ⟨some (u.func, info), made.same rfl rfl, ?_⟩
        simp only [Except.map, announced]
        rfl
  | pass t p => exact ⟨known, backed.same (runStageFlag s t p.1) (runStageInfo s t p.2), rfl⟩
  | relax t =>
    have made := relaxBacked s t
    simp only [lastLayout, Operation.apply]
    cases done : s.relax t with
    | mk u result =>
      rw [done] at made
      cases result with
      | error e => exact ⟨_, made, rfl⟩
      | ok info => exact ⟨_, made, rfl⟩
  | emitInto buffer =>
    refine ⟨known, ?_, rfl⟩
    simp only [Operation.apply, emitInto]
    split
    · exact backed
    · split
      · exact backed
      · exact backed.same rfl rfl
  | computeGraph | computeTree | computeLoops | computeFlow | graph | tree | loops =>
    exact ⟨known, backed.same rfl rfl, rfl⟩

theorem afterBacked {s : Session} {known : Option (Func × CodeInfo)} (backed : Backed s known)
    (ops : List Operation) : Backed (s.after ops) (lastLayout known s ops) := by
  induction ops generalizing s known with
  | nil => exact backed
  | cons op rest ih =>
    obtain ⟨next, backed, same⟩ := applyBacked backed op rest
    rw [same]
    exact ih backed

def Refused (out : BufferEmission) (buffer : List Byte) (e : Failure) : Prop :=
  out.result = .error e ∧ out.buffer = buffer ∧ out.emitted = {}

def Filled (out : BufferEmission) (buffer : List Byte) (info : CodeInfo) : Prop :=
  out.result = .ok info ∧ out.emitted.bytes.length = info.totalSize ∧
    out.buffer = out.emitted.bytes ++ buffer.drop info.totalSize

/-- Without a layout, or with too little room, the buffer is left alone and nothing is noted.
With room for it, the function that was laid out last is emitted under the sizes announced
then. -/
theorem emissionFillsOrRefuses (start : Func) (ops : List Operation) (buffer : List Byte) :
    let s := (ofFunc start).after ops
    let out := (s.emitInto buffer).2
    match lastLayout none (ofFunc start) ops with
    | none => Refused out buffer (.noFinalLayout s.func.name)
    | some (f, info) =>
      (buffer.length < info.totalSize →
        Refused out buffer (.bufferTooSmall buffer.length info.totalSize)) ∧
      (info.totalSize ≤ buffer.length → s.func = f → Filled out buffer info) := by
  have fresh : Backed (ofFunc start) none := rfl
  have backed := afterBacked fresh ops
  generalize Session.after (ofFunc start) ops = s at backed
  cases layout : lastLayout none (ofFunc start) ops with
  | none =>
    rw [layout] at backed
    have flag : s.laidOut = false := backed
    simp only [emitInto, flag]
    exact ⟨rfl, rfl, rfl⟩
  | some known =>
    obtain ⟨f, info⟩ := known
    rw [layout] at backed
    obtain ⟨flag, rfl, limit, word, laid⟩ := backed
    simp only [emitInto, flag, Bool.not_true, Bool.false_eq_true, if_false]
    constructor
    · intro small
      rw [if_pos small]
      exact ⟨rfl, rfl, rfl⟩
    · intro room same
      subst same
      have size : (emitFunction s.func).emitted.bytes.length = s.info.totalSize :=
        (X64.realizesLayout laid).size
      have fits : (emitFunction s.func).offset ≤ buffer.length := by
        rw [CodeSink.offset, Emission.size, size]
        exact room
      rw [if_neg (Nat.not_lt.mpr room)]
      refine ⟨?_, size, ?_⟩
      · rw [if_pos fits, X64.announcedSizes laid word]
      · rw [overwriteStart, List.take_of_length_le (size ▸ room), size]

def fiveBesideUnused : Func :=
  { signature := { returns := [.i64] }
    blocks := [
      { label := "entry"
        insts := [
          { result := some 0, op := .iconst, ty := .i64, operands := [.int 6] },
          { op := .ret, operands := [.int 5] }] }]
    valueTypes := [.i64] }

def atFastest : Target := { flags := { optLevel := .fastest } }

def compiledThen (more : List Operation) : List Operation :=
  .setFunction fiveBesideUnused :: .compile atFastest :: more

theorem legalizedAgainFills : ∃ f info,
    lastLayout none (ofFunc {}) (compiledThen [.pass atFastest ⟨.legalize, rfl⟩]) = some (f, info) ∧
      info.totalSize ≤ 64 ∧
      ((ofFunc {}).after (compiledThen [.pass atFastest ⟨.legalize, rfl⟩])).func = f ∧
      Filled (((ofFunc {}).after (compiledThen [.pass atFastest ⟨.legalize, rfl⟩])).emitInto
        (List.replicate 64 0xAA)).2 (List.replicate 64 0xAA) info := by
  have whole := emissionFillsOrRefuses {} (compiledThen [.pass atFastest ⟨.legalize, rfl⟩])
    (List.replicate 64 0xAA)
  have same : (lastLayout none (ofFunc {}) (compiledThen [.pass atFastest ⟨.legalize, rfl⟩])).map
      (fun known => (decide (known.2.totalSize ≤ 64), known.1)) =
      some (true, ((ofFunc {}).after (compiledThen [.pass atFastest ⟨.legalize, rfl⟩])).func) := by
    decide +kernel
  obtain ⟨known, layout, facts⟩ := Option.map_eq_some_iff.mp same
  obtain ⟨room, func⟩ := Prod.mk.inj facts
  rw [layout] at whole
  have room : known.2.totalSize ≤ 64 := of_decide_eq_true room
  exact ⟨known.1, known.2, layout, room, func.symm, whole.2 (by simpa using room) func.symm⟩

/-- Without the unused constant the code has other sizes than were announced; and code whose
short encodings are undone stops at the end of a buffer that it has overwritten. -/
theorem rewrittenFunctionEmitted :
    let swept := compiledThen [.pass atFastest ⟨.eliminateDeadCode, rfl⟩]
    let grown := compiledThen [.pass atFastest ⟨.shrinkInstructions, rfl⟩, .relax atFastest,
      .pass atFastest ⟨.legalize, rfl⟩]
    (lastLayout none (ofFunc {}) swept).map Prod.snd = some ⟨31, 0, 0, 31⟩ ∧
      (((ofFunc {}).after swept).emitInto (List.replicate 64 0xAA)).2.result.toOption =
        some ⟨21, 0, 0, 21⟩ ∧
      (lastLayout none (ofFunc {}) grown).map Prod.snd = some ⟨26, 0, 0, 26⟩ ∧
      (((ofFunc {}).after grown).emitInto (List.replicate 26 0xAA)).2.result.toOption = none ∧
      (((ofFunc {}).after grown).emitInto (List.replicate 26 0xAA)).2.buffer ≠
        List.replicate 26 0xAA := by
  decide +kernel

end Session
end SsaCodegen
