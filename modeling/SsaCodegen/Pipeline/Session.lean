import SsaCodegen.Flow.Cache
import SsaCodegen.Ir.Printer
import SsaCodegen.Opt.CompareBranch
import SsaCodegen.Opt.ConstantFold
import SsaCodegen.Opt.DeadCode
import SsaCodegen.Opt.LoopInvariant
import SsaCodegen.Opt.NanGuard
import SsaCodegen.Opt.Unreachable
import SsaCodegen.Opt.ValueNumbering
import SsaCodegen.Pipeline.Stage
import SsaCodegen.RegAlloc.LinearScan
import SsaCodegen.Timings
import SsaCodegen.Verify.Locations
import SsaCodegen.Verify.Structure
import SsaCodegen.X64.Frame
import SsaCodegen.X64.LabelRanges
import SsaCodegen.X64.Layout
import SsaCodegen.X64.Legalize
import SsaCodegen.X64.Shrink
/-! Compilation of a function. A session holds one function with its cached analyses,
runs stages on it and writes down what it did. A stage that fails leaves the function
as far as it came. -/
namespace SsaCodegen
open X64 (Target)

inductive Event where
  | stageBegan (stage : Stage)
  | stageEnded (stage : Stage)
  | emitting (regionBytes : Nat) (info : CodeInfo)
  | printed (text : String)
  | traced (text : String)
  deriving DecidableEq, Repr

structure Session where
  func : Func := {}
  analyses : Analyses := {}
  allocator : RegAlloc.Allocator := {}
  info : CodeInfo := {}
  laidOut : Bool := false
  timings : Timings := {}
  printBefore : Bool := false
  printAfter : Bool := false
  events : List Event := []
  deriving DecidableEq, Repr, Inhabited

namespace Session

def ofFunc (f : Func) : Session := { func := f }

/-- Back to the empty function. Events and the runs of analyses stay. -/
def clear (s : Session) : Session :=
  { s with
    func := s.func.clear, analyses := s.analyses.drop, allocator := s.allocator.clear, info := {},
    laidOut := false, timings := {} }

def setFunction (s : Session) (f : Func) : Session :=
  let s := s.clear
  { s with func := { f with layoutVersion := s.func.layoutVersion + 1 } }

def stagesBegun (s : Session) : List Stage :=
  s.events.filterMap fun
    | .stageBegan stage => some stage
    | _ => none

def stagesEnded (s : Session) : List Stage :=
  s.events.filterMap fun
    | .stageEnded stage => some stage
    | _ => none

def regions (s : Session) : List (Nat × CodeInfo) :=
  s.events.filterMap fun
    | .emitting bytes info => some (bytes, info)
    | _ => none

def printedText (s : Session) : String :=
  String.join (s.events.filterMap fun
    | .printed text => some text
    | _ => none)

def tracedText (s : Session) : String :=
  String.join (s.events.filterMap fun
    | .traced text => some text
    | _ => none)

def note (s : Session) (e : Event) : Session := { s with events := s.events ++ [e] }

theorem stagesBegunNote (s : Session) (e : Event) :
    (s.note e).stagesBegun = s.stagesBegun ++
      match e with
      | .stageBegan stage => [stage]
      | _ => [] := by
  cases e <;> simp [note, stagesBegun]

def traceLine (message : String) : String := "[kiln:pipeline] " ++ message ++ "\n"

def trace (s : Session) (t : Target) (message : String) : Session :=
  if t.flags.trace then s.note (.traced (traceLine message)) else s

def print (s : Session) (enabled : Bool) (heading : String) (stage : Stage) : Session :=
  if enabled then s.note (.printed ("; " ++ heading ++ stage.name ++ "\n" ++ s.func.text))
  else s

def staleViolations (s : Session) : List Violation :=
  let f := s.func
  match s.analyses.currentGraph? f with
  | none => []
  | some g =>
    let graph := FlowGraph.ofFunc f
    let complain (message : String) : List Violation := [⟨functionPlace f, "", message⟩]
    if g != graph then complain "cached CFG does not match the function"
    else
      match s.analyses.currentTree? with
      | none => []
      | some t =>
        if t.sameTree (DomTree.ofFunc f graph) then []
        else complain "cached dominator tree does not match the CFG"

def violations (s : Session) : List Violation :=
  verifyFunction s.func ++ (if s.func.blocks.isEmpty then [] else s.staleViolations)

def locationViolations (s : Session) : List Violation := verifyLocations X64.registerFile s.func

def rejectIf (flags : Flags) (violations : List Violation) : Except Failure Unit :=
  if flags.enableVerifier && !violations.isEmpty then .error (.rejected violations) else .ok ()

def verifyIf (s : Session) (flags : Flags) : Except Failure Unit := rejectIf flags s.violations

def verifyLocationsIf (s : Session) (flags : Flags) : Except Failure Unit :=
  rejectIf flags s.locationViolations

def check (s : Session) (flags : Flags) : StageCheck → Except Failure Unit
  | .none => .ok ()
  | .ir => s.verifyIf flags
  | .irAndLocations =>
    match s.verifyIf flags with
    | .ok () => s.verifyLocationsIf flags
    | .error e => .error e

def become (s : Session) (f : Func) : Session := { s with func := f }

def hoist (s : Session) : Session :=
  let (h, a) := hoistWith X64.encode? s.analyses s.func
  { s with func := h.func, analyses := a }

def withTree (s : Session) : DomTree × Session :=
  let (t, a) := s.analyses.needTree s.func
  (t, { s with analyses := a })

def removeUnreachableBlocks (s : Session) : Session :=
  let (t, s) := s.withTree
  let (f, removed) := removeUnreachable t s.func
  let s := s.become f
  if removed then { s with analyses := (s.analyses.computeGraph f).2 } else s

/-- Legalization drops the tree and the loops; a success makes the graph anew. -/
def legalizeFunction (s : Session) : Session × Except Failure Unit :=
  let a := s.analyses.dropTree
  let (f, result) := X64.legalize s.func
  match result with
  | .ok () => ({ s with func := f, analyses := (a.computeGraph f).2 }, .ok ())
  | .error e => ({ s with func := f, analyses := a }, .error e)

def allocate (s : Session) : Session × Except Failure Unit :=
  let (t, s) := s.withTree
  let (g, a) := s.analyses.needGraph s.func
  let (f, allocator, result) := s.allocator.run X64.registerFile g t s.func
  ({ s with func := f, analyses := a, allocator := allocator }, result)

def layOut (s : Session) (t : Target) : Session × Except Failure Unit :=
  let (f, result) := X64.relaxBranches t.limits s.func
  match result with
  | .ok info => ({ s with func := f, info := info }, .ok ())
  | .error e => (s.become f, .error e)

def perform (s : Session) (t : Target) : Stage → Session × Except Failure Unit
  | .flowGraph => ({ s with analyses := (s.analyses.computeGraph s.func).2 }, .ok ())
  | .foldConstants => (s.become (foldConstants s.func).1, .ok ())
  | .canonicalizeNans => (s.become (canonicalizeNans s.func).1, .ok ())
  | .legalize => s.legalizeFunction
  | .fuseBranches => (s.become (fuseCompareBranches X64.encode? s.func).1, .ok ())
  | .dominators | .refreshDominators =>
    ({ s with analyses := (s.analyses.computeTree s.func).2 }, .ok ())
  | .loops => ({ s with analyses := (s.analyses.computeLoops s.func).2 }, .ok ())
  | .hoistInvariants => (s.hoist, .ok ())
  | .numberValues =>
    let (tree, s) := s.withTree
    (s.become (numberValues tree s.func).1, .ok ())
  | .removeUnreachable => (s.removeUnreachableBlocks, .ok ())
  | .eliminateDeadCode =>
    let (tree, s) := s.withTree
    (s.become (eliminateDeadCode tree s.func).1, .ok ())
  | .allocateRegisters => s.allocate
  | .layOutFrame =>
    let (f, result) := X64.layOutFrame t.limits s.func
    (s.become f, result)
  | .shrinkInstructions => (s.become (X64.shrinkInstructions s.func).1, .ok ())
  | .relaxBranches => s.layOut t

/-- A stage with its events, its timing and its check. A failure of the work comes
before the closing events. -/
def runStage (s : Session) (t : Target) (stage : Stage) : Session × Except Failure Unit :=
  let s := s.trace t (stage.name ++ " (check: " ++ stage.check.name ++ ")")
  let s := s.note (.stageBegan stage)
  let s := s.print s.printBefore "before " stage
  let (s, result) := s.perform t stage
  let s := { s with timings := s.timings.record stage.name 0 }
  match result with
  | .error e => (s, .error e)
  | .ok () =>
    let s := s.print s.printAfter "after " stage
    let s := s.note (.stageEnded stage)
    (s, s.check t.flags stage.check)

def runStages (t : Target) : List Stage → Session → Session × Except Failure Unit
  | [], s => (s, .ok ())
  | stage :: rest, s =>
    match s.runStage t stage with
    | (s, .ok ()) => runStages t rest s
    | (s, .error e) => (s.trace t (stage.name ++ " failed: " ++ e.text), .error e)

def sizesText (info : CodeInfo) : String :=
  "code " ++ toString info.codeSize ++ " rodata " ++ toString info.rodataSize ++ " total " ++
    toString info.totalSize

def compile (s : Session) (t : Target) : Session × Except Failure CodeInfo :=
  let s := s.trace t ("compile " ++ s.func.name ++ " for " ++ Target.name ++ " at " ++
    t.flags.optLevel.name)
  let s := { s with info := {}, laidOut := false }
  match s.verifyIf t.flags with
  | .error e => (s, .error e)
  | .ok () =>
    match runStages t (Stage.activeFor t.flags) s with
    | (s, .error e) => (s, .error e)
    | (s, .ok ()) =>
      let s := { s with laidOut := true }
      (s.trace t (sizesText s.info), .ok s.info)

def compileAndEmit (s : Session) (t : Target) : Session × Except Failure CodeSink :=
  match s.compile t with
  | (s, .error e) => (s, .error e)
  | (s, .ok info) => (s.note (.emitting info.totalSize info), .ok (X64.emitFunction s.func))

/-- Compiles, grows a vector by the size of the layout, and emits into the new region.
A failure leaves the vector alone. -/
def compileOnto (s : Session) (t : Target) (memory : List Byte) :
    Session × List Byte × Except Failure CodeSink :=
  match s.compileAndEmit t with
  | (s, .error e) => (s, memory, .error e)
  | (s, .ok sink) =>
    let region := List.replicate s.info.totalSize (byteOf 0)
    (s, sink.emitted.storeAt memory.length (memory ++ region), .ok sink)

def relax (s : Session) (t : Target) : Session × Except Failure CodeInfo :=
  match { s with laidOut := false }.runStage t .relaxBranches with
  | (s, .error e) => (s, .error e)
  | (s, .ok ()) => ({ s with laidOut := true }, .ok s.info)

structure BufferEmission where
  buffer : List Byte
  emitted : Emission
  result : Except Failure CodeInfo

/-- Emits into a buffer that must hold the final layout. The function may have grown
since; bytes beyond the end are dropped, and the emission counts as failed. -/
def emitInto (s : Session) (buffer : List Byte) : Session × BufferEmission :=
  let tooSmall := Failure.bufferTooSmall buffer.length s.info.totalSize
  if !s.laidOut then (s, ⟨buffer, {}, .error (.noFinalLayout s.func.name)⟩)
  else if buffer.length < s.info.totalSize then (s, ⟨buffer, {}, .error tooSmall⟩)
  else
    let sink := X64.emitFunction s.func
    let fits := sink.offset ≤ buffer.length
    (s.note (.emitting buffer.length s.info),
      ⟨overwriteStart buffer sink.emitted.bytes, sink.emitted,
        if fits then .ok sink.info else .error tooSmall⟩)

end Session
end SsaCodegen
