import SsaCodegen.Failure
import SsaCodegen.Flow.Liveness
import SsaCodegen.X64.Lower
/-! Where in the code a debug label's values can be found. In each block a value is
present from its definition, or the start if it is live in or a parameter, to its last
use, or the end if it is live out. Ranges that meet in one location are joined. -/
namespace SsaCodegen.X64

structure LocationRange where
  location : Location
  start : Nat
  stop : Nat
  deriving DecidableEq, Repr

namespace LabelRanges

def ends (f : Func) : Nat → List Inst → List Nat
  | _, [] => []
  | offset, inst :: rest =>
    let instEnd := offset + instructionSize f inst
    instEnd :: ends f instEnd rest

structure Span where
  start : Nat
  stop : Nat

def follow (v : Nat) : Option Span → List (Inst × Nat) → Option Span
  | span, [] => span
  | none, (inst, instEnd) :: rest =>
    follow v (if inst.defines v then some ⟨instEnd, instEnd⟩ else none) rest
  | some s, (inst, instEnd) :: rest =>
    follow v (some (if inst.usesTemp v then { s with stop := instEnd } else s)) rest

def paramStart (b : Nat) (bb : Block) (blockStart : Nat) (instEnds : List Nat) : Nat :=
  if b = 0 && (bb.insts.head?.map Inst.op) == some .prologue then instEnds.headD blockStart
  else blockStart

def blockRange? (f : Func) (live : Liveness) (b : Nat) (bb : Block) (v : Nat) :
    Option LocationRange :=
  let blockStart := f.blockOffsets.getD b 0
  let instEnds := ends f blockStart bb.insts
  let offset (start : Nat) : Option Span := some ⟨start, start⟩
  let entry :=
    if live.isLiveIn b v then offset blockStart
    else if bb.paramIds.contains v then offset (paramStart b bb blockStart instEnds)
    else none
  match follow v entry (bb.insts.zip instEnds) with
  | none => none
  | some s =>
    let stop := if live.isLiveOut b v then instEnds.getLastD blockStart else s.stop
    if stop ≤ s.start then none else some ⟨f.location v, s.start, stop⟩

def appendRange (ranges : List LocationRange) (r : LocationRange) : List LocationRange :=
  match ranges.getLast? with
  | some last =>
    if last.location = r.location && last.stop = r.start then
      ranges.dropLast ++ [{ last with stop := r.stop }]
    else ranges ++ [r]
  | none => [r]

def labelledValues (f : Func) : List Nat :=
  (List.range f.locations.length).filter fun v =>
    (f.location v).isAssigned && f.valueLabels.any (·.value == v)

def valueRanges (f : Func) (live : Liveness) : List (Nat × LocationRange) :=
  f.blocks.zipIdx.flatMap fun (bb, b) =>
    (labelledValues f).filterMap fun v => (blockRange? f live b bb v).map (v, ·)

def ofLabel (f : Func) (ranges : List (Nat × LocationRange)) (label : Nat) :
    List LocationRange :=
  (ranges.filter fun (v, _) => f.valueLabels.contains ⟨v, label⟩).foldl
    (fun done (_, r) => appendRange done r) []

def labels (f : Func) : List Nat :=
  ((f.valueLabels.map ValueLabel.label).mergeSort (· ≤ ·)).eraseDups

end LabelRanges

open LabelRanges in
def labelRanges (f : Func) : Except Failure (List (Nat × List LocationRange)) :=
  if f.valueLabels.isEmpty then .ok []
  else if !f.frame.laidOut || f.blockOffsets.length ≠ f.blocks.length then
    .error (.noLayoutForRanges f.name)
  else
    let ranges := valueRanges f (Liveness.ofFunc f (FlowGraph.ofFunc f))
    .ok ((labels f).filterMap fun label =>
      let found := ofLabel f ranges label
      if found.isEmpty then none else some (label, found))

end SsaCodegen.X64
