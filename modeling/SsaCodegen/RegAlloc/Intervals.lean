import SsaCodegen.Flow.Liveness
import SsaCodegen.Target.RegisterFile
/-! Live intervals over positions in layout order. A block takes one position for its
start and one for each instruction, two apart. A value touches the start of a block
it is a parameter of or live into, the instructions that read or define it, and the
last position of a block it is live out of; its interval is the hull of these. -/
namespace SsaCodegen

structure Interval where
  value : Nat
  start : Nat
  stop : Nat
  cls : RegClass
  crossesCall : Bool
  isRef : Bool
  deriving DecidableEq, Repr, Inhabited

structure CallSite where
  pos : Nat
  block : Nat
  index : Nat
  deriving DecidableEq, Repr, Inhabited

structure Touch where
  value : Nat
  pos : Nat
  deriving DecidableEq, Repr, Inhabited

structure Intervals where
  intervals : List Interval
  calls : List CallSite
  deriving DecidableEq, Repr, Inhabited

namespace Intervals

def placedFrom (b pos : Nat) : List Block → List (Block × Nat × Nat)
  | [] => []
  | bb :: rest => (bb, b, pos) :: placedFrom (b + 1) (pos + 2 + 2 * bb.insts.length) rest

def placed (f : Func) : List (Block × Nat × Nat) := placedFrom 0 0 f.blocks

def instPos (start k : Nat) : Nat := start + 2 + 2 * k

def lastPos (start : Nat) (bb : Block) : Nat := start + 2 * bb.insts.length

def instTouches (pos : Nat) (inst : Inst) : List Touch :=
  (inst.usedTemps ++ inst.result.toList).map (⟨·, pos⟩)

def blockTouches (live : Liveness) (b start : Nat) (bb : Block) : List Touch :=
  (bb.paramIds ++ live.liveIn b).map (⟨·, start⟩) ++
  bb.insts.zipIdx.flatMap (fun (inst, k) => instTouches (instPos start k) inst) ++
  (live.liveOut b).map (⟨·, lastPos start bb⟩)

def touches (f : Func) (live : Liveness) : List Touch :=
  (placed f).flatMap fun (bb, b, start) => blockTouches live b start bb

def definedValues (f : Func) : List Nat :=
  f.blocks.flatMap fun bb => bb.paramIds ++ bb.insts.filterMap Inst.result

def callSites (f : Func) : List CallSite :=
  (placed f).flatMap fun (bb, b, start) =>
    bb.insts.zipIdx.filterMap fun (inst, k) =>
      if inst.op == .call then some ⟨instPos start k, b, k⟩ else none

def positions (ts : List Touch) (v : Nat) : List Nat :=
  ts.filterMap fun t => if t.value == v then some t.pos else none

def hull (f : Func) (calls : List CallSite) (v start stop : Nat) : Interval :=
  let ty := f.valueType v
  ⟨v, start, stop, ty.regClass, calls.any (fun c => start < c.pos && c.pos < stop), ty.isRef⟩

def intervalOf (f : Func) (calls : List CallSite) (v : Nat) (positions : List Nat) : Option Interval :=
  match positions with
  | [] => none
  | p :: rest => some (hull f calls v (rest.foldl min p) (rest.foldl max p))

def before (a b : Interval) : Bool :=
  a.start < b.start || (a.start == b.start && a.value ≤ b.value)

def ofFunc (f : Func) (live : Liveness) : Except Nat Intervals :=
  let ts := touches f live
  let defs := definedValues f
  let calls := callSites f
  let values := (List.range f.numValues).map fun v => (v, positions ts v)
  match values.find? (fun (v, positions) => !positions.isEmpty && !defs.contains v) with
  | some (v, _) => .error v
  | none =>
    let found := values.filterMap fun (v, positions) => intervalOf f calls v positions
    .ok ⟨found.mergeSort before, calls⟩

end Intervals

/-- Intervals in storage that is kept from function to function. Per value there are the first
and the last position it touches so far, and whether it touches one and is defined. -/
structure IntervalStore where
  intervals : List Interval := []
  calls : List CallSite := []
  starts : List (Option Nat) := []
  stops : List Nat := []
  seen : List Bool := []
  defined : List Bool := []
  deriving DecidableEq, Repr, Inhabited

namespace IntervalStore
open Intervals

def clear (_ : IntervalStore) : IntervalStore := {}

def blank (old : IntervalStore) (size : Nat) : IntervalStore :=
  { old.clear with
    starts := List.replicate size none
    stops := List.replicate size 0
    seen := List.replicate size false
    defined := List.replicate size false }

def touch (pos : Nat) (s : IntervalStore) (v : Nat) : IntervalStore :=
  if v < s.starts.length then
    { s with
      seen := s.seen.set v true
      starts := s.starts.modify v fun start => some ((start.map (min pos)).getD pos)
      stops := s.stops.modify v (max pos) }
  else s

def define (pos : Nat) (s : IntervalStore) (v : Nat) : IntervalStore :=
  touch pos (if v < s.starts.length then { s with defined := s.defined.set v true } else s) v

def noteCall (s : IntervalStore) (call : CallSite) : IntervalStore :=
  { s with calls := s.calls ++ [call] }

def noteInst (b start : Nat) (s : IntervalStore) (place : Inst × Nat) : IntervalStore :=
  let (inst, k) := place
  let pos := instPos start k
  let s := inst.usedTemps.foldl (touch pos) s
  let s := inst.result.toList.foldl (define pos) s
  if inst.op == .call then s.noteCall ⟨pos, b, k⟩ else s

def noteBlock (live : Liveness) (s : IntervalStore) (place : Block × Nat × Nat) : IntervalStore :=
  let (bb, b, start) := place
  let s := bb.paramIds.foldl (define start) s
  let s := (live.liveIn b).foldl (touch start) s
  let s := bb.insts.zipIdx.foldl (noteInst b start) s
  (live.liveOut b).foldl (touch (lastPos start bb)) s

def collect (f : Func) : List Nat → IntervalStore → IntervalStore × Option Nat
  | [], s => ({ s with intervals := s.intervals.mergeSort before }, none)
  | v :: rest, s =>
    if !s.defined.getD v false then
      if s.seen.getD v false then (s, some v) else collect f rest s
    else
      let start := (s.starts.getD v none).getD 4294967295
      collect f rest { s with intervals := s.intervals ++ [hull f s.calls v start (s.stops.getD v 0)] }

def rebuild (old : IntervalStore) (f : Func) (live : Liveness) : IntervalStore × Option Nat :=
  collect f (List.range f.numValues) ((placed f).foldl (noteBlock live) (old.blank f.numValues))

def result : IntervalStore × Option Nat → Except Nat Intervals
  | (_, some v) => .error v
  | (s, none) => .ok ⟨s.intervals, s.calls⟩

end IntervalStore
end SsaCodegen
