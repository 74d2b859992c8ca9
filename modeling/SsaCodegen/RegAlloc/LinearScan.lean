import SsaCodegen.Failure
import SsaCodegen.Flow.Dominators
import SsaCodegen.RegAlloc.Intervals
/-! Linear scan register allocation. Intervals are visited by their start; those that
ended give their register back. A value that lives across a call takes a register
the callee keeps or a stack slot. When no register is free, the longest-lasting
holder of an acceptable one gives way to a shorter interval. -/
namespace SsaCodegen

structure Holder where
  interval : Interval
  reg : Nat
  deriving DecidableEq, Repr, Inhabited

structure Scan where
  holders : List Holder := []
  busy : List Bool
  locations : List Location
  slots : Nat := 0
  deriving DecidableEq, Repr

namespace Scan

def expire (s : Scan) (pos : Nat) : Scan :=
  let ended := s.holders.filter fun h => h.interval.stop < pos
  { s with
    holders := s.holders.filter fun h => pos ≤ h.interval.stop
    busy := ended.foldl (fun busy h => busy.set h.reg false) s.busy }

theorem memExpire {s : Scan} {pos : Nat} {h : Holder} :
    h ∈ (s.expire pos).holders ↔ h ∈ s.holders ∧ pos ≤ h.interval.stop := by
  simp [expire]

def isBusy (s : Scan) (reg : Nat) : Bool := s.busy.getD reg false

def spill (s : Scan) (value : Nat) : Scan :=
  { s with locations := s.locations.set value (.slot s.slots), slots := s.slots + 1 }

def place (s : Scan) (value reg : Nat) : Scan :=
  { s with locations := s.locations.set value (.reg reg) }

def acceptable (regs : RegisterFile) (cur : Interval) (reg : Nat) : Bool :=
  !cur.crossesCall || regs.isCalleeSaved reg

def mustSpill (cur : Interval) : Bool := cur.crossesCall && (cur.cls == .fpr || cur.isRef)

def freeReg? (regs : RegisterFile) (s : Scan) (cur : Interval) : Option Nat :=
  (regs.allocatable cur.cls).find? fun r => !s.isBusy r && acceptable regs cur r

theorem freeFound {regs : RegisterFile} {s : Scan} {cur : Interval} {r : Nat}
    (h : freeReg? regs s cur = some r) :
    r ∈ regs.allocatable cur.cls ∧ s.isBusy r = false ∧ acceptable regs cur r = true := by
  have found := List.find?_some h
  simp only [Bool.and_eq_true, Bool.not_eq_eq_eq_not, Bool.not_true] at found
  exact ⟨List.mem_of_find?_eq_some h, found⟩

/-- Of the holders of an acceptable register of the class, the one that lasts longest;
the first of equals. -/
def victim? (regs : RegisterFile) (s : Scan) (cur : Interval) : Option Holder :=
  s.holders.foldl (fun best h =>
    if regs.class? h.reg == some cur.cls && acceptable regs cur h.reg then
      match best with
      | none => some h
      | some b => if b.interval.stop < h.interval.stop then some h else best
    else best) none

def handOver (s : Scan) (victim : Holder) (cur : Interval) : Scan :=
  let s := (s.spill victim.interval.value).place cur.value victim.reg
  { s with
    holders := s.holders.map fun h => if h.reg == victim.reg then ⟨cur, victim.reg⟩ else h }

def visit (regs : RegisterFile) (s : Scan) (cur : Interval) : Scan :=
  let s := s.expire cur.start
  if mustSpill cur then s.spill cur.value
  else
    match freeReg? regs s cur with
    | some reg =>
      let s := s.place cur.value reg
      { s with holders := s.holders ++ [⟨cur, reg⟩], busy := s.busy.set reg true }
    | none =>
      match victim? regs s cur with
      | some v => if cur.stop < v.interval.stop then s.handOver v cur else s.spill cur.value
      | none => s.spill cur.value

def start (regs : RegisterFile) (numValues : Nat) : Scan :=
  { busy := List.replicate regs.names.length false
    locations := List.replicate numValues .unassigned }

def run (regs : RegisterFile) (numValues : Nat) (intervals : List Interval) : Scan :=
  intervals.foldl (visit regs) (start regs numValues)

end Scan

namespace RegAlloc

def safepointSlots (locations : List Location) (intervals : List Interval) (call : CallSite) :
    List Nat :=
  let slots := intervals.filterMap fun iv =>
    if iv.isRef && iv.start < call.pos && call.pos < iv.stop then
      match locations.getD iv.value .unassigned with
      | .slot s => some s
      | _ => none
    else none
  slots.mergeSort (· ≤ ·)

def recordSafepoints (intervals : Intervals) (f : Func) : Func :=
  intervals.calls.foldl (fun f call =>
    f.modifyBlock call.block fun bb =>
      { bb with insts := bb.insts.modify call.index fun inst =>
          { inst with
            safepointSlots := safepointSlots f.locations intervals.intervals call } }) f

def run (regs : RegisterFile) (g : FlowGraph) (t : DomTree) (f : Func) :
    Func × Except Failure Unit :=
  match f.blocks.zipIdx.find? (fun (_, b) => !t.isReachable b) with
  | some (bb, _) => (f, .error (.unreachableBlock bb.label))
  | none =>
    match Intervals.ofFunc f (Liveness.ofFunc f g) with
    | .error v => (f, .error (.undefinedValue v))
    | .ok intervals =>
      let scan := Scan.run regs f.numValues intervals.intervals
      let f := { f with
        locations := scan.locations
        stackSlots := List.replicate scan.slots {} }
      (recordSafepoints intervals f, .ok ())

structure Allocator where
  liveness : Liveness := {}
  intervals : IntervalStore := {}
  holders : List Holder := []
  busy : List Bool := []
  deriving DecidableEq, Repr, Inhabited

namespace Allocator

def blank (a : Allocator) (regs : RegisterFile) : Allocator :=
  { a with holders := [], busy := List.replicate regs.names.length false }

def scan (a : Allocator) (regs : RegisterFile) (numValues : Nat) (intervals : List Interval) : Scan :=
  intervals.foldl (Scan.visit regs)
    { holders := a.holders, busy := a.busy, locations := List.replicate numValues .unassigned }

def run (a : Allocator) (regs : RegisterFile) (g : FlowGraph) (t : DomTree) (f : Func) :
    Func × Allocator × Except Failure Unit :=
  match f.blocks.zipIdx.find? (fun (_, b) => !t.isReachable b) with
  | some (bb, _) => (f, a, .error (.unreachableBlock bb.label))
  | none =>
    let live := a.liveness.compute f g
    let made := a.intervals.rebuild f live
    let a := { a with liveness := live, intervals := made.1 }
    match IntervalStore.result made with
    | .error v => (f, a, .error (.undefinedValue v))
    | .ok intervals =>
      let a := a.blank regs
      let scan := a.scan regs f.numValues intervals.intervals
      let f := { f with
        locations := scan.locations
        stackSlots := List.replicate scan.slots {} }
      (recordSafepoints intervals f, { a with holders := scan.holders, busy := scan.busy }, .ok ())

def clear (a : Allocator) : Allocator where
  liveness := a.liveness.clear
  intervals := a.intervals.clear

end Allocator
end RegAlloc
end SsaCodegen
