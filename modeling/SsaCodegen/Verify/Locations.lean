import SsaCodegen.Flow.Liveness
import SsaCodegen.Target.RegisterFile
import SsaCodegen.Verify.Structure
/-! The location verifier, for functions that went through register allocation. It
checks that every defined value has a fitting location and every instruction an
encoding, then walks each block backwards with the exact set of live values: no
definition overwrites a live value, no live value is in a register that a call
destroys, and references in stack slots are in the call's stack map. -/
namespace SsaCodegen

def insertAscending (n : Nat) : List Nat → List Nat
  | [] => [n]
  | m :: rest =>
    if n < m then n :: m :: rest
    else if n = m then m :: rest
    else m :: insertAscending n rest

def Inst.liveBefore (numValues : Nat) (inst : Inst) (after : List Nat) : List Nat :=
  let kept := match inst.result with
    | some id => after.erase id
    | none => after
  (inst.usedTemps.filter (· < numValues)).foldl (fun live id => insertAscending id live) kept

namespace Locations

def locationName (regs : RegisterFile) : Location → String
  | .unassigned => "nowhere"
  | .reg n => regs.name n
  | .slot s => "ss" ++ toString s

def frameViolations (f : Func) : List Violation :=
  match f.blocks with
  | [] => []
  | entry :: _ =>
    complainUnless (!f.frame.laidOut || (entry.insts.head?.map Inst.op) == some .prologue)
      ⟨entry.label, "", "frame is laid out but the entry block has no prologue"⟩

def valueViolations (regs : RegisterFile) (f : Func) (place : String) (id : Nat) :
    List Violation :=
  let ty := f.valueType id
  match f.location id with
  | .unassigned => [⟨place, "", valueName id ++ " has no location"⟩]
  | .slot s =>
    complainUnless (s < f.stackSlots.length)
      ⟨place, "", valueName id ++ " is in nonexistent stack slot ss" ++ toString s⟩
  | .reg n =>
    if !regs.isAllocatable n then
      [⟨place, "", valueName id ++ " is in non-allocatable register " ++ regs.name n⟩]
    else
      complainUnless (regs.class? n == some ty.regClass)
        ⟨place, "", valueName id ++ " of type " ++ ty.name ++ " is in register " ++
          regs.name n ++ " of the wrong class"⟩

def definitionViolations (regs : RegisterFile) (f : Func) (bb : Block) : List Violation :=
  bb.params.flatMap (fun p => valueViolations regs f bb.label p.id) ++
  bb.insts.zipIdx.flatMap fun (inst, i) =>
    complainUnless inst.enc.isLegal
      ⟨instPlace bb.label i, inst.text, "instruction has no encoding"⟩ ++
    match inst.result with
    | some id => valueViolations regs f (instPlace bb.label i) id
    | none => []

def sameLocation (f : Func) (a b : Nat) : Bool :=
  (f.location a).isAssigned && f.location a == f.location b

def overwriteMessages (regs : RegisterFile) (f : Func) (inst : Inst) (after : List Nat) :
    List String :=
  match inst.result with
  | none => []
  | some id =>
    after.flatMap fun v =>
      complainUnless (v == id || !sameLocation f v id)
        (valueName id ++ " overwrites live " ++ valueName v ++ " in " ++
          locationName regs (f.location v))

def callMessages (regs : RegisterFile) (f : Func) (inst : Inst) (after : List Nat) :
    List String :=
  if inst.op != .call then []
  else
    after.flatMap fun v =>
      if inst.result == some v then []
      else
        match f.location v with
        | .reg n =>
          complainUnless (regs.isCalleeSaved n)
            (valueName v ++ " in caller-saved register " ++ regs.name n ++
              " is live across the call")
        | .slot s =>
          complainUnless (!(f.valueType v).isRef || inst.safepointSlots.contains s)
            ("reference " ++ valueName v ++ " is missing from the call's stack map")
        | .unassigned => []

def paramViolations (regs : RegisterFile) (f : Func) (bb : Block) (live : List Nat) :
    List Nat → List Violation
  | [] => []
  | id :: later =>
    let shared := locationName regs (f.location id)
    live.flatMap (fun v =>
      complainUnless (v == id || bb.paramIds.contains v || !sameLocation f v id)
        ⟨bb.label, "", "parameter " ++ valueName id ++ " shares " ++ shared ++
          " with live " ++ valueName v⟩) ++
    later.flatMap (fun q =>
      complainUnless (!sameLocation f id q)
        ⟨bb.label, "", "parameters " ++ valueName id ++ " and " ++ valueName q ++
          " share " ++ shared⟩) ++
    paramViolations regs f bb live later

def interferenceBackwards (regs : RegisterFile) (f : Func) (bb : Block) (live : List Nat) :
    List (Inst × Nat) → List Violation
  | [] => paramViolations regs f bb live bb.paramIds
  | (inst, i) :: earlier =>
    (overwriteMessages regs f inst live ++ callMessages regs f inst live).map
      (fun message => ⟨instPlace bb.label i, inst.text, message⟩) ++
    interferenceBackwards regs f bb (inst.liveBefore f.numValues live) earlier

end Locations

open Locations in
def verifyLocations (regs : RegisterFile) (f : Func) : List Violation :=
  if f.locations.length ≠ f.numValues then
    [⟨functionPlace f, "", "value locations have not been assigned"⟩]
  else
    let live := Liveness.ofFunc f (FlowGraph.ofFunc f)
    frameViolations f ++ f.blocks.flatMap (definitionViolations regs f) ++
      f.blocks.zipIdx.flatMap fun (bb, b) =>
        interferenceBackwards regs f bb (live.liveOut b) bb.insts.zipIdx.reverse

end SsaCodegen
