import SsaCodegen.Settings
/-! The stages of compilation, in order. A stage runs from some optimisation level up,
and names the checks made after it. -/
namespace SsaCodegen

inductive StageCheck where
  | none
  | ir
  | irAndLocations
  deriving DecidableEq, Repr, Inhabited

def StageCheck.name : StageCheck → String
  | .none => "none"
  | .ir => "ir"
  | .irAndLocations => "ir+locations"

inductive Stage where
  | flowGraph | foldConstants | canonicalizeNans | legalize | fuseBranches
  | dominators | loops | hoistInvariants | numberValues | refreshDominators
  | removeUnreachable | eliminateDeadCode | allocateRegisters | layOutFrame
  | shrinkInstructions | relaxBranches
  deriving DecidableEq, Repr, Inhabited

structure StageInfo where
  name : String
  minLevel : OptLevel
  check : StageCheck
  guardsNans : Bool := false
  deriving DecidableEq, Repr

namespace Stage

def all : List Stage :=
  [.flowGraph, .foldConstants, .canonicalizeNans, .legalize, .fuseBranches, .dominators,
   .loops, .hoistInvariants, .numberValues, .refreshDominators, .removeUnreachable,
   .eliminateDeadCode, .allocateRegisters, .layOutFrame, .shrinkInstructions, .relaxBranches]

def info : Stage → StageInfo
  | .flowGraph => ⟨"cfg", .fastest, .none, false⟩
  | .foldConstants => ⟨"preopt", .default, .ir, false⟩
  | .canonicalizeNans => ⟨"nan-canonicalization", .fastest, .ir, true⟩
  | .legalize => ⟨"legalize", .fastest, .ir, false⟩
  | .fuseBranches => ⟨"postopt", .default, .ir, false⟩
  | .dominators => ⟨"compute-domtree", .best, .ir, false⟩
  | .loops => ⟨"loop-analysis", .best, .ir, false⟩
  | .hoistInvariants => ⟨"licm", .best, .ir, false⟩
  | .numberValues => ⟨"simple-gvn", .best, .ir, false⟩
  | .refreshDominators => ⟨"recompute-domtree", .fastest, .none, false⟩
  | .removeUnreachable => ⟨"unreachable-code", .fastest, .ir, false⟩
  | .eliminateDeadCode => ⟨"dce", .default, .ir, false⟩
  | .allocateRegisters => ⟨"regalloc", .fastest, .none, false⟩
  | .layOutFrame => ⟨"prologue-epilogue", .fastest, .irAndLocations, false⟩
  | .shrinkInstructions => ⟨"shrink-instructions", .best, .irAndLocations, false⟩
  | .relaxBranches => ⟨"relax-branches", .fastest, .irAndLocations, false⟩

def name (s : Stage) : String := s.info.name

def check (s : Stage) : StageCheck := s.info.check

def ofName? (text : String) : Option Stage := all.find? (·.name == text)

def isActive (s : Stage) (flags : Flags) : Bool :=
  s.info.minLevel.rank ≤ flags.optLevel.rank &&
    (!s.info.guardsNans || flags.enableNanCanonicalization)

def activeFor (flags : Flags) : List Stage := all.filter (·.isActive flags)

end Stage
end SsaCodegen
