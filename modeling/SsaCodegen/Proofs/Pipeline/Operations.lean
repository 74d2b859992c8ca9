import SsaCodegen.Proofs.Pipeline.Run
/-! What a user may ask of a session, in any order and whatever came of it before. A pass
is a stage that can be run on its own; relaxation can too, but announces sizes, and the
stages that only compute analyses are asked for under other names. -/
namespace SsaCodegen
open X64 (Target)

def Stage.isPass : Stage → Bool
  | .flowGraph | .dominators | .loops | .refreshDominators | .relaxBranches => false
  | _ => true

abbrev Pass : Type := { stage : Stage // stage.isPass = true }

inductive Operation where
  | setFunction (f : Func)
  | clear
  | compile (t : Target)
  | compileAndEmit (t : Target)
  | pass (t : Target) (p : Pass)
  | relax (t : Target)
  | emitInto (buffer : List Byte)
  | computeGraph | computeTree | computeLoops | computeFlow
  | graph | tree | loops

namespace Operation

def apply (s : Session) : Operation → Session × Except Failure (Option CodeInfo)
  | setFunction f => (s.setFunction f, .ok none)
  | clear => (s.clear, .ok none)
  | compile t => ((s.compile t).1, (s.compile t).2.map some)
  | compileAndEmit t => ((s.compileAndEmit t).1, (s.compileAndEmit t).2.map fun sink => some sink.info)
  | pass t p => ((s.runStage t p.1).1, (s.runStage t p.1).2.map fun _ => none)
  | relax t => ((s.relax t).1, (s.relax t).2.map some)
  | emitInto buffer => ((s.emitInto buffer).1, (s.emitInto buffer).2.result.map fun _ => none)
  | computeGraph => ({ s with analyses := (s.analyses.computeGraph s.func).2 }, .ok none)
  | computeTree => ({ s with analyses := (s.analyses.computeTree s.func).2 }, .ok none)
  | computeLoops => ({ s with analyses := (s.analyses.computeLoops s.func).2 }, .ok none)
  | computeFlow => ({ s with analyses := s.analyses.refreshFlow s.func }, .ok none)
  | graph => ({ s with analyses := (s.analyses.needGraph s.func).2 }, .ok none)
  | tree => ({ s with analyses := (s.analyses.needTree s.func).2 }, .ok none)
  | loops => ({ s with analyses := (s.analyses.needLoops s.func).2 }, .ok none)

end Operation

namespace Session

def after (s : Session) (ops : List Operation) : Session :=
  ops.foldl (fun s op => (op.apply s).1) s

end Session
end SsaCodegen
