import SsaCodegen.Verify.Violation
import SsaCodegen.Ir.Ty
/-! Why code generation stops. Each cause has a kind and a message; a rejection by a
verifier carries the violations. -/
namespace SsaCodegen

inductive FailureKind where
  | verifier | legalization | encoding | registerAllocation
  | limitExceeded | codeTooLarge | bufferTooSmall
  deriving DecidableEq, Repr, Inhabited

namespace FailureKind

def all : List FailureKind :=
  [.verifier, .legalization, .encoding, .registerAllocation, .limitExceeded, .codeTooLarge,
   .bufferTooSmall]

def name : FailureKind → String
  | .verifier => "verifier"
  | .legalization => "legalization"
  | .encoding => "encoding"
  | .registerAllocation => "regalloc"
  | .limitExceeded => "implementation limit exceeded"
  | .codeTooLarge => "code too large"
  | .bufferTooSmall => "buffer too small"

def report (kind : FailureKind) (message : String) (violations : List Violation) : String :=
  kind.name ++ (if message.isEmpty then "" else ": " ++ message) ++
    (if violations.isEmpty then "" else "\n" ++ Violation.report violations)

end FailureKind

inductive Failure where
  | rejected (violations : List Violation)
  | stackArguments (signature : Signature)
  | tooManyReturns (signature : Signature)
  | unencodable (inst label : String)
  | noEntryBlock
  | unreachableBlock (label : String)
  | undefinedValue (value : Nat)
  | frameTooLarge (bytes limit : Nat)
  | codeExceeds (function : String) (limit : Nat)
  | codeTooLarge (function : String) (bytes limit : Nat)
  | noFinalLayout (function : String)
  | noLayoutForRanges (function : String)
  | bufferTooSmall (size needed : Nat)
  deriving DecidableEq, Repr

namespace Failure

def kind : Failure → FailureKind
  | .rejected _ => .verifier
  | .stackArguments _ | .tooManyReturns _ | .unencodable .. | .noEntryBlock => .legalization
  | .unreachableBlock _ | .undefinedValue _ => .registerAllocation
  | .frameTooLarge .. => .limitExceeded
  | .codeExceeds .. | .codeTooLarge .. => .codeTooLarge
  | .noFinalLayout _ | .noLayoutForRanges _ => .encoding
  | .bufferTooSmall .. => .bufferTooSmall

def violations : Failure → List Violation
  | .rejected vs => vs
  | _ => []

def message : Failure → String
  | .rejected vs => toString vs.length ++ " verifier error(s)"
  | .stackArguments s => "signature " ++ s.text ++ " passes arguments on the stack"
  | .tooManyReturns s => "signature " ++ s.text ++ " returns too many values in registers"
  | .unencodable inst label => "cannot encode '" ++ inst ++ "' in " ++ label
  | .noEntryBlock => "function has no entry block"
  | .unreachableBlock label => "block " ++ label ++ " is unreachable"
  | .undefinedValue value => "value v" ++ toString value ++ " is used but never defined"
  | .frameTooLarge bytes limit =>
    "frame of " ++ toString bytes ++ " bytes exceeds the limit of " ++ toString limit
  | .codeExceeds function limit =>
    "function %" ++ function ++ " exceeds " ++ toString limit ++ " bytes"
  | .codeTooLarge function bytes limit =>
    "function %" ++ function ++ " needs " ++ toString bytes ++ " bytes; the limit is " ++
      toString limit
  | .noFinalLayout function => "function %" ++ function ++ " has no final layout to emit"
  | .noLayoutForRanges function =>
    "function %" ++ function ++
      " has no final layout; value label ranges need relaxed branches"
  | .bufferTooSmall size needed =>
    "buffer of " ++ toString size ++ " bytes cannot hold " ++ toString needed

def text (e : Failure) : String := e.kind.report e.message e.violations

end Failure
end SsaCodegen
