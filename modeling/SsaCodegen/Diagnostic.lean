import SsaCodegen.Ir.Inst
/-! Diagnostics and a log of them that counts errors and warnings. -/
namespace SsaCodegen

inductive Severity where
  | note | warning | error
  deriving DecidableEq, Repr, Inhabited

def Severity.all : List Severity := [.note, .warning, .error]

def Severity.name : Severity → String
  | .note => "note"
  | .warning => "warning"
  | .error => "error"

structure Diagnostic where
  severity : Severity
  message : String
  pos : SourcePos
  deriving DecidableEq, Repr, Inhabited

def Diagnostic.text (d : Diagnostic) : String :=
  (if d.pos.isKnown then d.pos.text ++ ": " else "") ++ d.severity.name ++ ": " ++
    d.message ++ "\n"

structure DiagnosticLog where
  entries : List Diagnostic := []
  deriving DecidableEq, Repr

namespace DiagnosticLog

def report (l : DiagnosticLog) (d : Diagnostic) : DiagnosticLog := ⟨l.entries ++ [d]⟩

def count (l : DiagnosticLog) (s : Severity) : Nat := l.entries.countP (·.severity == s)

def text (l : DiagnosticLog) : String := String.join (l.entries.map Diagnostic.text)

end DiagnosticLog
end SsaCodegen
