import SsaCodegen.Diagnostic
/-! Settings that choose what code generation does. Every setting has a name and a
textual value; a switch reads true, 1, on, false, 0 or off. -/
namespace SsaCodegen

inductive OptLevel where
  | fastest | default | best
  deriving DecidableEq, Repr, Inhabited

namespace OptLevel

def all : List OptLevel := [.fastest, .default, .best]

def name : OptLevel → String
  | .fastest => "fastest"
  | .default => "default"
  | .best => "best"

def rank : OptLevel → Nat
  | .fastest => 0
  | .default => 1
  | .best => 2

def ofName? (text : String) : Option OptLevel := all.find? (·.name == text)

end OptLevel

structure Flags where
  optLevel : OptLevel := .default
  enableVerifier : Bool := true
  enableNanCanonicalization : Bool := false
  trace : Bool := false
  deriving DecidableEq, Repr, Inhabited

inductive SettingError where
  | badValue (name value : String)
  | unknown (name : String)
  deriving DecidableEq, Repr

def SettingError.message : SettingError → String
  | .badValue name value => "invalid value '" ++ value ++ "' for setting '" ++ name ++ "'"
  | .unknown name => "unknown setting '" ++ name ++ "'"

def SettingError.diagnostic (e : SettingError) : Diagnostic := ⟨.error, e.message, {}⟩

namespace Flags

def switch? (text : String) : Option Bool :=
  if ["true", "1", "on"].contains text then some true
  else if ["false", "0", "off"].contains text then some false
  else none

def set (f : Flags) (name value : String) : Except SettingError Flags :=
  let switch (store : Bool → Flags) : Except SettingError Flags :=
    match switch? value with
    | some on => .ok (store on)
    | none => .error (.badValue name value)
  if name = "opt_level" then
    match OptLevel.ofName? value with
    | some level => .ok { f with optLevel := level }
    | none => .error (.badValue name value)
  else if name = "enable_verifier" then switch fun on => { f with enableVerifier := on }
  else if name = "enable_nan_canonicalization" then
    switch fun on => { f with enableNanCanonicalization := on }
  else if name = "trace" then switch fun on => { f with trace := on }
  else .error (.unknown name)

def enable (f : Flags) (name : String) : Except SettingError Flags := f.set name "true"

end Flags
end SsaCodegen
