/-! Value types, calling conventions and signatures. A signature's text lists the
parameters in brackets, then the returns after an arrow when there are any, then
the calling convention. -/
namespace SsaCodegen

inductive Ty where
  | void | b1 | i32 | i64 | f64 | r64
  deriving DecidableEq, Repr, Inhabited

namespace Ty

def all : List Ty := [.void, .b1, .i32, .i64, .f64, .r64]

def name : Ty → String
  | .void => "void"
  | .b1 => "b1"
  | .i32 => "i32"
  | .i64 => "i64"
  | .f64 => "f64"
  | .r64 => "r64"

def bits : Ty → Nat
  | .void => 0
  | .b1 => 1
  | .i32 => 32
  | .i64 | .f64 | .r64 => 64

def index : Ty → Nat
  | .void => 0
  | .b1 => 1
  | .i32 => 2
  | .i64 => 3
  | .f64 => 4
  | .r64 => 5

def isVoid (t : Ty) : Bool := t == .void
def isInt (t : Ty) : Bool := t == .i32 || t == .i64
def isBool (t : Ty) : Bool := t == .b1
def isFloat (t : Ty) : Bool := t == .f64
def isRef (t : Ty) : Bool := t == .r64

def isWide (t : Ty) : Bool := t == .i64 || t == .r64

end Ty

inductive CallConv where
  | systemV | fast
  deriving DecidableEq, Repr, Inhabited

namespace CallConv

def all : List CallConv := [.systemV, .fast]

def name : CallConv → String
  | .systemV => "system_v"
  | .fast => "fast"

end CallConv

structure Signature where
  params : List Ty := []
  returns : List Ty := []
  callConv : CallConv := .systemV
  deriving DecidableEq, Repr, Inhabited

namespace Signature

def commaNames (types : List Ty) : String := ", ".intercalate (types.map Ty.name)

def text (s : Signature) : String :=
  "(" ++ commaNames s.params ++ ")" ++
    (if s.returns.isEmpty then "" else " -> " ++ commaNames s.returns) ++
    " " ++ s.callConv.name

end Signature
end SsaCodegen
