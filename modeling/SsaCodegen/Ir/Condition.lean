/-! Conditions of integer and float comparisons. An integer comparison is made on
32 bits when the width given is 32 and on all 64 bits otherwise; `inverse` is its
negation at every width. -/
namespace SsaCodegen

inductive IntCond where
  | eq | ne | slt | sle | sgt | sge | ult | ule | ugt | uge
  deriving DecidableEq, Repr, Inhabited

namespace IntCond

def all : List IntCond := [.eq, .ne, .slt, .sle, .sgt, .sge, .ult, .ule, .ugt, .uge]

def name : IntCond → String
  | .eq => "eq"
  | .ne => "ne"
  | .slt => "slt"
  | .sle => "sle"
  | .sgt => "sgt"
  | .sge => "sge"
  | .ult => "ult"
  | .ule => "ule"
  | .ugt => "ugt"
  | .uge => "uge"

def index : IntCond → Nat
  | .eq => 0
  | .ne => 1
  | .slt => 2
  | .sle => 3
  | .sgt => 4
  | .sge => 5
  | .ult => 6
  | .ule => 7
  | .ugt => 8
  | .uge => 9

def inverse : IntCond → IntCond
  | .eq => .ne
  | .ne => .eq
  | .slt => .sge
  | .sle => .sgt
  | .sgt => .sle
  | .sge => .slt
  | .ult => .uge
  | .ule => .ugt
  | .ugt => .ule
  | .uge => .ult

def holds {w : Nat} (c : IntCond) (a b : BitVec w) : Bool :=
  match c with
  | .eq => a == b
  | .ne => a != b
  | .slt => a.slt b
  | .sle => a.sle b
  | .sgt => b.slt a
  | .sge => b.sle a
  | .ult => a.ult b
  | .ule => a.ule b
  | .ugt => b.ult a
  | .uge => b.ule a

def evaluate (c : IntCond) (a b : BitVec 64) (bits : Nat) : Bool :=
  if bits = 32 then c.holds (a.setWidth 32) (b.setWidth 32) else c.holds a b

end IntCond

inductive FloatCond where
  | eq | ne | lt | le | gt | ge | uno | ord
  deriving DecidableEq, Repr, Inhabited

namespace FloatCond

def all : List FloatCond := [.eq, .ne, .lt, .le, .gt, .ge, .uno, .ord]

def name : FloatCond → String
  | .eq => "eq"
  | .ne => "ne"
  | .lt => "lt"
  | .le => "le"
  | .gt => "gt"
  | .ge => "ge"
  | .uno => "uno"
  | .ord => "ord"

def index : FloatCond → Nat
  | .eq => 0
  | .ne => 1
  | .lt => 2
  | .le => 3
  | .gt => 4
  | .ge => 5
  | .uno => 6
  | .ord => 7

end FloatCond
end SsaCodegen
