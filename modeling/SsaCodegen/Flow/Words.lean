/-! Sets of numbers in words of 64 bits. A number is in a set when the bit for it is. -/
namespace SsaCodegen

abbrev Words : Type := List (BitVec 64)

namespace Words

def empty (words : Nat) : Words := List.replicate words 0#64

def test (s : Words) (v : Nat) : Bool :=
  match s[v / 64]? with
  | some word => word.getLsbD (v % 64)
  | none => false

def insert (s : Words) (v : Nat) : Words := s.modify (v / 64) (· ||| 1#64 <<< (v % 64))

def union (s t : Words) : Words := List.zipWith (· ||| ·) s t

def minus (s t : Words) : Words := List.zipWith (fun a b => a &&& ~~~b) s t

def bitPlaces : Nat → BitVec 64 → List Nat
  | 0, _ => []
  | left + 1, bits =>
    if bits = 0#64 then [] else bits.ctz.toNat :: bitPlaces left (bits &&& (bits - 1#64))

def members (s : Words) : List Nat :=
  s.zipIdx.flatMap fun (word, w) => (bitPlaces 64 word).map (64 * w + ·)

end Words

end SsaCodegen
