/-! What a verifier finds wrong, and where. -/
namespace SsaCodegen

structure Violation where
  place : String
  context : String
  message : String
  deriving DecidableEq, Repr, Inhabited

namespace Violation

def text (v : Violation) : String :=
  v.place ++ ": " ++ v.message ++
    (if v.context.isEmpty then "" else " (" ++ v.context ++ ")")

def report (vs : List Violation) : String := String.join (vs.map fun v => v.text ++ "\n")

def occursIn (needle : List Char) : List Char → Bool
  | [] => needle.isEmpty
  | c :: rest => needle.isPrefixOf (c :: rest) || occursIn needle rest

def mentions (vs : List Violation) (needle : String) : Bool :=
  vs.any fun v => occursIn needle.toList v.message.toList

end Violation

def complainUnless {α : Type} (ok : Bool) (complaint : α) : List α :=
  if ok then [] else [complaint]

@[simp] theorem complainUnlessIff {α : Type} {ok : Bool} {complaint : α} :
    complainUnless ok complaint = [] ↔ ok = true := by
  cases ok <;> simp [complainUnless]

end SsaCodegen
