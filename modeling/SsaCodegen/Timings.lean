/-! Time spent and runs made per named stage, in the order of first use. Durations are
nanoseconds; the text shows whole microseconds, cut toward zero. -/
namespace SsaCodegen

structure TimingEntry where
  id : String
  total : Int
  runs : Nat
  deriving DecidableEq, Repr, Inhabited

def TimingEntry.text (e : TimingEntry) : String :=
  e.id ++ " " ++ toString e.runs ++ " " ++ toString (e.total.tdiv 1000) ++ "us\n"

structure Timings where
  entries : List TimingEntry := []
  deriving DecidableEq, Repr, Inhabited

namespace Timings

def find? (t : Timings) (id : String) : Option TimingEntry := t.entries.find? (·.id == id)

def record (t : Timings) (id : String) (elapsed : Int) : Timings :=
  if (t.find? id).isSome then
    ⟨t.entries.map fun e =>
      if e.id == id then { e with total := e.total + elapsed, runs := e.runs + 1 } else e⟩
  else ⟨t.entries ++ [⟨id, elapsed, 1⟩]⟩

def text (t : Timings) : String := String.join (t.entries.map TimingEntry.text)

end Timings
end SsaCodegen
