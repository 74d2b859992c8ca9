import SsaCodegen.Flow.Dominators
import SsaCodegen.Opt.ValueKey
/-! Value numbering. Walking down the dominator tree, an instruction with a key that was
seen in this block or in one above it is dropped, and its uses take the value seen
first. Keys of a block are visible only below that block. -/
namespace SsaCodegen
namespace ValueNumbering

abbrev Leaders : Type := List (ValueKey × Nat)

abbrev Substitution : Type := List (Option Nat)

def Substitution.apply (s : Substitution) : Value → Value
  | .temp id => .temp ((s.getD id none).getD id)
  | v => v

structure Scope where
  leaders : Leaders
  substitution : Substitution
  dropped : Nat
  deriving DecidableEq, Repr

def numberInst (scope : Scope) (inst : Inst) : Option Inst × Scope :=
  let inst := inst.mapUses scope.substitution.apply
  match inst.valueKey?, inst.result with
  | some key, some id =>
    match scope.leaders.lookup key with
    | some leader =>
      (none,
        { scope with
          substitution := scope.substitution.set id (some leader)
          dropped := scope.dropped + 1 })
    | none => (some inst, { scope with leaders := (key, id) :: scope.leaders })
  | _, _ => (some inst, scope)

def numberInsts : Scope → List Inst → List Inst × Scope
  | scope, [] => ([], scope)
  | scope, inst :: rest =>
    let (kept, scope) := numberInst scope inst
    let (rest, scope) := numberInsts scope rest
    (kept.toList ++ rest, scope)

structure Progress where
  blocks : List Block
  substitution : Substitution
  dropped : Nat
  deriving DecidableEq, Repr

def visit (t : DomTree) : Nat → Leaders → Progress → Nat → Progress
  | 0, _, p, _ => p
  | fuel + 1, leaders, p, b =>
    let insts := (p.blocks.getD b default).insts
    let (kept, scope) := numberInsts ⟨leaders, p.substitution, p.dropped⟩ insts
    let p := ⟨p.blocks.modify b ({ · with insts := kept }), scope.substitution, scope.dropped⟩
    (t.children b).foldl (visit t fuel scope.leaders) p

end ValueNumbering

open ValueNumbering in
/-- Numbers the values of a function, and says how many instructions were dropped. Uses
in blocks walked before a value was replaced are changed at the end. -/
def numberValues (t : DomTree) (f : Func) : Func × Nat :=
  if f.blocks.isEmpty || !t.isReachable 0 then (f, 0)
  else
    let start := ⟨f.blocks, List.replicate f.numValues none, 0⟩
    let p := visit t (t.order.length + 1) [] start 0
    ({ f with blocks := p.blocks }.mapInsts (·.mapUses p.substitution.apply), p.dropped)

end SsaCodegen
