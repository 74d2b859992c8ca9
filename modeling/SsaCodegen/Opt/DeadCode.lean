import SsaCodegen.Flow.Dominators
/-! Dead code. A pure instruction in a reachable block whose result nothing uses goes
away. That can leave others unused, so the walk is backwards through the blocks and what is
in them, with the uses counted down as it goes, and is repeated until nothing goes. -/
namespace SsaCodegen
namespace DeadCode

structure Progress where
  func : Func
  uses : List Nat
  removed : Nat

def start (f : Func) : Progress := ⟨f, f.countUses, 0⟩

def isDead (uses : List Nat) (inst : Inst) : Bool :=
  match inst.result with
  | some id => inst.op.isPure && uses.getD id 0 == 0
  | none => false

theorem deadPure {uses : List Nat} {inst : Inst} (h : isDead uses inst = true) :
    inst.op.isPure = true := by
  unfold isDead at h
  split at h
  · exact (Bool.and_eq_true_iff.mp h).1
  · cases h

def forget (uses : List Nat) (inst : Inst) : List Nat :=
  inst.usedTemps.foldl (fun uses id => uses.modify id (· - 1)) uses

def drop (s : Progress) (b i : Nat) (inst : Inst) : Progress where
  func := s.func.modifyBlock b fun bb => { bb with insts := bb.insts.eraseIdx i }
  uses := forget s.uses inst
  removed := s.removed + 1

def visit (b : Nat) (s : Progress) (i : Nat) : Progress :=
  match (s.func.block b).insts[i]? with
  | some inst => if isDead s.uses inst then drop s b i inst else s
  | none => s

def sweepBlock (s : Progress) (b : Nat) : Progress :=
  (List.range (s.func.block b).insts.length).reverse.foldl (visit b) s

def sweep (order : List Nat) (s : Progress) : Progress := order.reverse.foldl sweepBlock s

/-- Each round but the last drops an instruction, so as many rounds as there are
instructions, and one, are enough. -/
def sweepAll (order : List Nat) : Nat → Progress → Progress
  | 0, s => s
  | rounds + 1, s =>
    let next := sweep order s
    if next.removed = s.removed then next else sweepAll order rounds next

end DeadCode

open DeadCode in
def eliminateDeadCode (t : DomTree) (f : Func) : Func × Nat :=
  let done := sweepAll t.order (f.insts.length + 1) (start f)
  (done.func, done.removed)

end SsaCodegen
