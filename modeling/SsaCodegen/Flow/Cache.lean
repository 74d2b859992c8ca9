import SsaCodegen.Flow.Loops
/-! Cached analyses. A graph remembers the layout version it was made for, a dominator
tree the run that made its graph, and a loop forest the run that made its tree. An
analysis is current while its source is the one remembered. -/
namespace SsaCodegen

/-- A result in storage that is kept from run to run. It may be out of date. The runs made so
far number the results. -/
structure Cached (σ : Type) where
  kept : σ
  valid : Bool := false
  source : Nat := 0
  runs : Nat := 0
  deriving DecidableEq, Repr, Inhabited

namespace Cached
variable {σ α : Type}

def isValid (c : Cached σ) : Bool := c.valid

def isFrom (c : Cached σ) (source : Nat) : Bool := c.isValid && c.source == source

def store (c : Cached σ) (source : Nat) (kept : σ) : Cached σ := ⟨kept, true, source, c.runs + 1⟩

def drop (clear : σ → σ) (c : Cached σ) : Cached σ := { c with kept := clear c.kept, valid := false }

def read (view : σ → α) (c : Cached σ) : Option α := if c.valid then some (view c.kept) else none

@[simp] theorem isFromStore (c : Cached σ) (source : Nat) (kept : σ) :
    (c.store source kept).isFrom source = true := by simp [isFrom, isValid, store]

end Cached

structure Analyses where
  graph : Cached EdgeRows := { kept := {} }
  tree : Cached TreeStore := { kept := {} }
  loops : Cached LoopStore := { kept := {} }
  deriving DecidableEq, Repr, Inhabited

namespace Analyses

def graph? (a : Analyses) : Option FlowGraph := a.graph.read EdgeRows.graph

def tree? (a : Analyses) : Option DomTree := a.tree.read TreeStore.tree

def loops? (a : Analyses) : Option LoopForest := a.loops.read LoopStore.forest

def currentGraph? (a : Analyses) (f : Func) : Option FlowGraph :=
  if a.graph.isFrom f.layoutVersion then a.graph? else none

def isTreeCurrent (a : Analyses) : Bool := a.graph.isValid && a.tree.isFrom a.graph.runs

def areLoopsCurrent (a : Analyses) : Bool := a.tree.isValid && a.loops.isFrom a.tree.runs

def currentTree? (a : Analyses) : Option DomTree :=
  if a.isTreeCurrent then a.tree? else none

def currentLoops? (a : Analyses) : Option LoopForest :=
  if a.areLoopsCurrent then a.loops? else none

def dropTree (a : Analyses) : Analyses :=
  { a with tree := a.tree.drop TreeStore.clear, loops := a.loops.drop LoopStore.clear }

def drop (a : Analyses) : Analyses :=
  { a.dropTree with graph := a.graph.drop EdgeRows.clear }

def computeGraph (a : Analyses) (f : Func) : FlowGraph × Analyses :=
  let kept := a.graph.kept.rebuild f
  (kept.graph, { a with graph := a.graph.store f.layoutVersion kept })

def needGraph (a : Analyses) (f : Func) : FlowGraph × Analyses :=
  match a.currentGraph? f with
  | some g => (g, a)
  | none => a.computeGraph f

def computeTree (a : Analyses) (f : Func) : DomTree × Analyses :=
  let (g, a) := a.needGraph f
  let kept := a.tree.kept.rebuild f.blocks.length g
  (kept.tree, { a with tree := a.tree.store a.graph.runs kept })

def needTree (a : Analyses) (f : Func) : DomTree × Analyses :=
  let (_, a) := a.needGraph f
  match a.currentTree? with
  | some t => (t, a)
  | none => a.computeTree f

def storeLoops (a : Analyses) (kept : LoopStore) : Analyses :=
  { a with loops := a.loops.store a.tree.runs kept }

def computeLoops (a : Analyses) (f : Func) : LoopForest × Analyses :=
  let (t, a) := a.needTree f
  let (g, a) := a.needGraph f
  let kept := a.loops.kept.rebuild f.blocks.length g t
  (kept.forest, a.storeLoops kept)

def needLoops (a : Analyses) (f : Func) : LoopForest × Analyses :=
  let (_, a) := a.needTree f
  match a.currentLoops? with
  | some l => (l, a)
  | none => a.computeLoops f

def refreshFlow (a : Analyses) (f : Func) : Analyses := ((a.computeGraph f).2.computeTree f).2

def refreshAll (a : Analyses) (f : Func) : Analyses := ((a.refreshFlow f).computeLoops f).2

end Analyses
end SsaCodegen
