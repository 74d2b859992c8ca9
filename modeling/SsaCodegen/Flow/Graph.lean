import SsaCodegen.Flow.Rows
import SsaCodegen.Ir.Func
/-! The control flow graph. A block's successors are the blocks its terminator
names, each once and in the order named; a label that names no block gives no
edge, and of several blocks with one label the first is meant. Predecessors are
the same edges seen from the other end, in layout order. -/
namespace SsaCodegen

structure FlowGraph where
  succs : List (List Nat)
  preds : List (List Nat)
  deriving DecidableEq, Repr, Inhabited

namespace FlowGraph

def size (g : FlowGraph) : Nat := g.succs.length

def successors (g : FlowGraph) (b : Nat) : List Nat := g.succs.getD b []

def predecessors (g : FlowGraph) (b : Nat) : List Nat := g.preds.getD b []

def targetsOf (f : Func) (b : Block) : List Nat :=
  match b.terminator? with
  | some t => (t.targets.filterMap f.findBlock?).eraseDups
  | none => []

theorem targetsOfIff {f : Func} {b : Block} {t : Inst} (h : b.terminator? = some t) {s : Nat} :
    s ∈ targetsOf f b ↔ ∃ label ∈ t.targets, f.findBlock? label = some s := by
  simp [targetsOf, h, List.mem_eraseDups]

theorem nodupEraseDups (xs : List Nat) : xs.eraseDups.Nodup := by
  match xs with
  | [] => simp
  | x :: rest =>
    rw [List.eraseDups_cons]
    refine List.nodup_cons.mpr ⟨fun inside => ?_, nodupEraseDups _⟩
    simpa using (List.mem_filter.mp (List.mem_eraseDups.mp inside)).2
termination_by xs.length
decreasing_by
  exact Nat.lt_succ_of_le (List.length_filter_le ..)

theorem nodupTargetsOf (f : Func) (b : Block) : (targetsOf f b).Nodup := by
  unfold targetsOf
  split
  · exact nodupEraseDups _
  · exact List.nodup_nil

def rowsWith (rows : List (List Nat)) (b : Nat) : List Nat :=
  rows.zipIdx.filterMap fun (row, k) => if row.contains b then some k else none

def ofFunc (f : Func) : FlowGraph :=
  let succs := f.blocks.map (targetsOf f)
  ⟨succs, (List.range f.blocks.length).map (rowsWith succs)⟩

@[simp] theorem sizeOfFunc (f : Func) : (ofFunc f).size = f.blocks.length := by
  simp [size, ofFunc]

theorem memRowsWith {rows : List (List Nat)} {b k : Nat} :
    k ∈ rowsWith rows b ↔ ∃ row, rows[k]? = some row ∧ b ∈ row := by
  simp only [rowsWith, List.mem_filterMap, Prod.exists, List.mem_zipIdx_iff_getElem?,
    Option.ite_none_right_eq_some, List.contains_iff_mem]
  constructor
  · rintro ⟨row, _, found, inside, same⟩
    cases same
    exact ⟨row, found, inside⟩
  · rintro ⟨row, found, inside⟩
    exact ⟨row, k, found, inside, rfl⟩

theorem predecessorIff {f : Func} {p b : Nat} (h : b < f.blocks.length) :
    p ∈ (ofFunc f).predecessors b ↔ b ∈ (ofFunc f).successors p := by
  simp only [predecessors, successors, ofFunc, List.getD_eq_getElem?_getD, List.getElem?_map,
    List.getElem?_range h, Option.map_some, Option.getD_some, memRowsWith]
  cases f.blocks[p]? <;> simp

end FlowGraph

/-- The edges of each block, both ways, in storage that is kept from graph to graph. Rows
beyond the size are left from larger ones. -/
structure EdgeRows where
  rows : List (List Nat × List Nat) := []
  size : Nat := 0
  deriving DecidableEq, Repr, Inhabited

namespace EdgeRows

def connect (b : Nat) (rows : List (List Nat × List Nat)) (target : Nat) :
    List (List Nat × List Nat) :=
  if (rows.getD b ([], [])).1.contains target then rows
  else
    (rows.modify b fun row => (row.1 ++ [target], row.2)).modify target fun row =>
      (row.1, row.2 ++ [b])

def named (f : Func) (bb : Block) : List Nat :=
  match bb.terminator? with
  | some t => t.targets.filterMap f.findBlock?
  | none => []

def connectBlocks (f : Func) : Nat → List Block → List (List Nat × List Nat) →
    List (List Nat × List Nat)
  | _, [], rows => rows
  | b, bb :: rest, rows => connectBlocks f (b + 1) rest ((named f bb).foldl (connect b) rows)

def rebuild (old : EdgeRows) (f : Func) : EdgeRows where
  rows := connectBlocks f 0 f.blocks (Rows.reset f.blocks.length ([], []) old.rows)
  size := f.blocks.length

def graph (e : EdgeRows) : FlowGraph where
  succs := (e.rows.take e.size).map Prod.fst
  preds := (e.rows.take e.size).map Prod.snd

def clear (e : EdgeRows) : EdgeRows where
  rows := e.rows.mapIdx fun b row => if b < e.size then ([], []) else row
  size := 0

end EdgeRows
end SsaCodegen
