import SsaCodegen.Flow.Cache
/-! Loop invariants. Each loop whose header is not the entry gets a preheader: a block
that is the only way in and leads only to the header. Pure instructions that read
nothing defined in the loop then move to the end of the preheader, inner loops first. -/
namespace SsaCodegen
namespace LoopInvariant

def entering (g : FlowGraph) (l : Loop) : List Nat :=
  (g.predecessors l.header).filter fun p => !l.contains p

def preheader? (g : FlowGraph) (l : Loop) : Option Nat :=
  match entering g l with
  | [p] => if (g.successors p).length = 1 then some p else none
  | _ => none

structure Entry where
  header : String
  sources : List String
  deriving DecidableEq, Repr

def entryOf? (f : Func) (g : FlowGraph) (l : Loop) : Option Entry :=
  let sources := entering g l
  if l.header == 0 || (preheader? g l).isSome || sources.isEmpty then none
  else some ⟨(f.block l.header).label, sources.map fun p => (f.block p).label⟩

def retarget (old new : String) (bb : Block) : Block :=
  match bb.terminator? with
  | some t =>
    { bb with
      insts := bb.insts.dropLast ++
        [{ t with targets := t.targets.map fun label => if label = old then new else label }] }
  | none => bb

def insertPreheader (encode : Func → Inst → Option Encoding) (f : Func) (e : Entry) :
    Func × Bool :=
  match f.findBlock? e.header with
  | none => (f, false)
  | some header =>
    let label := f.newLabel (e.header ++ ".preheader")
    let (params, f) := f.newParams ((f.block header).params.map Param.ty)
    let jump := jumpTo e.header (params.map fun p => .temp p.id) {}
    match encode f jump with
    | none => (f, false)
    | some enc =>
      let f := e.sources.foldl (fun f source =>
        match f.findBlock? source with
        | some b => f.modifyBlock b (retarget e.header label)
        | none => f) f
      (f.insertBlock header ⟨label, params, [{ jump with enc := enc }]⟩, true)

def insertPreheaders (encode : Func → Inst → Option Encoding) :
    Func → List Entry → Func × Bool
  | f, [] => (f, false)
  | f, e :: rest =>
    let (f, now) := insertPreheader encode f e
    let (f, later) := insertPreheaders encode f rest
    (f, now || later)

/-- Per SSA value the block that defines it; of several definitions the last counts. -/
abbrev DefBlocks : Type := List (Option Nat)

def DefBlocks.ofFunc (f : Func) : DefBlocks :=
  f.blocks.zipIdx.foldl (fun defs (bb, b) =>
    (bb.paramIds ++ bb.insts.filterMap Inst.result).foldl
      (fun defs id => defs.set id (some b)) defs)
    (List.replicate f.numValues none)

def isInvariant (l : Loop) (defs : DefBlocks) (inst : Inst) : Bool :=
  inst.result.isSome && inst.op.isPure &&
    (inst.operands.filterMap Value.temp?).all fun id =>
      match defs.getD id none with
      | some b => !l.contains b
      | none => false

structure Split where
  hoisted : List Inst
  kept : List Inst
  defs : DefBlocks

/-- Takes the invariant instructions out of a list. Those taken count as defined in
the preheader for those that follow. -/
def splitInsts (l : Loop) (preheader : Nat) : DefBlocks → List Inst → Split
  | defs, [] => ⟨[], [], defs⟩
  | defs, inst :: rest =>
    if isInvariant l defs inst then
      let defs := inst.result.elim defs fun id => defs.set id (some preheader)
      let s := splitInsts l preheader defs rest
      { s with hoisted := inst :: s.hoisted }
    else
      let s := splitInsts l preheader defs rest
      { s with kept := inst :: s.kept }

def insertBeforeLast (moved insts : List Inst) : List Inst :=
  insts.dropLast ++ moved ++ insts.getLast?.toList

def hoistBlock (l : Loop) (preheader : Nat) (state : Func × DefBlocks) (b : Nat) :
    Func × DefBlocks :=
  let (f, defs) := state
  let s := splitInsts l preheader defs (f.block b).insts
  ((f.modifyBlock b ({ · with insts := s.kept })).modifyBlock preheader fun bb =>
    { bb with insts := insertBeforeLast s.hoisted bb.insts }, s.defs)

def loopSize (l : Loop) (f : Func) : Nat :=
  (l.blocks.flatMap fun b => (f.block b).insts).length

def hoistRounds (l : Loop) (preheader : Nat) : Nat → Func × DefBlocks → Func × DefBlocks
  | 0, state => state
  | rounds + 1, state =>
    let next := l.blocks.foldl (hoistBlock l preheader) state
    if loopSize l next.1 < loopSize l state.1 then hoistRounds l preheader rounds next else next

def hoistLoop (g : FlowGraph) (state : Func × DefBlocks) (l : Loop) : Func × DefBlocks :=
  match preheader? g l with
  | some p => hoistRounds l p (loopSize l state.1 + 1) state
  | none => state

def insertByDepth (l : Loop) : List Loop → List Loop
  | [] => [l]
  | m :: rest => if m.depth ≤ l.depth then l :: m :: rest else m :: insertByDepth l rest

def deepestFirst (loops : List Loop) : List Loop := loops.foldr insertByDepth []

theorem insertByDepthPerm (l : Loop) (ls : List Loop) : (insertByDepth l ls).Perm (l :: ls) := by
  induction ls with
  | nil => exact .refl _
  | cons m rest ih =>
    simp only [insertByDepth]
    split
    · exact .refl _
    · exact (ih.cons m).trans (.swap ..)

theorem deepestFirstPerm (loops : List Loop) : (deepestFirst loops).Perm loops := by
  induction loops with
  | nil => exact .refl _
  | cons l rest ih => exact (insertByDepthPerm l _).trans (ih.cons l)

def hoistAll (g : FlowGraph) (loops : List Loop) (f : Func) : Func :=
  ((deepestFirst loops).foldl (hoistLoop g) (f, DefBlocks.ofFunc f)).1

end LoopInvariant

structure Hoisting where
  func : Func
  inserted : Bool
  changed : Bool

open LoopInvariant in
/-- Inserts preheaders and hoists. When preheaders were inserted the analyses are made
anew before hoisting. -/
def hoistInvariants (encode : Func → Inst → Option Encoding) (g : FlowGraph)
    (loops : LoopForest) (f : Func) : Hoisting :=
  let (h, inserted) := insertPreheaders encode f (loops.loops.filterMap (entryOf? f g))
  if inserted then
    let h := h.noteLayoutChange
    let g := FlowGraph.ofFunc h
    let loops := LoopForest.ofFunc h g (DomTree.ofFunc h g)
    ⟨hoistAll g loops.loops h, true, true⟩
  else
    let after := hoistAll g loops.loops h
    ⟨after, false, after.blocks != h.blocks⟩

def hoistWith (encode : Func → Inst → Option Encoding) (a : Analyses) (f : Func) :
    Hoisting × Analyses :=
  let (loops, a) := a.needLoops f
  let (g, a) := a.needGraph f
  let h := hoistInvariants encode g loops f
  let a := if h.inserted then a.refreshAll h.func else a
  (h, a.refreshAll h.func)

end SsaCodegen
