import SsaCodegen.Ir.Func
import SsaCodegen.Target.RegisterFile
/-! Runs of functions. What instructions compute and how they act on the world is left open,
and so is how values are kept: under their own names, or in locations. A run is the list of
the instructions it passes with every word they read. -/
namespace SsaCodegen.Machine

/-- The meaning of instructions. An instruction gives a word and the world after it, a
terminator the edge it takes; where nothing is given the run ends there. -/
structure Meaning (Word World : Type) where
  literal : Value → Word
  act : Inst → List Word → World → Option (Word × World)
  choose : Inst → List Word → World → Option (Nat × World)

/-- How values are kept. `across` is what an instruction does to the store after it read
its operands and before it writes its result. -/
structure Keeping (Word Store : Type) where
  read : Store → Nat → Word
  across : Inst → Store → Store
  write : Store → Nat → Word → Store

structure State (Store World : Type) where
  block : Nat
  index : Nat
  store : Store
  world : World

structure Event (Word World : Type) where
  block : Nat
  index : Nat
  operands : List Word
  args : List Word
  world : World

variable {Word World Store : Type}

def value (m : Meaning Word World) (k : Keeping Word Store) (store : Store) : Value → Word
  | .temp id => k.read store id
  | v => m.literal v

def assign (k : Keeping Word Store) (store : Store) (pairs : List (Nat × Word)) : Store :=
  pairs.foldl (fun store pair => k.write store pair.1 pair.2) store

def step (m : Meaning Word World) (k : Keeping Word Store) (f : Func) (s : State Store World) :
    Option (Event Word World × Option (State Store World)) :=
  match (f.block s.block).insts[s.index]? with
  | none => none
  | some inst =>
    let words := inst.operands.map (value m k s.store)
    let stops := (⟨s.block, s.index, words, [], s.world⟩, none)
    if inst.isTerminator then
      match m.choose inst words s.world with
      | none => some stops
      | some (edge, world) =>
        match inst.targets[edge]?.bind f.findBlock? with
        | none => some stops
        | some target =>
          let args := (inst.argsOf edge).map (value m k s.store)
          let store := assign k s.store ((f.block target).paramIds.zip args)
          some (⟨s.block, s.index, words, args, s.world⟩, some ⟨target, 0, store, world⟩)
    else
      match m.act inst words s.world with
      | none => some stops
      | some (word, world) =>
        let after := k.across inst s.store
        let store := match inst.result with
          | some id => k.write after id word
          | none => after
        some (⟨s.block, s.index, words, [], s.world⟩, some ⟨s.block, s.index + 1, store, world⟩)

def trace (m : Meaning Word World) (k : Keeping Word Store) (f : Func) :
    Nat → State Store World → List (Event Word World)
  | 0, _ => []
  | n + 1, s =>
    match step m k f s with
    | none => []
    | some (event, none) => [event]
    | some (event, some next) => event :: trace m k f n next

def start (k : Keeping Word Store) (f : Func) (store : Store) (args : Nat → Word) (world : World) :
    State Store World :=
  let pairs := (f.block 0).paramIds.zipIdx.map fun (id, position) => (id, args position)
  ⟨0, 0, assign k store pairs, world⟩

def named : Keeping Word (Nat → Word) where
  read env id := env id
  across _ env := env
  write env id word v := if v = id then word else env v

structure Cells (Word : Type) where
  held : Location → Word
  calls : Nat

def Cells.clobber (regs : RegisterFile) (junk : Nat → Nat → Word) (cells : Cells Word) :
    Cells Word where
  held
    | .reg n => if regs.isCalleeSaved n then cells.held (.reg n) else junk cells.calls n
    | l => cells.held l
  calls := cells.calls + 1

/-- Values in the locations they are assigned; `junk` is what calls leave in registers. -/
def located (regs : RegisterFile) (f : Func) (junk : Nat → Nat → Word) :
    Keeping Word (Cells Word) where
  read cells id := cells.held (f.location id)
  across inst cells := if inst.op = .call then cells.clobber regs junk else cells
  write cells id word :=
    { cells with held := fun l => if l = f.location id then word else cells.held l }

end SsaCodegen.Machine
