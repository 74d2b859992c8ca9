import SsaCodegen.Ir.Inst
/-! Functions: blocks in layout order, the type of every SSA value, and the side
tables that code generation fills in (locations, stack slots, frame, constant
pool, block offsets). The layout version changes whenever blocks or edges do. -/
namespace SsaCodegen

structure Param where
  id : Nat
  ty : Ty
  deriving DecidableEq, Repr, Inhabited

structure Block where
  label : String
  params : List Param := []
  insts : List Inst := []
  deriving DecidableEq, Repr, Inhabited

namespace Block

def terminator? (b : Block) : Option Inst := b.insts.getLast?.filter Inst.isTerminator

def paramIds (b : Block) : List Nat := b.params.map Param.id

def mapInsts (f : Inst → Inst) (b : Block) : Block := { b with insts := b.insts.map f }

end Block

inductive Location where
  | unassigned
  | reg (number : Nat)
  | slot (index : Nat)
  deriving DecidableEq, Repr, Inhabited

def Location.isAssigned : Location → Bool
  | .unassigned => false
  | _ => true

structure StackSlot where
  size : Nat := 8
  offset : Int := 0
  deriving DecidableEq, Repr, Inhabited

structure Frame where
  laidOut : Bool := false
  spillAreaSize : Nat := 0
  savedRegs : List Nat := []
  deriving DecidableEq, Repr, Inhabited

structure ValueLabel where
  value : Nat
  label : Nat
  deriving DecidableEq, Repr, Inhabited

structure Func where
  name : String := ""
  signature : Signature := {}
  blocks : List Block := []
  valueTypes : List Ty := []
  locations : List Location := []
  stackSlots : List StackSlot := []
  frame : Frame := {}
  constants : List (BitVec 64) := []
  blockOffsets : List Nat := []
  constantPoolOffset : Nat := 0
  valueLabels : List ValueLabel := []
  layoutVersion : Nat := 0
  deriving DecidableEq, Repr, Inhabited

/-- The shortest continuation of `stem` by a number, from the count of labels in
use upwards, that is not in use. Among one more candidates than labels one is free. -/
def freshLabel (used : List String) (stem : String) : String :=
  let candidates := (List.range (used.length + 1)).map (used.length + ·)
  match candidates.find? (fun n => !used.contains (stem ++ toString n)) with
  | some n => stem ++ toString n
  | none => stem

def internConstant (pool : List (BitVec 64)) (bits : BitVec 64) : Nat × List (BitVec 64) :=
  if pool.contains bits then (pool.idxOf bits, pool) else (pool.length, pool ++ [bits])

namespace Func

def numValues (f : Func) : Nat := f.valueTypes.length

def valueType (f : Func) (id : Nat) : Ty := f.valueTypes.getD id .void

def location (f : Func) (id : Nat) : Location := f.locations.getD id .unassigned

def labels (f : Func) : List String := f.blocks.map Block.label

def findBlock? (f : Func) (label : String) : Option Nat :=
  f.blocks.findIdx? (·.label == label)

def block (f : Func) (b : Nat) : Block := f.blocks.getD b default

def newLabel (f : Func) (stem : String) : String := freshLabel f.labels stem

def newValue (f : Func) (ty : Ty) : Nat × Func :=
  (f.numValues, { f with valueTypes := f.valueTypes ++ [ty] })

def newParams (f : Func) (types : List Ty) : List Param × Func :=
  (types.mapIdx fun k ty => { id := f.numValues + k, ty := ty },
   { f with valueTypes := f.valueTypes ++ types })

def addConstant (f : Func) (bits : BitVec 64) : Nat × Func :=
  let (k, pool) := internConstant f.constants bits
  (k, { f with constants := pool })

def noteLayoutChange (f : Func) : Func := { f with layoutVersion := f.layoutVersion + 1 }

def clear (f : Func) : Func := { layoutVersion := f.layoutVersion + 1 }

def mapBlocks (g : Block → Block) (f : Func) : Func := { f with blocks := f.blocks.map g }

def mapInsts (g : Inst → Inst) (f : Func) : Func := f.mapBlocks (·.mapInsts g)

def modifyBlock (f : Func) (b : Nat) (g : Block → Block) : Func :=
  { f with blocks := f.blocks.modify b g }

def insertBlock (f : Func) (offset : Nat) (b : Block) : Func :=
  { f with blocks := f.blocks.insertIdx offset b }

def insts (f : Func) : List Inst := f.blocks.flatMap Block.insts

def replaceUses (f : Func) (id : Nat) (v : Value) : Func :=
  let g := f.mapInsts (·.mapUses fun u => if u = .temp id then v else u)
  match v with
  | .temp new =>
      { g with
        valueLabels := g.valueLabels.map fun a => if a.value = id then ⟨new, a.label⟩ else a }
  | _ => g

def countUses (f : Func) : List Nat :=
  f.insts.foldl (fun counts i =>
    i.usedTemps.foldl (fun counts id => counts.modify id (· + 1)) counts)
    (List.replicate f.numValues 0)

theorem findBlockLabel {f : Func} {label : String} {b : Nat}
    (h : f.findBlock? label = some b) : (f.block b).label = label := by
  obtain ⟨inside, same, _⟩ := List.findIdx?_eq_some_iff_getElem.mp h
  simpa [block, List.getElem?_eq_getElem inside] using same

@[simp] theorem findBlockMapInsts (g : Inst → Inst) (f : Func) (label : String) :
    (f.mapInsts g).findBlock? label = f.findBlock? label := by
  simp [findBlock?, mapInsts, mapBlocks, Block.mapInsts, List.findIdx?_map, Function.comp_def]

@[simp] theorem instsMapInsts (g : Inst → Inst) (f : Func) :
    (f.mapInsts g).insts = f.insts.map g := by
  simp [insts, mapInsts, mapBlocks, Block.mapInsts, List.flatMap_map, List.map_flatMap]

end Func
end SsaCodegen
