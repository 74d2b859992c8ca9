import SsaCodegen.Proofs.Lowering.AtOnce
/-! Places and registers, read with a check. A slot that the function does not have, a value without a location, a
register behind the end of a table and a place that was never assigned yield no code, where the lowering goes on with
something else. The two agree where every place is known. -/
namespace SsaCodegen.X64
namespace Checked
open Lower (moveReg materialize)

def each {α β : Type} (code : α → Option (List β)) : List α → Option (List β)
  | [] => some []
  | x :: rest => do
    let first ← code x
    let later ← each code rest
    some (first ++ later)

theorem eachSome {α β : Type} {code : α → Option (List β)} {plain : α → List β} {xs : List α}
    (all : ∀ x ∈ xs, code x = some (plain x)) : each code xs = some (xs.flatMap plain) := by
  induction xs with
  | nil => rfl
  | cons x rest ih =>
    have later := ih fun y listed => all y (List.mem_cons_of_mem _ listed)
    simp only [each, all x List.mem_cons_self, later, Option.bind_eq_bind, Option.bind_some, List.flatMap_cons]

section Places
variable (f : Func)

def slotOffset (slot : Nat) : Option Int := f.stackSlots[slot]?.map StackSlot.offset

def slotDisp (slot : Nat) : Option (BitVec 32) := (slotOffset f slot).map (BitVec.ofInt 32)

def loadSlot (cls : RegClass) (dst slot : Nat) : Option (List Asm) := do
  let disp ← slotDisp f slot
  match cls with
  | .gpr => some [.inst (.load (gprOf dst) (gprOf rbp) disp .qword)]
  | .fpr => some [.inst (.movsdLoad (xmmOf dst) (gprOf rbp) disp)]

def storeSlot (cls : RegClass) (slot src : Nat) : Option (List Asm) := do
  let disp ← slotDisp f slot
  match cls with
  | .gpr => some [.inst (.store (gprOf rbp) disp (regOf src) .qword)]
  | .fpr => some [.inst (.movsdStore (gprOf rbp) disp (xmmOf src))]

def loadLocation (cls : RegClass) (dst : Nat) : Location → Option (List Asm)
  | .reg n => some (moveReg cls dst n)
  | .slot s => loadSlot f cls dst s
  | .unassigned => none

def storeLocation (cls : RegClass) (src : Nat) : Location → Option (List Asm)
  | .reg n => some (moveReg cls n src)
  | .slot s => storeSlot f cls s src
  | .unassigned => none

def loadGpr (dst : Nat) (v : Value) (wide : Bool) : Option (List Asm) :=
  match v with
  | .temp id => do loadLocation f .gpr dst (← f.locations[id]?)
  | _ => some [materialize dst v.intPayload wide]

def loadXmm (dst : Nat) : Value → Option (List Asm)
  | .temp id => do loadLocation f .fpr dst (← f.locations[id]?)
  | _ => none

def storeResult (inst : Inst) (cls : RegClass) (src : Nat) : Option (List Asm) :=
  match inst.result with
  | some id => do storeLocation f cls src (← f.locations[id]?)
  | none => some []

end Places

def Kept (f : Func) (id : Nat) : Prop :=
  f.locations[id]? = some (f.location id) ∧ ∃ cls, InClass f cls (f.location id)

theorem keptOf {f : Func} (ok : WellFormed f) (located : Located registerFile f) {id : Nat}
    (defined : id ∈ f.definedIds) : Kept f id := by
  have below : id < f.locations.length := located.sized ▸ ok.idBelow defined
  refine ⟨by rw [Func.location, List.getD_eq_getElem?_getD, List.getElem?_eq_getElem below]; rfl,
    (f.valueType id).regClass, ?_⟩
  have placed := located.placed id defined
  unfold SsaCodegen.Placed at placed
  cases home : f.location id with
  | unassigned | slot s =>
    rw [home] at placed
    exact placed
  | reg n =>
    rw [home] at placed
    exact placed.2

section PlacesRead
variable {f : Func}

theorem slotOffsetRead {s : Nat} (below : s < f.stackSlots.length) :
    slotOffset f s = some (Lower.slotOffset f s) := by
  simp only [slotOffset, Lower.slotOffset, List.getElem?_eq_getElem below, Option.map_some, Option.getD_some]

theorem slotDispRead {s : Nat} (below : s < f.stackSlots.length) : slotDisp f s = some (Lower.slotDisp f s) := by
  rw [slotDisp, slotOffsetRead below]
  rfl

theorem loadSlotRead {s : Nat} (below : s < f.stackSlots.length) (cls : RegClass) (dst : Nat) :
    loadSlot f cls dst s = some [Lower.loadSlot f cls dst s] := by
  rw [loadSlot, slotDispRead below]
  cases cls <;> rfl

theorem storeSlotRead {s : Nat} (below : s < f.stackSlots.length) (cls : RegClass) (src : Nat) :
    storeSlot f cls s src = some [Lower.storeSlot f cls s src] := by
  rw [storeSlot, slotDispRead below]
  cases cls <;> rfl

section Known
variable {k : RegClass} {l : Location} (known : InClass f k l)
include known

theorem loadLocationRead (cls : RegClass) (dst : Nat) :
    loadLocation f cls dst l = some (Lower.loadLocation f cls dst l) := by
  cases l with
  | reg n => rfl
  | slot s => exact loadSlotRead known cls dst
  | unassigned => exact known.elim

theorem storeLocationRead (cls : RegClass) (src : Nat) :
    storeLocation f cls src l = some (Lower.storeLocation f cls src l) := by
  cases l with
  | reg n => rfl
  | slot s => exact storeSlotRead known cls src
  | unassigned => exact known.elim

end Known

theorem loadGprRead {v : Value} (kept : ∀ id, v = .temp id → Kept f id) (dst : Nat) (wide : Bool) :
    loadGpr f dst v wide = some (Lower.loadGpr f dst v wide) := by
  cases v with
  | temp id =>
    obtain ⟨there, cls, known⟩ := kept id rfl
    simp only [loadGpr, there, Option.bind_eq_bind, Option.bind_some, loadLocationRead known, Lower.loadGpr]
  | _ => rfl

theorem loadXmmRead {id : Nat} (kept : Kept f id) (dst : Nat) :
    loadXmm f dst (.temp id) = some (Lower.loadXmm f dst (.temp id)) := by
  obtain ⟨there, cls, known⟩ := kept
  simp only [loadXmm, there, Option.bind_eq_bind, Option.bind_some, loadLocationRead known, Lower.loadXmm,
    Value.tempId, Value.temp?, Option.getD_some]

theorem storeResultRead {inst : Inst} (kept : ∀ id, inst.result = some id → Kept f id) (cls : RegClass)
    (src : Nat) : storeResult f inst cls src =
      some (Lower.storeLocation f cls src (Lower.resultLocation f inst)) := by
  unfold storeResult Lower.resultLocation
  cases result : inst.result with
  | none => rfl
  | some id =>
    obtain ⟨there, k, known⟩ := kept id result
    simp only [there, Option.bind_eq_bind, Option.bind_some, storeLocationRead known]

end PlacesRead

section Moves
variable (f : Func)

def loadKey (cls : RegClass) (dst key : Nat) : Option (List Asm) :=
  if slotKeyBase ≤ key then loadSlot f cls dst (key - slotKeyBase) else some (moveReg cls dst key)

def storeKey (cls : RegClass) (key src : Nat) : Option (List Asm) :=
  if slotKeyBase ≤ key then storeSlot f cls (key - slotKeyBase) src else some (moveReg cls key src)

def lowerMove : Move → Option (List Asm)
  | .copy cls src dst =>
    if dst < slotKeyBase then loadKey f cls dst src
    else if src < slotKeyBase then storeKey f cls dst src
    else do
      let loaded ← loadKey f cls (Lower.scratchOf cls) src
      let stored ← storeKey f cls dst (Lower.scratchOf cls)
      some (loaded ++ stored)
  | .toTemp cls src => loadKey f cls (Lower.cycleTempOf cls) src
  | .fromTemp cls dst => storeKey f cls dst (Lower.cycleTempOf cls)

def lowerMoves (copies : List Copy) : Option (List Asm) := each (lowerMove f) (resolveCopies copies)

def keyOf (l : Location) : Option Nat := if l.isAssigned then some (locationKey l) else none

def copyInto (move : Value × Location) : Option (List Copy) :=
  match move.1 with
  | .temp id => do
    let src ← keyOf (← f.locations[id]?)
    let dst ← keyOf move.2
    some [⟨src, dst, (f.valueType id).regClass⟩]
  | _ => some []

def literalInto (move : Value × Location) : Option (List Asm) :=
  if move.1.isTemp then some []
  else
    let wide := (operandTy f move.1).isWide
    match move.2 with
    | .reg n => some [materialize n move.1.intPayload wide]
    | .slot s => do some (materialize rax move.1.intPayload wide :: (← storeSlot f .gpr s rax))
    | .unassigned => none

def parallelMove (values : List Value) (dests : List Location) : Option (List Asm) := do
  let copies ← each (copyInto f) (values.zip dests)
  let copied ← lowerMoves f copies
  let literals ← each (literalInto f) (values.zip dests)
  some (copied ++ literals)

end Moves

section MovesRead
variable {f : Func}

def KeyThere (f : Func) (key : Nat) : Prop := ∃ cls, InClass f cls (placeAt key)

theorem loadKeyRead {key : Nat} (there : KeyThere f key) (cls : RegClass) (dst : Nat) :
    loadKey f cls dst key = some (Lower.loadKey f cls dst key) := by
  obtain ⟨k, known⟩ := there
  rw [loadKeyIs, ← loadLocationRead known, loadKey, placeAt]
  split <;> rfl

theorem storeKeyRead {key : Nat} (there : KeyThere f key) (cls : RegClass) (src : Nat) :
    storeKey f cls key src = some (Lower.storeKey f cls key src) := by
  obtain ⟨k, known⟩ := there
  rw [storeKeyIs, ← storeLocationRead known, storeKey, placeAt]
  split <;> rfl

theorem lowerMoveRead {copies : List Copy} (there : ∀ c ∈ copies, KeyThere f c.src ∧ KeyThere f c.dst) {m : Move}
    (serves : m.Serves copies) : lowerMove f m = some (Lower.lowerMove f m) := by
  cases m with
  | copy cls src dst =>
    obtain ⟨source, dest⟩ := there _ serves
    unfold lowerMove Lower.lowerMove
    simp only [loadKeyRead source, storeKeyRead dest, Option.bind_eq_bind, Option.bind_some]
    split
    · rfl
    · split <;> rfl
  | toTemp cls src =>
    obtain ⟨dst, listed⟩ := serves
    exact loadKeyRead (there _ listed).1 ..
  | fromTemp cls dst =>
    obtain ⟨src, listed⟩ := serves
    exact storeKeyRead (there _ listed).2 ..

theorem lowerMovesRead {copies : List Copy} (there : ∀ c ∈ copies, KeyThere f c.src ∧ KeyThere f c.dst) :
    lowerMoves f copies = some (Lower.lowerMoves f copies) :=
  eachSome fun m inside => lowerMoveRead there (resolveCopiesServe copies m inside)

theorem keyOfRead {k : RegClass} {l : Location} (known : InClass f k l) :
    keyOf l = some (locationKey l) ∧ KeyThere f (locationKey l) := by
  refine ⟨?_, k, (placeOfKey known).symm ▸ known⟩
  cases l with
  | unassigned => exact known.elim
  | _ => rfl

section ParallelMove
variable {moves : List (Value × Location)} (kept : ∀ e ∈ moves, ∀ id, e.1 = .temp id → Kept f id)
  (dests : ∀ e ∈ moves, ∃ cls, InClass f cls e.2)
include kept dests

theorem copyRead {e : Value × Location} (inside : e ∈ moves) : copyInto f e = some (Lower.copiesInto f [e]) := by
  obtain ⟨v, dst⟩ := e
  cases v with
  | temp id =>
    obtain ⟨there, k, known⟩ := kept _ inside id rfl
    obtain ⟨cls, known'⟩ := dests _ inside
    have assigned : (f.location id).isAssigned = true := by
      cases home : f.location id with
      | unassigned =>
        rw [home] at known
        exact known.elim
      | _ => rfl
    simp only [copyInto, there, (keyOfRead known).1, (keyOfRead known').1, Lower.copiesInto, List.filterMap_cons,
      assigned, if_true, Option.bind_eq_bind, Option.bind_some, List.filterMap_nil]
  | _ => rfl

theorem copiesRead : each (copyInto f) moves = some (Lower.copiesInto f moves) := by
  have flat (ms : List (Value × Location)) :
      ms.flatMap (fun e => Lower.copiesInto f [e]) = Lower.copiesInto f ms := by
    induction ms with
    | nil => rfl
    | cons e rest ih =>
      rw [List.flatMap_cons, ih]
      exact (List.filterMap_append (l := [e])).symm
  rw [← flat]
  exact eachSome fun e inside => copyRead kept dests inside

theorem copiesThere : ∀ c ∈ Lower.copiesInto f moves, KeyThere f c.src ∧ KeyThere f c.dst := by
  intro c inside
  obtain ⟨id, loc, listed, rfl⟩ := Routed.memCopies inside
  obtain ⟨-, k, known⟩ := kept _ listed id rfl
  obtain ⟨cls, known'⟩ := dests _ listed
  exact ⟨(keyOfRead known).2, (keyOfRead known').2⟩

omit kept in
theorem literalRead {e : Value × Location} (inside : e ∈ moves) :
    literalInto f e = some (if e.1.isTemp then [] else Lower.literalInto f e.1 e.2) := by
  obtain ⟨cls, known⟩ := dests e inside
  unfold literalInto
  split
  · rfl
  · unfold Lower.literalInto
    cases located : e.2 with
    | reg n => rfl
    | slot s =>
      rw [located] at known
      simp only [storeSlotRead known, Option.bind_eq_bind, Option.bind_some]
    | unassigned =>
      rw [located] at known
      exact known.elim

end ParallelMove

theorem parallelMoveRead {values : List Value} {dests : List Location}
    (kept : ∀ v ∈ values, ∀ id, v = .temp id → Kept f id) (known : ∀ l ∈ dests, ∃ cls, InClass f cls l) :
    parallelMove f values dests = some (Lower.parallelMove f values dests) := by
  have sources : ∀ e ∈ values.zip dests, ∀ id, e.1 = .temp id → Kept f id :=
    fun e listed => kept e.1 (List.of_mem_zip listed).1
  have places : ∀ e ∈ values.zip dests, ∃ cls, InClass f cls e.2 :=
    fun e listed => known e.2 (List.of_mem_zip listed).2
  simp only [parallelMove, copiesRead sources places, lowerMovesRead (copiesThere sources places),
    eachSome fun e inside => literalRead places inside, Option.bind_eq_bind, Option.bind_some]
  rfl

end MovesRead

def assignFrom (ints floats : List Nat) (nextInt nextFloat : Nat) : List Ty → Option (List Nat)
  | [] => some []
  | ty :: rest =>
    if ty.isFloat then do
      let reg ← floats[nextFloat]?
      let later ← assignFrom ints floats nextInt (nextFloat + 1) rest
      some (reg :: later)
    else do
      let reg ← ints[nextInt]?
      let later ← assignFrom ints floats (nextInt + 1) nextFloat rest
      some (reg :: later)

theorem assignFromRead {ints floats : List Nat} {i k : Nat} {types : List Ty}
    (fits : fitsClasses (ints.drop i) (floats.drop k) types = true) :
    assignFrom ints floats i k types = some (assignByClass (ints.drop i) (floats.drop k) types) := by
  have next {regs later : List Nat} {n m : Nat} (split : regs.drop m = n :: later) :
      regs[m]? = some n ∧ regs.drop (m + 1) = later := by
    constructor
    · rw [← List.head?_drop, split]
      rfl
    · rw [← List.tail_drop, split]
      rfl
  induction types generalizing i k with
  | nil => rfl
  | cons ty rest ih =>
    rcases assignStep fits with ⟨float, n, later, split, fewer, step⟩ | ⟨float, n, later, split, fewer, step⟩
    · obtain ⟨first, others⟩ := next split
      rw [step, ← others, assignFrom, if_pos float, first, ih (others.symm ▸ fewer)]
      rfl
    · obtain ⟨first, others⟩ := next split
      rw [step, ← others, assignFrom, if_neg (by simp [float]), first, ih (others.symm ▸ fewer)]
      rfl

def argRegs (types : List Ty) : Option (List Nat) := assignFrom systemV.intArgs systemV.floatArgs 0 0 types

def returnRegs (types : List Ty) : Option (List Nat) := assignFrom systemV.intReturns systemV.floatReturns 0 0 types

theorem argRegsRead {types : List Ty} (fits : fitsArgRegs types = true) :
    argRegs types = some (X64.argRegs types) := assignFromRead fits

theorem returnRegsRead {types : List Ty} (fits : fitsReturnRegs types = true) :
    returnRegs types = some (X64.returnRegs types) := assignFromRead fits

end Checked
end SsaCodegen.X64
