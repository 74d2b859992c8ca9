import SsaCodegen.Proofs.Execution.Arithmetic
import SsaCodegen.Verify.Structure
/-! What functions do when they run. Integer operations, comparisons, constants and branches
have their own meaning; what calls give, what memory holds and what float operations compute
is left open. Values are words under their names, and a value that was not defined cannot be
read. A run is watched by the calls, loads, stores and traps it makes, and by its end. -/
namespace SsaCodegen

inductive Observation where
  | call (callee : String) (args : List (Ty × Word))
  | load (ty : Ty) (address : Word)
  | store (ty : Ty) (value address : Word)
  | trap (code : TrapCode)
  deriving DecidableEq, Repr

/-- What surrounds a function. Calls may not come back, and memory may not be accessible. -/
structure Surroundings (World : Type) where
  call : String → List (Ty × Word) → World → Option (Word × World)
  load : Ty → Word → World → Option Word
  store : Ty → Word → Word → World → Option World
  address : String → Word
  float : Opcode → FloatCond → Ty → List Word → Word

def nowhere : Surroundings Unit where
  call _ _ _ := none
  load _ _ _ := none
  store _ _ _ _ := none
  address _ := 0
  float _ _ _ _ := 0

inductive Ending where
  | returned (words : List Word)
  | trapped
  | away
  | stuck
  deriving DecidableEq, Repr

namespace Semantics
variable {World : Type}

inductive Effect (World : Type) where
  | gives (seen : List Observation) (word : Word) (world : World)
  | ends (seen : List Observation) (ending : Ending)

inductive Departure where
  | takes (edge : Nat)
  | ends (seen : List Observation) (ending : Ending)

abbrev Registers : Type := Nat → Option Word

structure State (World : Type) where
  regs : Registers
  world : World
  trace : List Observation

inductive Exit (World : Type) where
  | jumps (block : Nat) (args : List Word) (state : State World)
  | ends (ending : Ending) (state : State World)

def compareTy (f : Func) (inst : Inst) : Ty :=
  match inst.operand 0, inst.operand 1 with
  | .temp id, _ => f.valueType id
  | _, .temp id => f.valueType id
  | _, _ => .i64

def operandTy (f : Func) (inst : Inst) (k : Nat) : Ty :=
  match inst.op with
  | .iconst | .copy | .iadd | .isub | .imul | .sdiv | .udiv | .srem | .urem | .band | .bor | .bxor =>
    inst.ty
  | .ishl | .ushr | .sshr | .store => if k = 0 then inst.ty else .i64
  | .icmp | .brIcmp => compareTy f inst
  | .select => if k = 0 then .b1 else inst.ty
  | .sextend | .uextend => .i32
  | .ret => f.signature.returns.getD k .void
  | _ => .i64

def readAs (regs : Registers) (ty : Ty) : Value → Option Word
  | .temp id => regs id
  | .int word => some (ty.canonical word)
  | .bool flag => some (BitVec.ofNat 64 flag.toNat)
  | .float bits => some bits

def readOperands (f : Func) (inst : Inst) (regs : Registers) : Option (List Word) :=
  inst.operands.zipIdx.mapM fun (v, k) => readAs regs (operandTy f inst k) v

def readArgs (params : List Param) (args : List Value) (regs : Registers) : Option (List Word) :=
  (args.zip params).mapM fun (v, p) => readAs regs p.ty v

def comparison (f : Func) (inst : Inst) (a b : Word) : Bool :=
  let bits := (compareTy f inst).bits
  Arithmetic.compare inst.intCond (a.setWidth bits) (b.setWidth bits)

def compute (o : Surroundings World) (f : Func) (inst : Inst) (words : List Word) : Option Word :=
  match inst.op, words with
  | .iconst, [a] | .bconst, [a] | .fconst, [a] | .copy, [a] | .ireduce, [a] => some a
  | .sextend, [a] => some ((a.setWidth 32).signExtend 64)
  | .uextend, [a] => some ((a.setWidth 32).setWidth 64)
  | .iadd, [a, b] | .isub, [a, b] | .imul, [a, b] | .band, [a, b] | .bor, [a, b] | .bxor, [a, b]
  | .ishl, [a, b] | .ushr, [a, b] | .sshr, [a, b]
  | .sdiv, [a, b] | .udiv, [a, b] | .srem, [a, b] | .urem, [a, b] =>
    Arithmetic.operate inst.op inst.ty a b
  | .icmp, [a, b] => some (BitVec.ofNat 64 (comparison f inst a b).toNat)
  | .select, [c, a, b] => some (if c ≠ 0 then a else b)
  | .fadd, words | .fsub, words | .fmul, words | .fdiv, words | .fcmp, words
  | .fcvtFromSint, words | .fcvtToSint, words => some (o.float inst.op inst.floatCond inst.ty words)
  | .funcAddr, [] => some (o.address inst.callee)
  | .prologue, [] => some 0
  | _, _ => none

def affect (o : Surroundings World) (f : Func) (inst : Inst) (words : List Word) (world : World) :
    Effect World :=
  let traps (seen : List Observation) (code : TrapCode) := Effect.ends (seen ++ [.trap code]) .trapped
  let displaced (address : Word) := address + BitVec.ofInt 64 inst.imm
  match inst.op, words with
  | .sdiv, [_, _] | .udiv, [_, _] | .srem, [_, _] | .urem, [_, _] => traps [] .integerDivisionByZero
  | .load, [address] =>
    let seen := [Observation.load inst.ty (displaced address)]
    match o.load inst.ty (displaced address) world with
    | some word => .gives seen word world
    | none => traps seen inst.trapCode
  | .store, [value, address] =>
    let seen := [Observation.store inst.ty value (displaced address)]
    match o.store inst.ty value (displaced address) world with
    | some world => .gives seen 0 world
    | none => traps seen inst.trapCode
  | .call, words =>
    let args := (inst.operands.map (Structure.typeOf f · .i64)).zip words
    match o.call inst.callee args world with
    | some (word, world) => .gives [.call inst.callee args] word world
    | none => .ends [.call inst.callee args] .away
  | .trapnz, [c] => if c ≠ 0 then traps [] inst.trapCode else .gives [] 0 world
  | _, _ => .ends [] .stuck

def act (o : Surroundings World) (f : Func) (inst : Inst) (words : List Word) (world : World) :
    Effect World :=
  match compute o f inst words with
  | some word => .gives [] word world
  | none => affect o f inst words world

def depart (f : Func) (inst : Inst) (words : List Word) : Departure :=
  match inst.op, words with
  | .jump, [] => .takes 0
  | .brif, [c] => .takes (if c ≠ 0 then 0 else 1)
  | .brIcmp, [a, b] => .takes (if comparison f inst a b then 0 else 1)
  | .ret, words => .ends [] (.returned words)
  | .trap, [] => .ends [.trap inst.trapCode] .trapped
  | _, _ => .ends [] .stuck

def assign (regs : Registers) (id : Nat) (word : Word) : Registers :=
  fun v => if v = id then some word else regs v

def write (inst : Inst) (regs : Registers) (word : Word) : Registers :=
  match inst.result with
  | some id => assign regs id (inst.ty.canonical word)
  | none => regs

def bind (params : List Param) (words : List Word) (regs : Registers) : Registers :=
  fun v =>
    match (params.zip words).find? (·.1.id == v) with
    | some (p, word) => some (p.ty.canonical word)
    | none => regs v

inductive Step (World : Type) where
  | next (state : State World)
  | exits (exit : Exit World)

def takeEdge (f : Func) (inst : Inst) (edge : Nat) (s : State World) : Exit World :=
  match inst.targets[edge]?.bind f.findBlock? with
  | none => .ends .stuck s
  | some target =>
    match readArgs (f.block target).params (inst.argsOf edge) s.regs with
    | none => .ends .stuck s
    | some args => .jumps target args s

def step (o : Surroundings World) (f : Func) (inst : Inst) (s : State World) : Step World :=
  match readOperands f inst s.regs with
  | none => .exits (.ends .stuck s)
  | some words =>
    if inst.isTerminator then
      match depart f inst words with
      | .takes edge => .exits (takeEdge f inst edge s)
      | .ends seen ending => .exits (.ends ending { s with trace := s.trace ++ seen })
    else
      match act o f inst words s.world with
      | .gives seen word world => .next ⟨write inst s.regs word, world, s.trace ++ seen⟩
      | .ends seen ending => .exits (.ends ending { s with trace := s.trace ++ seen })

def runInsts (o : Surroundings World) (f : Func) : List Inst → State World → Exit World
  | [], s => .ends .stuck s
  | inst :: rest, s =>
    match step o f inst s with
    | .next s => runInsts o f rest s
    | .exits exit => exit

def runBlock (o : Surroundings World) (f : Func) (b : Nat) (args : List Word) (s : State World) :
    Exit World :=
  let bb := f.block b
  if args.length = bb.params.length then
    runInsts o f bb.insts { s with regs := bind bb.params args s.regs }
  else .ends .stuck s

structure Outcome (World : Type) where
  trace : List Observation
  world : World
  ending : Option Ending

def runBlocks (o : Surroundings World) (f : Func) :
    Nat → Nat → List Word → State World → Outcome World
  | 0, _, _, s => ⟨s.trace, s.world, none⟩
  | n + 1, b, args, s =>
    match runBlock o f b args s with
    | .jumps target args s => runBlocks o f n target args s
    | .ends ending s => ⟨s.trace, s.world, some ending⟩

def run (o : Surroundings World) (f : Func) (args : List Word) (world : World) (n : Nat) :
    Outcome World :=
  runBlocks o f n 0 args ⟨fun _ => none, world, []⟩

theorem findBlockSame {f g : Func} (labels : g.labels = f.labels) : g.findBlock? = f.findBlock? := by
  have index (h : Func) (label : String) : h.findBlock? label = h.labels.findIdx? (· == label) := by
    rw [Func.labels, List.findIdx?_map]
    rfl
  funext label
  rw [index, index, labels]

structure Kin (f g : Func) : Prop where
  signature : g.signature = f.signature
  types : g.valueTypes = f.valueTypes
  labels : g.labels = f.labels
  params : ∀ b, (g.block b).params = (f.block b).params

namespace Kin
variable {o : Surroundings World} {f g : Func} (kin : Kin f g)
include kin

theorem symm : Kin g f where
  signature := kin.signature.symm
  types := kin.types.symm
  labels := kin.labels.symm
  params b := (kin.params b).symm

theorem trans {h : Func} (next : Kin g h) : Kin f h where
  signature := next.signature.trans kin.signature
  types := next.types.trans kin.types
  labels := next.labels.trans kin.labels
  params b := (next.params b).trans (kin.params b)

theorem valueType : g.valueType = f.valueType := by
  funext id
  rw [Func.valueType, kin.types, Func.valueType]

theorem typeOf : Structure.typeOf g = Structure.typeOf f := by
  unfold Structure.typeOf
  rw [kin.valueType]

theorem findBlock? : g.findBlock? = f.findBlock? := findBlockSame kin.labels

theorem compareTy : Semantics.compareTy g = Semantics.compareTy f := by
  unfold Semantics.compareTy
  rw [kin.valueType]

theorem operandTy : Semantics.operandTy g = Semantics.operandTy f := by
  unfold Semantics.operandTy
  rw [kin.compareTy, kin.signature]

theorem comparison : Semantics.comparison g = Semantics.comparison f := by
  unfold Semantics.comparison
  rw [kin.compareTy]

theorem compute : Semantics.compute o g = Semantics.compute o f := by
  unfold Semantics.compute
  rw [kin.comparison]

theorem act : Semantics.act o g = Semantics.act o f := by
  unfold Semantics.act affect
  rw [kin.typeOf, kin.compute]

theorem readOperands : Semantics.readOperands g = Semantics.readOperands f := by
  unfold Semantics.readOperands
  rw [kin.operandTy]

theorem takeEdge : @Semantics.takeEdge World g = @Semantics.takeEdge World f := by
  funext inst edge s
  unfold Semantics.takeEdge
  rw [kin.findBlock?]
  simp only [kin.params]

theorem step : Semantics.step o g = Semantics.step o f := by
  unfold Semantics.step depart
  rw [kin.readOperands, kin.comparison, kin.act, kin.takeEdge]

end Kin

theorem stepComputes {o : Surroundings World} {f : Func} {inst : Inst} {s : State World}
    {words : List Word} {word : Word} (reads : readOperands f inst s.regs = some words)
    (plain : inst.isTerminator = false) (computes : compute o f inst words = some word) :
    step o f inst s = .next { s with regs := write inst s.regs word } := by
  rw [step, reads]
  dsimp only
  rw [if_neg (by simp [plain]), act, computes]
  simp

end Semantics
end SsaCodegen
