import SsaCodegen.Ir.Func
/-! Building functions. A builder appends instructions to one block of a function, each
with the source position set last. A new block or a terminator changes the layout. -/
namespace SsaCodegen

structure Builder where
  func : Func
  cursor : Nat := 0
  pos : SourcePos := {}
  deriving DecidableEq, Repr, Inhabited

def Func.addBlock (f : Func) (label : String) (types : List Ty) : Func :=
  let (params, f) := f.newParams types
  (f.insertBlock f.blocks.length ⟨label, params, []⟩).noteLayoutChange

def Func.ensureEntry (f : Func) : Func :=
  if f.blocks.isEmpty then f.addBlock "block0" f.signature.params else f

namespace Builder

def ofFunc (f : Func) : Builder := ⟨f.ensureEntry, 0, {}⟩

def addBlock (b : Builder) (label : String) (types : List Ty) : Nat × Builder :=
  (b.func.blocks.length, { b with func := b.func.addBlock label types })

def moveTo (b : Builder) (block : Nat) : Builder := { b with cursor := block }

def setPos (b : Builder) (pos : SourcePos) : Builder := { b with pos := pos }

def labelOf (b : Builder) (block : Nat) : String := (b.func.block block).label

def param (b : Builder) (block k : Nat) : Value :=
  .temp ((b.func.block block).paramIds.getD k 0)

def label (b : Builder) (v : Value) (label : Nat) : Builder :=
  { b with func := { b.func with
      valueLabels := b.func.valueLabels ++ [⟨v.tempId, label⟩] } }

def append (b : Builder) (inst : Inst) : Builder :=
  let inst := { inst with pos := b.pos }
  let f := b.func.modifyBlock b.cursor fun bb => { bb with insts := bb.insts ++ [inst] }
  { b with func := if inst.isTerminator then f.noteLayoutChange else f }

def define (b : Builder) (ty : Ty) (inst : Inst) : Value × Builder :=
  let (id, f) := b.func.newValue ty
  (.temp id, { b with func := f }.append { inst with result := some id, ty := ty })

def unary (b : Builder) (op : Opcode) (ty : Ty) (v : Value) : Value × Builder :=
  b.define ty { op := op, operands := [v] }

def binary (b : Builder) (op : Opcode) (ty : Ty) (x y : Value) : Value × Builder :=
  b.define ty { op := op, operands := [x, y] }

def iconst (b : Builder) (ty : Ty) (word : BitVec 64) : Value × Builder :=
  b.unary .iconst ty (.int word)

def bconst (b : Builder) (flag : Bool) : Value × Builder := b.unary .bconst .b1 (.bool flag)

def fconst (b : Builder) (bits : BitVec 64) : Value × Builder :=
  b.unary .fconst .f64 (.float bits)

def copy (b : Builder) (ty : Ty) (v : Value) : Value × Builder := b.unary .copy ty v

def icmp (b : Builder) (cond : IntCond) (x y : Value) : Value × Builder :=
  b.define .b1 { op := .icmp, intCond := cond, operands := [x, y] }

def fcmp (b : Builder) (cond : FloatCond) (x y : Value) : Value × Builder :=
  b.define .b1 { op := .fcmp, floatCond := cond, operands := [x, y] }

def select (b : Builder) (ty : Ty) (cond x y : Value) : Value × Builder :=
  b.define ty { op := .select, operands := [cond, x, y] }

def load (b : Builder) (ty : Ty) (addr : Value) (offset : Int) : Value × Builder :=
  b.define ty { op := .load, operands := [addr], imm := offset, trapCode := .heapOutOfBounds }

def storedTy (f : Func) : Value → Ty
  | .temp id => f.valueType id
  | .float _ => .f64
  | .bool _ => .b1
  | .int _ => .i64

def store (b : Builder) (v addr : Value) (offset : Int) : Builder :=
  b.append
    { op := .store, ty := storedTy b.func v, operands := [v, addr], imm := offset,
      trapCode := .heapOutOfBounds }

def call (b : Builder) (callee : String) (ty : Ty) (args : List Value) : Value × Builder :=
  b.define ty { op := .call, callee := callee, operands := args }

def callVoid (b : Builder) (callee : String) (args : List Value) : Builder :=
  b.append { op := .call, callee := callee, operands := args }

def funcAddr (b : Builder) (symbol : String) : Value × Builder :=
  b.define .i64 { op := .funcAddr, callee := symbol }

def trap (b : Builder) (code : TrapCode) : Builder :=
  b.append { op := .trap, trapCode := code }

def trapnz (b : Builder) (cond : Value) (code : TrapCode) : Builder :=
  b.append { op := .trapnz, operands := [cond], trapCode := code }

def jump (b : Builder) (target : Nat) (args : List Value) : Builder :=
  b.append (jumpTo (b.labelOf target) args b.pos)

def brif (b : Builder) (cond : Value) (onTrue : Nat) (trueArgs : List Value)
    (onFalse : Nat) (falseArgs : List Value) : Builder :=
  b.append
    { op := .brif, operands := [cond], targets := [b.labelOf onTrue, b.labelOf onFalse],
      targetArgs := [trueArgs, falseArgs] }

def ret (b : Builder) (values : List Value) : Builder :=
  b.append { op := .ret, operands := values }

end Builder
end SsaCodegen
