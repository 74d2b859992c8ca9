import SsaCodegen.Proofs.Execution.Semantics
import SsaCodegen.Proofs.Lowering.Slots
/-! Operands in scratch registers. Operands are brought into rax, rcx and rdx, which hold no value, and
what is computed there is stored where the result lives; nothing else changes. A narrow value is known
by its low half alone, wherever it is. -/
namespace SsaCodegen.X64
open Semantics (Registers readAs)

/-- What a location holds stands for a value of a type: an `i32` by its low half, an `i64` or a reference
whole, a `b1` by a low half that is 0 or 1. -/
def Represents (ty : Ty) (word held : Word) : Prop :=
  match ty with
  | .i32 => held.setWidth 32 = word.setWidth 32
  | .b1 => held.setWidth 32 = word.setWidth 32 ∧ (word = 0 ∨ word = 1)
  | .i64 | .r64 => held = word
  | .void | .f64 => False

structure OperandsPlaced (f : Func) (regs : Registers) (inst : Inst) (m : Machine) : Prop where
  operands : ∀ id, .temp id ∈ inst.operands → Usable f (f.location id) ∧
    ∃ word, regs id = some word ∧ Represents (f.valueType id) word (m.value f (f.location id))
  result : ∀ id, inst.result = some id → Usable f (f.location id)

def InGpr (ty : Ty) : Prop := ty ≠ .void ∧ ty ≠ .f64

structure Known (ty : Ty) (w : Nat) (word x : Word) : Prop where
  low : x.setWidth w = word.setWidth w
  flag : ty = .b1 → word = 0 ∨ word = 1

theorem lowBits {v w : Nat} {x y : Word} (same : x.setWidth w = y.setWidth w) (less : v ≤ w) :
    x.setWidth v = y.setWidth v := by
  have cut := congrArg (BitVec.setWidth v) same
  rwa [BitVec.setWidth_setWidth_of_le _ less, BitVec.setWidth_setWidth_of_le _ less] at cut

namespace Known
variable {ty : Ty} {word x : Word}

theorem ofRepresents (represents : Represents ty word x) : Known ty (widthOf ty.isWide) word x := by
  cases ty with
  | void | f64 => exact represents.elim
  | b1 => exact ⟨represents.1, fun _ => represents.2⟩
  | i32 => exact ⟨represents, fun same => Ty.noConfusion same⟩
  | i64 | r64 => exact ⟨congrArg (BitVec.setWidth 64) represents, fun same => Ty.noConfusion same⟩

theorem represents (gpr : InGpr ty) (known : Known ty (widthOf ty.isWide) word x) :
    Represents ty (ty.canonical word) x := by
  have low := known.low
  cases ty with
  | void => exact absurd rfl gpr.1
  | f64 => exact absurd rfl gpr.2
  | b1 =>
    rcases known.flag rfl with rfl | rfl
    · exact ⟨low, .inl rfl⟩
    · exact ⟨low, .inr rfl⟩
  | i32 => exact low.trans (narrowExtended _).symm
  | i64 | r64 => exact low

theorem narrower {v w : Nat} (known : Known ty w word x) (less : v ≤ w) : Known ty v word x :=
  ⟨lowBits known.low less, known.flag⟩

end Known

theorem extendedNarrow {word : Word} (fits : fitsInt32 word.toInt = true) :
    (word.setWidth 32).signExtend 64 = word := by
  simp only [fitsInt32, Bool.and_eq_true, decide_eq_true_eq] at fits
  refine BitVec.eq_of_toInt_eq ?_
  rw [BitVec.toInt_signExtend_of_le (by decide), BitVec.toInt_setWidth]
  rw [BitVec.toInt_eq_toNat_bmod] at fits ⊢
  simp only [Int.bmod] at fits ⊢
  omega

theorem readLiteral {f : Func} (regs : Registers) {ty : Ty} {v : Value} {payload : Word}
    (typed : Structure.typeOf f v ty = ty) (literal : v.intConst? = some payload) :
    ∃ word, readAs regs ty v = some word ∧ Known ty (widthOf ty.isWide) word payload := by
  cases v with
  | temp id => cases literal
  | float bits => cases literal
  | int word =>
    cases literal
    have kinds : ty = .i32 ∨ ty = .i64 ∨ ty = .r64 := by
      cases ty <;> simp [Structure.typeOf, Ty.isInt, Ty.isRef] at typed ⊢
    refine ⟨_, rfl, ?_, ?_⟩
    · rcases kinds with rfl | rfl | rfl
      · exact (narrowExtended _).symm
      · rfl
      · rfl
    · rintro rfl
      simp at kinds
  | bool flag =>
    cases literal
    refine ⟨_, rfl, rfl, fun _ => ?_⟩
    cases flag
    · exact .inl rfl
    · exact .inr rfl

def scratchRegs : List Gpr := [gprOf rax, gprOf rcx, gprOf rdx]

theorem usableReg {n : Nat} (usable : n ∈ registerFile.allocatableGpr) :
    gprOf n ∉ scratchRegs ∧ (gprOf n).val = n ∧ gprOf rbp ≠ gprOf n := by
  revert n
  decide

structure Undisturbed (m n : Machine) : Prop where
  memory : n.memory = m.memory
  regs : ∀ r, r ∉ scratchRegs → n.regs r = m.regs r

namespace Undisturbed
variable {m n : Machine}

theorem refl (m : Machine) : Undisturbed m m := ⟨rfl, fun _ _ => rfl⟩

variable (undisturbed : Undisturbed m n)
include undisturbed

theorem set {r : Gpr} (scratch : r ∈ scratchRegs) (word : BitVec 64) : Undisturbed m (n.set r word) where
  memory := undisturbed.memory
  regs s other := (n.getOther r s word fun same => other (same ▸ scratch)).trans (undisturbed.regs s other)

theorem withFlags (flags : Flags) : Undisturbed m (n.withFlags flags) :=
  ⟨undisturbed.memory, undisturbed.regs⟩

theorem trans {k : Machine} (next : Undisturbed n k) : Undisturbed m k where
  memory := next.memory.trans undisturbed.memory
  regs r plain := (next.regs r plain).trans (undisturbed.regs r plain)

theorem slotAddress (f : Func) (s : Nat) : n.slotAddress f s = m.slotAddress f s := by
  rw [Machine.slotAddress, Machine.address, undisturbed.regs _ (by decide)]
  rfl

theorem value {f : Func} {loc : Location} (usable : Usable f loc) : n.value f loc = m.value f loc := by
  cases loc with
  | unassigned => rfl
  | reg r => exact undisturbed.regs _ (usableReg usable).1
  | slot s => exact Machine.slotSame f s undisturbed.memory (undisturbed.regs _ (by decide))

end Undisturbed

section Loads
variable {u : Undefined} {f : Func} {regs : Registers} {inst : Inst} {m n : Machine}

theorem materializeGoes (dst : Nat) (word : Word) (wide : Bool) : ∃ x,
    perform u [Lower.materialize dst word wide] n = some (.goes (n.set (gprOf dst) x)) ∧
      x.setWidth (widthOf wide) = word.setWidth (widthOf wide) := by
  rw [Lower.materialize]
  split
  · next short =>
    refine ⟨_, performOne rfl, ?_⟩
    cases wide with
    | false => exact BitVec.eq_of_toNat_eq (by simp [widthOf])
    | true =>
      have small : word.toNat < 0x100000000 := by simpa using short
      refine congrArg (BitVec.setWidth 64) (BitVec.eq_of_toNat_eq ?_)
      simp only [BitVec.toNat_setWidth]
      omega
  · next long =>
    have all : wide = true := by
      cases wide
      · exact absurd rfl long
      · rfl
    subst all
    split
    · next fits => exact ⟨_, performOne rfl, congrArg (BitVec.setWidth 64) (extendedNarrow fits)⟩
    · exact ⟨_, performOne rfl, rfl⟩

theorem locationGoes {loc : Location} (usable : Usable f loc) (undisturbed : Undisturbed m n) {dst : Nat} :
    perform u (Lower.loadLocation f .gpr dst loc) n = some (.goes (n.set (gprOf dst) (m.value f loc))) := by
  rw [← undisturbed.value usable]
  cases loc with
  | unassigned => exact usable.elim
  | slot s => exact performOne rfl
  | reg r =>
    simp only [Lower.loadLocation, Lower.moveReg, Lower.moveGpr]
    split
    · next same =>
      subst same
      rw [Machine.value, Machine.setSame]
      rfl
    · exact performOne rfl

theorem operandAt {k : Nat} {v : Value} (located : inst.operands[k]? = some v) : inst.operand k = v := by
  rw [Inst.operand, List.getD_eq_getElem?_getD, located, Option.getD_some]

theorem loadGoes (placed : OperandsPlaced f regs inst m) (undisturbed : Undisturbed m n) (dst : Nat) {k : Nat}
    {v : Value} (located : inst.operands[k]? = some v) {ty : Ty} (typed : Structure.typeOf f v ty = ty)
    (gpr : InGpr ty) (wide : Bool) : ∃ word x, readAs regs ty v = some word ∧
      perform u (Lower.loadGpr f dst (inst.operand k) wide) n = some (.goes (n.set (gprOf dst) x)) ∧
      Known ty (widthOf (ty.isWide && wide)) word x := by
  have less (a b : Bool) : widthOf (a && b) ≤ widthOf a ∧ widthOf (a && b) ≤ widthOf b := by
    cases a <;> cases b <;> decide
  have literal {payload : Word} (present : v.intConst? = some payload) : ∃ word x, readAs regs ty v = some word ∧
      perform u [Lower.materialize dst payload wide] n = some (.goes (n.set (gprOf dst) x)) ∧
      Known ty (widthOf (ty.isWide && wide)) word x := by
    obtain ⟨word, reads, known⟩ := readLiteral regs typed present
    obtain ⟨x, goes, low⟩ := materializeGoes (u := u) (n := n) dst payload wide
    have held := (lowBits low (less ty.isWide wide).2).trans (lowBits known.low (less ..).1)
    exact ⟨word, x, reads, goes, held, known.flag⟩
  rw [operandAt located]
  match v with
  | .temp id =>
    obtain ⟨usable, word, defined, represents⟩ := placed.operands id (List.mem_of_getElem? located)
    rw [show f.valueType id = ty from typed] at represents
    exact ⟨word, _, defined, locationGoes usable undisturbed,
      (Known.ofRepresents represents).narrower (less ..).1⟩
  | .float bits => exact absurd typed.symm gpr.2
  | .int payload => exact literal rfl
  | .bool flag => exact literal rfl

theorem loadWhole (placed : OperandsPlaced f regs inst m) (undisturbed : Undisturbed m n) (dst : Nat) {k : Nat}
    {v : Value} (located : inst.operands[k]? = some v) {ty : Ty} (typed : Structure.typeOf f v ty = ty)
    (gpr : InGpr ty) : ∃ word x, readAs regs ty v = some word ∧
      perform u (Lower.loadGpr f dst (inst.operand k) ty.isWide) n = some (.goes (n.set (gprOf dst) x)) ∧
      Known ty (widthOf ty.isWide) word x := by
  obtain ⟨word, x, reads, loads, known⟩ := loadGoes (u := u) placed undisturbed dst located typed gpr ty.isWide
  rw [Bool.and_self] at known
  exact ⟨word, x, reads, loads, known⟩

theorem pairAt {a b : Value} (operands : inst.operands = [a, b]) :
    inst.operands[0]? = some a ∧ inst.operands[1]? = some b := by
  rw [operands]
  exact ⟨rfl, rfl⟩

structure Delivered (f : Func) (loc : Location) (m n : Machine) : Prop where
  regs : ∀ r : Gpr, r ∉ scratchRegs → loc ≠ .reg r.val → n.regs r = m.regs r
  slots : ∀ s < f.stackSlots.length, loc ≠ .slot s → n.value f (.slot s) = m.value f (.slot s)
  memory : ∀ a, (∀ s, loc = .slot s → 8 ≤ (a - m.slotAddress f s).toNat) → n.memory a = m.memory a

section Stores
variable {loc : Location} (usable : Usable f loc) (undisturbed : Undisturbed m n)
include usable undisturbed

theorem writtenReg {r : Nat} (here : loc = .reg r) (word : Word) :
    (n.set (gprOf r) word).value f loc = word ∧ Delivered f loc m (n.set (gprOf r) word) := by
  subst here
  refine ⟨if_pos rfl, fun s plain other => ?_, fun s inside _ => ?_, fun a _ => congrFun undisturbed.memory a⟩
  · refine (n.getOther _ _ _ fun same => other ?_).trans (undisturbed.regs s plain)
    rw [same, (usableReg usable).2.1]
  · refine Machine.slotSame f s undisturbed.memory ?_
    rw [n.getOther _ _ _ (usableReg usable).2.2, undisturbed.regs _ (by decide)]

variable (apart : SlotsApart f)
include apart

theorem writtenSlot {s : Nat} (here : loc = .slot s) (word : Word) :
    (n.setWord (n.slotAddress f s) word).value f loc = word ∧
      Delivered f loc m (n.setWord (n.slotAddress f s) word) := by
  subst here
  refine ⟨Machine.wordWritten .., fun r plain _ => undisturbed.regs r plain, fun t inside other => ?_,
    fun a away => ?_⟩
  · have old : n.value f (.slot t) = m.value f (.slot t) :=
      Machine.slotSame f t undisturbed.memory (undisturbed.regs _ (by decide))
    rw [← old]
    exact Machine.wordKept n _ _ (n.slotsApart apart usable inside fun same => other (same ▸ rfl))
  · refine (if_neg (Nat.not_lt.mpr ?_)).trans (congrFun undisturbed.memory a)
    rw [undisturbed.slotAddress]
    exact away s rfl

theorem storeGoes (src : Nat) : ∃ n',
    perform u (Lower.storeLocation f .gpr src loc) n = some (.goes n') ∧
      n'.value f loc = n.regs (gprOf src) ∧ Delivered f loc m n' := by
  cases loc with
  | unassigned => exact usable.elim
  | slot s =>
    obtain ⟨value, delivered⟩ := writtenSlot usable undisturbed apart rfl (n.regs (gprOf src))
    refine ⟨_, performOne ?_, value, delivered⟩
    rw [← Reg.codeRegOf src]
    rfl
  | reg r =>
    obtain ⟨value, delivered⟩ := writtenReg usable undisturbed rfl (n.regs (gprOf src))
    refine ⟨_, ?_, value, delivered⟩
    simp only [Lower.storeLocation, Lower.moveReg, Lower.moveGpr]
    split
    · next same =>
      subst same
      rw [Machine.setSame]
      rfl
    · exact performOne rfl

end Stores
end Loads

end SsaCodegen.X64
