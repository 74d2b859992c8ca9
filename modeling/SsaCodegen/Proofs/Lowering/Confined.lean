import SsaCodegen.Proofs.Lowering.Operands
import SsaCodegen.Proofs.Lowering.Stack
import SsaCodegen.Proofs.Moves.Serving
/-! Code that keeps to its own. It writes places of values, registers that the caller does not need again, and
bytes of slots or below them. Loads into registers of that kind are such code, and so are the moves of
copies to places. -/
namespace SsaCodegen.X64

section Destinations
variable {writes : RegClass → Nat → Prop}

def Move.Into (writes : RegClass → Nat → Prop) : Move → Prop
  | .copy cls _ dst | .fromTemp cls dst => writes cls dst
  | .toTemp .. => True

theorem resolveCopiesInto {copies : List Copy} (into : ∀ c ∈ copies, writes c.cls c.dst) :
    ∀ m ∈ resolveCopies copies, m.Into writes := by
  intro m inside
  have serves := resolveCopiesServe copies m inside
  cases m with
  | copy => exact into _ serves
  | toTemp => trivial
  | fromTemp =>
    obtain ⟨_, there⟩ := serves
    exact into _ there

end Destinations

def Reserved (f : Func) (r : Gpr) : Prop :=
  r = gprOf rsp ∨ r = gprOf rbp ∨ (registerFile.isCalleeSaved r.val = true ∧ ∀ v, f.location v ≠ .reg r.val)

theorem callerFree {f : Func} {r : Gpr}
    (plain : r ≠ gprOf rsp ∧ r ≠ gprOf rbp ∧ registerFile.isCalleeSaved r.val = false) : ¬ Reserved f r := by
  rintro (same | same | ⟨saved, -⟩)
  · exact plain.1 same
  · exact plain.2.1 same
  · exact Bool.false_ne_true (plain.2.2.symm.trans saved)

theorem placeFree {f : Func} {v n : Nat} (home : f.location v = .reg n) (usable : n ∈ registerFile.allocatableGpr) :
    ¬ Reserved f (gprOf n) := by
  obtain ⟨-, same, frame⟩ := usableReg usable
  have stack : ∀ n ∈ registerFile.allocatableGpr, gprOf n ≠ gprOf rsp := by decide
  rintro (top | base | ⟨-, unused⟩)
  · exact stack n usable top
  · exact frame base.symm
  · exact unused v (same.symm ▸ home)

def slotsBottom (f : Func) (m : Machine) : BitVec 64 :=
  m.regs (gprOf rbp) - BitVec.ofNat 64 (slotBytes * (f.frame.savedRegs.length + f.stackSlots.length))

structure Confined (f : Func) (p q : Processor) : Prop where
  regs : ∀ r, Reserved f r → q.regs r = p.regs r
  memory : ∀ a, (∀ s < f.stackSlots.length, slotBytes ≤ (a - p.slotAddress f s).toNat) →
    0 ≤ (a - slotsBottom f p.toMachine).toInt → q.memory a = p.memory a

namespace Confined
variable {f : Func} {p q t : Processor}

theorem refl (f : Func) (p : Processor) : Confined f p p := ⟨fun _ _ => rfl, fun _ _ _ => rfl⟩

theorem frame (confined : Confined f p q) : q.regs (gprOf rbp) = p.regs (gprOf rbp) :=
  confined.regs _ (.inr (.inl rfl))

theorem trans (first : Confined f p q) (next : Confined f q t) : Confined f p t where
  regs r reserved := (next.regs r reserved).trans (first.regs r reserved)
  memory a slots above := by
    refine (next.memory a (fun s below => ?_) ?_).trans (first.memory a slots above)
    · rw [Machine.slotAddress, Machine.address, first.frame]
      exact slots s below
    · rw [slotsBottom, first.frame]
      exact above

theorem set {r : Gpr} (free : ¬ Reserved f r) (word : BitVec 64) : Confined f p (p.after (p.set r word)) where
  regs _ reserved := Machine.getOther _ _ _ _ fun same => free (same ▸ reserved)
  memory _ _ _ := rfl

theorem setXmm (x : Xmm) (word : BitVec 64) : Confined f p (p.setXmm x word) :=
  ⟨fun _ _ => rfl, fun _ _ _ => rfl⟩

theorem setSlot {s : Nat} (below : s < f.stackSlots.length) (word : BitVec 64) :
    Confined f p (p.after (p.setWord (p.slotAddress f s) word)) where
  regs _ _ := rfl
  memory _ slots _ := if_neg (Nat.not_lt.mpr (slots s below))

end Confined

def Harmless (f : Func) (code : List Asm) : Prop :=
  ∀ (u : Undefined) (p : Processor), ∃ q, pass u code p = some (.goes q) ∧ Confined f p q

namespace Harmless
variable {f : Func} {n s : Nat} {v : Value} {cls : RegClass} {l : Location} {wide : Bool} {key : Nat}

theorem nil (f : Func) : Harmless f [] := fun _ p => ⟨p, rfl, .refl f p⟩

theorem append {a b : List Asm} (first : Harmless f a) (next : Harmless f b) : Harmless f (a ++ b) := by
  intro u p
  obtain ⟨q, goes, confined⟩ := first u p
  obtain ⟨t, goes', confined'⟩ := next u q
  exact ⟨t, (passAppend goes b).trans goes', confined.trans confined'⟩

theorem flatMap {α : Type} {xs : List α} {code : α → List Asm} (each : ∀ x ∈ xs, Harmless f (code x)) :
    Harmless f (xs.flatMap code) := by
  induction xs with
  | nil => exact nil f
  | cons x rest ih =>
    rw [List.flatMap_cons]
    exact (each x List.mem_cons_self).append (ih fun y inside => each y (List.mem_cons_of_mem _ inside))

theorem one {i : MachineInst} (passes : ∀ (u : Undefined) (p : Processor), ∃ q, i.pass? u p = some (.goes q) ∧
    Confined f p q) : Harmless f [.inst i] := by
  intro u p
  obtain ⟨q, goes, confined⟩ := passes u p
  exact ⟨q, passInst goes [], confined⟩

def Writable (f : Func) (cls : RegClass) (n : Nat) : Prop := cls = .gpr → ¬ Reserved f (gprOf n)

theorem moveReg (writable : Writable f cls n) (src : Nat) : Harmless f (Lower.moveReg cls n src) := by
  cases cls with
  | gpr =>
    rw [Lower.moveReg, Lower.moveGpr]
    split
    · exact nil f
    · exact one fun u p => ⟨_, rfl, .set (writable rfl) _⟩
  | fpr =>
    rw [Lower.moveReg, Lower.moveXmm]
    split
    · exact nil f
    · exact one fun u p => ⟨_, rfl, .setXmm ..⟩

theorem loadSlot (writable : Writable f cls n) (s : Nat) : Harmless f [Lower.loadSlot f cls n s] := by
  cases cls with
  | gpr => exact one fun u p => ⟨_, rfl, .set (writable rfl) _⟩
  | fpr => exact one fun u p => ⟨_, rfl, .setXmm ..⟩

theorem storeSlot (below : s < f.stackSlots.length) (cls : RegClass) (src : Nat) :
    Harmless f [Lower.storeSlot f cls s src] := by
  cases cls with
  | gpr => exact one fun u p => ⟨_, rfl, .setSlot below _⟩
  | fpr => exact one fun u p => ⟨_, rfl, .setSlot below _⟩

theorem loadLocation (writable : Writable f cls n) (l : Location) : Harmless f (Lower.loadLocation f cls n l) := by
  cases l with
  | unassigned => exact nil f
  | reg r => exact moveReg writable r
  | slot s => exact loadSlot writable s

theorem materialize (free : ¬ Reserved f (gprOf n)) (word : BitVec 64) (wide : Bool) :
    Harmless f [Lower.materialize n word wide] := by
  rw [Lower.materialize]
  split
  · exact one fun u p => ⟨_, rfl, .set free _⟩
  · split
    · exact one fun u p => ⟨_, rfl, .set free _⟩
    · exact one fun u p => ⟨_, rfl, .set free _⟩

theorem loadGpr (free : ¬ Reserved f (gprOf n)) (v : Value) (wide : Bool) :
    Harmless f (Lower.loadGpr f n v wide) := by
  cases v with
  | temp id => exact loadLocation (fun _ => free) _
  | _ => exact materialize free _ _

def WritableKey (f : Func) (cls : RegClass) (key : Nat) : Prop :=
  if slotKeyBase ≤ key then key - slotKeyBase < f.stackSlots.length else Writable f cls key

theorem loadKey (writable : Writable f cls n) (key : Nat) : Harmless f (Lower.loadKey f cls n key) := by
  rw [Lower.loadKey]
  split
  · exact loadSlot writable _
  · exact moveReg writable key

theorem storeKey (writable : WritableKey f cls key) (src : Nat) : Harmless f (Lower.storeKey f cls key src) := by
  rw [Lower.storeKey]
  unfold WritableKey at writable
  split
  · next slot =>
    rw [if_pos slot] at writable
    exact storeSlot writable cls src
  · next register =>
    rw [if_neg register] at writable
    exact moveReg writable src

theorem scratchWritable (f : Func) (cls : RegClass) :
    Writable f cls (Lower.scratchOf cls) ∧ Writable f cls (Lower.cycleTempOf cls) := by
  cases cls with
  | gpr =>
    exact ⟨fun _ => callerFree (r := gprOf rax) (by decide), fun _ => callerFree (r := gprOf r11) (by decide)⟩
  | fpr => exact ⟨fun same => RegClass.noConfusion same, fun same => RegClass.noConfusion same⟩

theorem lowerMove {m : Move} (into : m.Into (WritableKey f)) : Harmless f (Lower.lowerMove f m) := by
  cases m with
  | copy cls src dst =>
    rw [Lower.lowerMove]
    split
    · next register =>
      have writable : WritableKey f cls dst := into
      rw [WritableKey, if_neg (Nat.not_le.mpr register)] at writable
      exact loadKey writable src
    · split
      · exact storeKey into src
      · exact (loadKey (scratchWritable f cls).1 src).append (storeKey into _)
  | toTemp cls src => exact loadKey (scratchWritable f cls).2 src
  | fromTemp cls dst => exact storeKey into _

theorem lowerMoves {copies : List Copy} (into : ∀ c ∈ copies, WritableKey f c.cls c.dst) :
    Harmless f (Lower.lowerMoves f copies) :=
  flatMap fun m inside => lowerMove (resolveCopiesInto into m inside)

end Harmless

end SsaCodegen.X64
