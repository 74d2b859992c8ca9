import SsaCodegen.Proofs.Layout.FrameLaid
import SsaCodegen.Proofs.Lowering.Moving
/-! Words brought to their destinations all at once. Both ends of the copies are homes of values or argument
registers, and not both the latter, so the registers that moves go by are in nobody's way; the literals that
follow write over nothing that was copied. -/
namespace SsaCodegen.X64

inductive Side where
  | homes
  | args

def argNumbers : RegClass → List Nat
  | .gpr => systemV.intArgs
  | .fpr => systemV.floatArgs

def Assignable (f : Func) (cls : RegClass) : Location → Prop
  | .reg n => n ∈ registerFile.allocatable cls
  | .slot s => s < f.stackSlots.length
  | .unassigned => False

def Side.Holds (f : Func) (cls : RegClass) (loc : Location) : Side → Prop
  | homes => Assignable f cls loc ∧ ∃ v, f.location v = loc ∧ (f.valueType v).regClass = cls
  | args => ∃ n ∈ argNumbers cls, loc = .reg n

def OwnSlots (f : Func) : Prop := ∀ v w s, f.location v = .slot s → f.location w = .slot s → v = w

theorem allocatableNumber {cls : RegClass} {n : Nat} (inside : n ∈ registerFile.allocatable cls) :
    n ≠ rbp ∧ n ≠ rax ∧ (∀ k, n ≠ Lower.scratchOf k ∧ n ≠ Lower.cycleTempOf k) := by
  have all : ∀ cls, ∀ n ∈ registerFile.allocatable cls, n ≠ rbp ∧ n ≠ rax ∧
      (∀ k, n ≠ Lower.scratchOf k ∧ n ≠ Lower.cycleTempOf k) := by
    intro cls n inside
    refine ⟨?_, ?_, fun k => ?_⟩ <;> revert n <;> cases cls <;> first | decide | (cases k <;> decide)
  exact all cls n inside

theorem argNumber {cls : RegClass} {n : Nat} (inside : n ∈ argNumbers cls) :
    registerFile.class? n = some cls ∧ n ≠ rbp ∧ n ≠ rax ∧ n ≠ Lower.cycleTempOf .gpr ∧
      (cls = .fpr → n ∉ registerFile.allocatable .fpr) := by
  revert n
  cases cls <;> decide

namespace Side.Holds
variable {f : Func} {cls other : RegClass} {loc : Location} {side : Side}

theorem known (holds : side.Holds f cls loc) : InClass f cls loc := by
  cases side with
  | homes =>
    obtain ⟨given, -⟩ := holds
    cases loc with
    | unassigned => exact given.elim
    | slot s => exact given
    | reg n => exact allocatableClass given
  | args =>
    obtain ⟨n, inside, rfl⟩ := holds
    exact (argNumber inside).1

theorem plain (holds : side.Holds f cls loc) : loc ≠ .reg rbp ∧ loc ≠ .reg rax := by
  have register {n : Nat} (general : n ≠ rbp ∧ n ≠ rax) : Location.reg n ≠ .reg rbp ∧ Location.reg n ≠ .reg rax :=
    ⟨fun same => general.1 (Location.reg.inj same), fun same => general.2 (Location.reg.inj same)⟩
  cases side with
  | homes =>
    obtain ⟨given, -⟩ := holds
    cases loc with
    | unassigned => exact given.elim
    | slot s => exact ⟨Location.noConfusion, Location.noConfusion⟩
    | reg n => exact register ⟨(allocatableNumber given).1, (allocatableNumber given).2.1⟩
  | args =>
    obtain ⟨n, inside, rfl⟩ := holds
    exact register ⟨(argNumber inside).2.1, (argNumber inside).2.2.1⟩

theorem homeApart (holds : Side.homes.Holds f cls loc) (k : RegClass) :
    loc ≠ .reg (Lower.scratchOf k) ∧ loc ≠ .reg (Lower.cycleTempOf k) := by
  obtain ⟨given, -⟩ := holds
  cases loc with
  | unassigned => exact given.elim
  | slot s => exact ⟨Location.noConfusion, Location.noConfusion⟩
  | reg n =>
    have apart := (allocatableNumber given).2.2 k
    exact ⟨fun same => apart.1 (Location.reg.inj same), fun same => apart.2 (Location.reg.inj same)⟩

theorem oneClass (own : OwnSlots f) (holds : side.Holds f cls loc) {also : Side} (holds' : also.Holds f other loc) :
    cls = other := by
  cases loc with
  | unassigned => exact (known holds).elim
  | reg n =>
    have here : registerFile.class? n = some cls := known holds
    exact Option.some.inj (here.symm.trans (known holds'))
  | slot s =>
    have home {side : Side} {cls : RegClass} (holds : side.Holds f cls (.slot s)) :
        ∃ v, f.location v = .slot s ∧ (f.valueType v).regClass = cls := by
      cases side with
      | homes => exact holds.2
      | args =>
        obtain ⟨n, -, absent⟩ := holds
        exact Location.noConfusion absent
    obtain ⟨v, there, rfl⟩ := home holds
    obtain ⟨w, here, rfl⟩ := home holds'
    rw [own v w s there here]

end Side.Holds

theorem placeOfKey {f : Func} {cls : RegClass} {loc : Location} (known : InClass f cls loc) :
    placeAt (locationKey loc) = loc := by
  cases loc with
  | unassigned => exact known.elim
  | slot s =>
    rw [locationKey, placeAt, if_pos (Nat.le_add_right ..), Nat.add_sub_cancel_left]
  | reg n => exact Mirrors.placeAtRegister known

theorem movableOf {f : Func} {copies : List Copy} (own : OwnSlots f) {a b : Side}
    (sources : ∀ c ∈ copies, a.Holds f c.cls (placeAt c.src)) (dests : ∀ c ∈ copies, b.Holds f c.cls (placeAt c.dst))
    (mixed : a = .homes ∨ b = .homes) (written : (copies.map Copy.dst).Nodup) : Movable f copies := by
  have side {c : Copy} (inside : c ∈ copies) {key : Nat} (uses : key ∈ c.keys) :
      ∃ s : Side, (s = a ∨ s = b) ∧ s.Holds f c.cls (placeAt key) := by
    rcases List.mem_pair.mp uses with rfl | rfl
    · exact ⟨a, .inl rfl, sources c inside⟩
    · exact ⟨b, .inr rfl, dests c inside⟩
  have atKey {cls : RegClass} {key : Nat} (known : registerFile.class? key = some cls) : placeAt key = .reg key :=
    Mirrors.placeAtRegister known
  refine ⟨written, ?_, fun c inside => (sources c inside).known, fun c inside => (dests c inside).known, ?_, ?_, ?_⟩
  · intro c inside d there key uses uses'
    obtain ⟨s, -, holds⟩ := side inside uses
    obtain ⟨t, -, holds'⟩ := side there uses'
    exact holds.oneClass own holds'
  · intro c inside same
    refine (dests c inside).plain.1 ?_
    rw [same]
    rfl
  · -- a slot is nobody's argument, so both sides are homes
    intro c inside low high d there uses
    have slot {key : Nat} (far : slotKeyBase ≤ key) {s : Side} (holds : s.Holds f c.cls (placeAt key)) :
      s = .homes := by
      cases s with
      | homes => rfl
      | args =>
        obtain ⟨n, -, same⟩ := holds
        rw [placeAt, if_pos far] at same
        exact Location.noConfusion same
    obtain ⟨s, one, holds⟩ := side there uses
    have home : s = .homes := by
      rcases one with rfl | rfl
      · exact slot low (sources c inside)
      · exact slot high (dests c inside)
    subst home
    exact (holds.homeApart c.cls).1 (atKey (Mirrors.scratchClass c.cls).1)
  · -- floats do not pass from argument registers to places of values and back
    intro c inside d there same reads e listed uses
    obtain ⟨s, one, holds⟩ := side listed uses
    rw [atKey (Mirrors.tempClass c.cls).1] at holds
    cases s with
    | homes => exact (holds.homeApart c.cls).2 rfl
    | args =>
      obtain ⟨n, number, temp⟩ := holds
      cases Location.reg.inj temp
      have read := sources d there
      have write := dests c inside
      rw [reads, same] at read
      cases cls : c.cls with
      | gpr =>
        rw [cls] at number
        exact (argNumber number).2.2.2.1 rfl
      | fpr =>
        rw [cls] at read write
        have clash {loc : Location} (home : Side.homes.Holds f .fpr loc) (arg : Side.args.Holds f .fpr loc) :
          False := by
          obtain ⟨n, inside, rfl⟩ := arg
          exact (argNumber inside).2.2.2.2 rfl home.1
        cases a with
        | homes =>
          cases b with
          | homes => exact one.elim Side.noConfusion Side.noConfusion
          | args => exact clash read write
        | args =>
          cases b with
          | homes => exact clash write read
          | args => exact mixed.elim Side.noConfusion Side.noConfusion

section Literals
variable {f : Func} {u : Undefined} {v : Value} {loc : Location}

theorem literalFits (literal : v.isTemp = false) (plain : v.isFloatConst = false) :
    (operandTy f v).isWide = true ∨ v.intPayload.toNat < 0x100000000 := by
  cases v with
  | temp id => cases literal
  | float bits => cases plain
  | int word => exact .inl rfl
  | bool flag =>
    right
    cases flag <;> decide

theorem literalSets (spread : Spread f) (literal : v.isTemp = false) (plain : v.isFloatConst = false)
    (known : InClass f .gpr loc) (frame : loc ≠ .reg rbp) (p : Processor) :
    ∃ q, pass u (Lower.literalInto f v loc) p = some (.goes q) ∧ q.held f loc = v.intPayload ∧
      Leaves f [loc, .reg rax] p q := by
  have fits := literalFits (f := f) literal plain
  cases loc with
  | unassigned => exact known.elim
  | reg n =>
    obtain ⟨q, goes, sets⟩ := materializeSets (f := f) (u := u) (p := p) known (fun same => frame (by rw [same])) fits
    exact ⟨q, goes, sets.set, (Leaves.ofSets sets).mono (List.cons_subset_cons _ (List.nil_subset _))⟩
  | slot s =>
    have general : registerFile.class? rax = some .gpr := rfl
    obtain ⟨mid, first, sets⟩ := materializeSets (f := f) (u := u) (p := p) general (by decide) fits
    obtain ⟨q, next, sets'⟩ := storeSets (u := u) (p := mid) spread known frame general
    refine ⟨q, (passAppend first [Lower.storeSlot f .gpr s rax]).trans next, sets'.set.trans sets.set, ?_⟩
    have aside := (Leaves.ofSets sets).mono (List.subset_cons_self (Location.slot s) [Location.reg rax])
    refine aside.sets sets' List.mem_cons_self fun inside => ?_
    simp [rbp, rax] at inside

def literalPlaces (moves : List (Value × Location)) : List Location :=
  (moves.filter fun e => !e.1.isTemp).map Prod.snd

theorem literalPlacesPart (moves : List (Value × Location)) : literalPlaces moves ⊆ moves.map Prod.snd :=
  List.map_subset _ fun _ => List.mem_of_mem_filter

theorem literalsSet (spread : Spread f) {moves : List (Value × Location)} (once : (moves.map Prod.snd).Nodup)
    (into : ∀ e ∈ moves, e.1.isTemp = false → e.1.isFloatConst = false ∧ InClass f .gpr e.2 ∧
      e.2 ≠ .reg rbp ∧ e.2 ≠ .reg rax) (p : Processor) :
    ∃ q, pass u (moves.flatMap fun (v, dst) => if v.isTemp then [] else Lower.literalInto f v dst) p = some (.goes q) ∧
      (∀ e ∈ moves, e.1.isTemp = false → q.held f e.2 = e.1.intPayload) ∧
      Leaves f (.reg rax :: literalPlaces moves) p q := by
  induction moves generalizing p with
  | nil => exact ⟨p, rfl, fun e absent => absurd absent List.not_mem_nil, .refl ..⟩
  | cons e rest ih =>
    obtain ⟨v, loc⟩ := e
    obtain ⟨fresh, once⟩ := List.nodup_cons.mp once
    obtain ⟨here, later⟩ := List.forall_mem_cons.mp into
    cases kind : v.isTemp with
    | true =>
      obtain ⟨q, goes, taken, leaves⟩ := ih once later p
      have same : literalPlaces ((v, loc) :: rest) = literalPlaces rest := by
        simp [literalPlaces, kind]
      refine ⟨q, ?_, List.forall_mem_cons.mpr ⟨fun literal => ?_, taken⟩, same ▸ leaves⟩
      · rw [List.flatMap_cons]
        simp only [kind, if_true, List.nil_append]
        exact goes
      · exact absurd (kind.symm.trans literal) Bool.noConfusion
    | false =>
      obtain ⟨plain, known, frame, free⟩ := here kind
      obtain ⟨mid, first, set, aside⟩ := literalSets (u := u) spread kind plain known frame p
      obtain ⟨q, goes, taken, leaves⟩ := ih once later mid
      have same : literalPlaces ((v, loc) :: rest) = loc :: literalPlaces rest := by
        simp [literalPlaces, kind]
      refine ⟨q, ?_, List.forall_mem_cons.mpr ⟨fun _ => ?_, taken⟩, ?_⟩
      · rw [List.flatMap_cons]
        simp only [kind, Bool.false_eq_true, if_false]
        exact (passAppend first _).trans goes
      · refine (leaves.kept _ _ known fun inside => ?_).trans set
        rcases List.mem_cons.mp inside with same | again
        · exact free same
        · exact fresh (literalPlacesPart rest again)
      · rw [same]
        refine (aside.mono fun l listed => ?_).trans (leaves.mono fun l listed => ?_) fun inside => ?_
        · simp only [List.mem_cons, List.not_mem_nil, or_false] at listed ⊢
          tauto
        · simp only [List.mem_cons] at listed ⊢
          tauto
        · rcases List.mem_cons.mp inside with same | inside
          · revert same
            decide
          · rcases List.mem_cons.mp inside with same | again
            · exact frame same.symm
            · obtain ⟨e, listed, there⟩ := List.mem_map.mp again
              obtain ⟨listed, literal⟩ := List.mem_filter.mp listed
              exact (later e listed (by simpa using literal)).2.2.1 there

end Literals

structure Routed (f : Func) (side : Side) (moves : List (Value × Location)) : Prop where
  once : (moves.map Prod.snd).Nodup
  sources : ∀ e ∈ moves, ∀ id, e.1 = .temp id → Side.homes.Holds f (f.valueType id).regClass (f.location id)
  dests : ∀ e ∈ moves, side.Holds f (operandTy f e.1).regClass e.2
  plain : ∀ e ∈ moves, e.1.isFloatConst = false

namespace Routed
variable {f : Func} {side : Side} {moves : List (Value × Location)} (routed : Routed f side moves)
include routed

theorem source {id : Nat} {loc : Location} (inside : (.temp id, loc) ∈ moves) :
    (f.location id).isAssigned = true ∧ placeAt (locationKey (f.location id)) = f.location id := by
  have known := (routed.sources _ inside id rfl).known
  refine ⟨?_, placeOfKey known⟩
  cases home : f.location id with
  | unassigned =>
    rw [home] at known
    exact known.elim
  | reg n => rfl
  | slot s => rfl

omit routed in
theorem memCopies {c : Copy} (inside : c ∈ Lower.copiesInto f moves) : ∃ id loc, (.temp id, loc) ∈ moves ∧
    c = ⟨locationKey (f.location id), locationKey loc, (f.valueType id).regClass⟩ := by
  obtain ⟨⟨v, loc⟩, listed, made⟩ := List.mem_filterMap.mp inside
  cases v with
  | temp id =>
    obtain ⟨-, same⟩ := Option.ite_none_right_eq_some.mp made
    exact ⟨id, loc, listed, (Option.some.inj same).symm⟩
  | _ => cases made

theorem copyOf {id : Nat} {loc : Location} (inside : (.temp id, loc) ∈ moves) :
    ⟨locationKey (f.location id), locationKey loc, (f.valueType id).regClass⟩ ∈ Lower.copiesInto f moves :=
  List.mem_filterMap.mpr ⟨_, inside, if_pos (routed.source inside).1⟩

theorem destKey {e : Value × Location} (inside : e ∈ moves) : placeAt (locationKey e.2) = e.2 :=
  placeOfKey (routed.dests e inside).known

theorem copiesOnce : ((Lower.copiesInto f moves).map Copy.dst).Nodup := by
  refine List.pairwise_map.mpr (List.pairwise_filterMap.mpr ?_)
  refine (List.pairwise_map.mp routed.once).imp_of_mem fun {e e'} left right differ c made c' made' same => differ ?_
  have key {e : Value × Location} {c : Copy} (made : c ∈ Lower.copiesInto f [e]) : c.dst = locationKey e.2 := by
    obtain ⟨id, loc, listed, rfl⟩ := memCopies made
    rw [← List.mem_singleton.mp listed]
  have alone {e : Value × Location} {c : Copy} (made : _ = some c) : c ∈ Lower.copiesInto f [e] :=
    List.mem_filterMap.mpr ⟨e, List.mem_singleton_self e, made⟩
  rw [← routed.destKey left, ← routed.destKey right, ← key (alone made), ← key (alone made'), same]

theorem movable (own : OwnSlots f) : Movable f (Lower.copiesInto f moves) := by
  refine movableOf own (a := .homes) (b := side) (fun c inside => ?_) (fun c inside => ?_) (.inl rfl) routed.copiesOnce
  · obtain ⟨id, loc, listed, rfl⟩ := memCopies inside
    rw [(routed.source listed).2]
    exact routed.sources _ listed id rfl
  · obtain ⟨id, loc, listed, rfl⟩ := memCopies inside
    rw [routed.destKey listed]
    exact routed.dests _ listed

theorem literals : ∀ e ∈ moves, e.1.isTemp = false → e.1.isFloatConst = false ∧ InClass f .gpr e.2 ∧
    e.2 ≠ .reg rbp ∧ e.2 ≠ .reg rax := by
  intro e inside literal
  have dest := routed.dests e inside
  have plain := routed.plain e inside
  have general : (operandTy f e.1).regClass = .gpr := by
    cases v : e.1 with
    | temp id => rw [v] at literal; cases literal
    | float bits => rw [v] at plain; cases plain
    | int word => rfl
    | bool flag => rfl
  exact ⟨plain, general ▸ dest.known, dest.plain⟩

end Routed

theorem parallelMoveTransfers {f : Func} {side : Side} {values : List Value} {dests : List Location}
    (own : OwnSlots f) (spread : Spread f) (routed : Routed f side (values.zip dests)) (u : Undefined) (p : Processor) :
    ∃ q, pass u (Lower.parallelMove f values dests) p = some (.goes q) ∧
      Transferred f ((values.zip dests).map fun e => (e.2, p.operand f e.1)) p q := by
  unfold Lower.parallelMove
  dsimp only
  generalize values.zip dests = moves at *
  obtain ⟨mid, first, copied⟩ := lowerMovesTransfer (routed.movable own) spread u p
  obtain ⟨q, next, taken, aside⟩ := literalsSet (u := u) spread routed.once routed.literals mid
  have all : ((moves.map fun e => (e.2, p.operand f e.1)).map Prod.fst) = moves.map Prod.snd := by
    rw [List.map_map]
    rfl
  refine ⟨q, (passAppend first _).trans next, fun e inside => ?_, ?_⟩
  · obtain ⟨⟨v, loc⟩, listed, rfl⟩ := List.mem_map.mp inside
    cases v with
    | temp id =>
      have there := copied.taken _ (List.mem_map_of_mem (routed.copyOf listed))
      simp only [(routed.source listed).2, routed.destKey listed] at there
      refine (aside.kept _ _ (routed.dests _ listed).known fun written => ?_).trans there
      rcases List.mem_cons.mp written with same | literal
      · exact (routed.dests _ listed).plain.2 same
      · obtain ⟨e, inside, same⟩ := List.mem_map.mp literal
        obtain ⟨inside, literal⟩ := List.mem_filter.mp inside
        have one := List.inj_on_of_nodup_map routed.once inside listed same
        rw [one] at literal
        cases literal
    | _ => exact taken _ listed rfl
  · rw [all]
    refine (copied.leaves.mono fun l listed => ?_).trans (aside.mono fun l listed => ?_) fun inside => ?_
    · refine (List.mem_append.mp listed).elim (fun written => List.mem_append_left _ ?_) (List.mem_append_right _)
      rw [List.map_map] at written
      obtain ⟨c, there, rfl⟩ := List.mem_map.mp written
      obtain ⟨id, loc, inside, rfl⟩ := Routed.memCopies there
      exact List.mem_map.mpr ⟨_, inside, (routed.destKey inside).symm⟩
    · rcases List.mem_cons.mp listed with rfl | literal
      · exact List.mem_append_right _ (by decide)
      · exact List.mem_append_left _ (literalPlacesPart moves literal)
    · rcases List.mem_append.mp inside with dest | scratch
      · obtain ⟨e, listed, same⟩ := List.mem_map.mp dest
        exact (routed.dests e listed).plain.1 same
      · revert scratch
        decide

theorem FrameLaid.spread {limits : Limits} {f g : Func} (laid : FrameLaid limits f g) : Spread g := by
  intro m s left t right other k below
  have fill := laid.slotsFill
  have small := laid.small
  have limit : limits.frameLimit < 2 ^ 32 := BitVec.isLt _
  simp only [FrameLayout.frameBytes, slotBytes] at fill small
  have disp (s : Nat) (inside : s < g.stackSlots.length) : (Lower.slotDisp g s).toNat =
      2 ^ 32 - 8 * (g.frame.savedRegs.length + s + 1) := by
    rw [laid.slotDisp inside, BitVec.toNat_ofInt]
    omega
  have extended (s : Nat) (inside : s < g.stackSlots.length) : ((Lower.slotDisp g s).signExtend 64).toNat =
      2 ^ 32 - 8 * (g.frame.savedRegs.length + s + 1) +
        if 2 ^ 31 ≤ 2 ^ 32 - 8 * (g.frame.savedRegs.length + s + 1) then 2 ^ 64 - 2 ^ 32 else 0 := by
    rw [BitVec.toNat_signExtend, BitVec.msb_eq_decide, disp s inside, BitVec.toNat_setWidth, disp s inside]
    simp only [decide_eq_true_eq]
    split <;> omega
  have here := extended s left
  have there := extended t right
  unfold Machine.slotAddress Machine.address
  generalize (Lower.slotDisp g s).signExtend 64 = a at *
  generalize (Lower.slotDisp g t).signExtend 64 = b at *
  have apart : (m.regs (gprOf rbp) + b + BitVec.ofNat 64 k - (m.regs (gprOf rbp) + a)) = b + BitVec.ofNat 64 k - a := by
    bv_omega
  rw [apart, BitVec.toNat_sub, BitVec.toNat_add, BitVec.toNat_ofNat]
  split at here <;> split at there <;> omega

end SsaCodegen.X64
