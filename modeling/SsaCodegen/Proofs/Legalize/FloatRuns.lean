import Mathlib.Data.List.Forall2
import SsaCodegen.Proofs.Execution.Routes
import SsaCodegen.Proofs.Legalize.Floats
/-! Lifted float literals keep runs. The constants in front of an instruction only write values
that are new, and what the instruction then reads are the words that stood there. -/
namespace SsaCodegen.X64.Legalize
open Semantics

def ReadAlike (regs other : Registers) : List Value → List Value → Prop :=
  List.Forall₂ fun v w => ∀ ty, readAs other ty w = readAs regs ty v

theorem ReadAlike.args {regs other : Registers} {vs ws : List Value} (alike : ReadAlike regs other vs ws)
    (params : List Param) : readArgs params ws other = readArgs params vs regs := by
  unfold readArgs
  induction alike generalizing params with
  | nil => rfl
  | cons same _ ih =>
    cases params with
    | nil => rfl
    | cons p params =>
      rw [List.zip_cons_cons, List.zip_cons_cons, List.mapM_cons, List.mapM_cons, ih]
      dsimp only
      rw [same]

theorem ReadAlike.operands {f g : Func} {i j : Inst} {regs other : Registers}
    (alike : ReadAlike regs other i.operands j.operands) (types : Semantics.operandTy g j = Semantics.operandTy f i) :
    readOperands g j other = readOperands f i regs := by
  unfold readOperands
  rw [types]
  generalize Semantics.operandTy f i = ty
  generalize i.operands = vs, j.operands = ws at alike
  refine mapMSame (by simp [alike.length_eq]) fun k a b left right => ?_
  rw [List.getElem?_zipIdx, Option.map_eq_some_iff] at left right
  obtain ⟨v, located, rfl⟩ := left
  obtain ⟨w, located', rfl⟩ := right
  obtain ⟨small, rfl⟩ := List.getElem?_eq_some_iff.mp located
  obtain ⟨small', rfl⟩ := List.getElem?_eq_some_iff.mp located'
  exact (List.forall₂_iff_get.mp alike).2 k small small' _

structure Ran {World : Type} (bound n m : Nat) (t u : State World) (alike : Registers → Registers → Prop) :
    Prop extends Beside t u where
  le : n ≤ m
  regs : ∀ v < n, u.regs v = t.regs v
  reads : ∀ was later : Registers, (∀ v < bound, was v = t.regs v) → (∀ v < m, later v = u.regs v) →
    alike was later

namespace Ran
variable {World : Type} {bound n m k : Nat} {t u v : State World} {alike other : Registers → Registers → Prop}

theorem map (ran : Ran bound n m t u alike) (le : ∀ was later, alike was later → other was later) :
    Ran bound n m t u other :=
  ⟨ran.toBeside, ran.le, ran.regs, fun was later same kept => le was later (ran.reads was later same kept)⟩

theorem trans (start : bound ≤ n) (ran : Ran bound n m t u alike) (next : Ran bound m k u v other) :
    Ran bound n k t v fun was later => alike was later ∧ other was later where
  world := next.world.trans ran.world
  trace := next.trace.trans ran.trace
  le := Nat.le_trans ran.le next.le
  regs w small := (next.regs w (Nat.lt_of_lt_of_le small ran.le)).trans (ran.regs w small)
  reads was later same kept := by
    refine ⟨ran.reads was later same fun w small => ?_, next.reads was later (fun w small => ?_) kept⟩
    · exact (kept w (Nat.lt_of_lt_of_le small next.le)).trans (next.regs w small)
    · exact (same w small).trans (ran.regs w (Nat.lt_of_lt_of_le small start)).symm

end Ran

section
variable {World : Type} (o : Surroundings World) (g : Func) (pos : SourcePos) {bound : Nat}

theorem liftFloatsRun {vs : List Value} (old : ∀ id, .temp id ∈ vs → id < bound) {n : Nat}
    (start : bound ≤ n) (rest : List Inst) (t : State World) : ∃ u,
      runInsts o g ((liftFloats pos n vs).1 ++ rest) t = runInsts o g rest u ∧
      Ran bound n (liftFloats pos n vs).2.2 t u fun was later =>
        ReadAlike was later vs (liftFloats pos n vs).2.1 := by
  induction vs generalizing n t with
  | nil => exact ⟨t, rfl, ⟨rfl, rfl⟩, Nat.le_refl n, fun _ _ => rfl, fun _ _ _ _ => .nil⟩
  | cons v vs ih =>
    have older : ∀ id, .temp id ∈ vs → id < bound := fun id inside => old id (List.mem_cons_of_mem _ inside)
    unfold liftFloats
    split
    · rename_i float
      cases v <;> try cases float
      rename_i bits
      obtain ⟨u, runs, ran⟩ := ih older (Nat.le_succ_of_le start)
        { t with regs := assign t.regs n bits }
      have goes : step o g {
          op := .fconst, ty := .f64, operands := [.float bits], pos := pos, result := some n } t =
          .next { t with regs := assign t.regs n bits } := by
        have reads : readOperands g {
            op := .fconst, ty := .f64, operands := [.float bits], pos := pos, result := some n } t.regs =
            some [bits] := rfl
        exact stepComputes reads rfl rfl
      refine ⟨u, ?_, ⟨ran.world, ran.trace⟩, Nat.le_of_succ_le ran.le, fun v small => ?_,
        fun was later same kept => .cons (fun ty => ?_) (ran.reads was later (fun v small => ?_) kept)⟩
      · rw [List.cons_append, runInsts, goes]
        exact runs
      · exact (ran.regs v (Nat.lt_succ_of_lt small)).trans (if_neg (Nat.ne_of_lt small))
      · refine (kept n ran.le).trans ((ran.regs n (Nat.lt_succ_self n)).trans ?_)
        exact if_pos rfl
      · exact (same v small).trans (if_neg (Nat.ne_of_lt (Nat.lt_of_lt_of_le small start))).symm
    · obtain ⟨u, runs, ran⟩ := ih older start t
      refine ⟨u, runs, ran.toBeside, ran.le, ran.regs, fun was later same kept =>
        .cons (fun ty => ?_) (ran.reads was later same kept)⟩
      cases v with
      | temp id =>
        have small := old id List.mem_cons_self
        have below := Nat.lt_of_lt_of_le small start
        exact (kept id (Nat.lt_of_lt_of_le below ran.le)).trans
          ((ran.regs id below).trans (same id small).symm)
      | _ => rfl

theorem liftListsRun {lists : List (List Value)} (old : ∀ vs ∈ lists, ∀ id, .temp id ∈ vs → id < bound)
    {n : Nat} (start : bound ≤ n) (rest : List Inst) (t : State World) : ∃ u,
      runInsts o g ((liftFloatLists pos n lists).1 ++ rest) t = runInsts o g rest u ∧
      Ran bound n (liftFloatLists pos n lists).2.2 t u fun was later =>
        List.Forall₂ (ReadAlike was later) lists (liftFloatLists pos n lists).2.1 := by
  induction lists generalizing n t with
  | nil => exact ⟨t, rfl, ⟨rfl, rfl⟩, Nat.le_refl n, fun _ _ => rfl, fun _ _ _ _ => .nil⟩
  | cons vs lists ih =>
    unfold liftFloatLists
    dsimp only
    obtain ⟨u, runs, ran⟩ := liftFloatsRun o g pos (old vs List.mem_cons_self) start
      ((liftFloatLists pos (liftFloats pos n vs).2.2 lists).1 ++ rest) t
    obtain ⟨u', runs', ran'⟩ := ih (fun ws later => old ws (List.mem_cons_of_mem _ later))
      (Nat.le_trans start ran.le) u
    refine ⟨u', by rw [List.append_assoc, runs, runs'], (ran.trans start ran').map fun was later both => ?_⟩
    exact .cons both.1 both.2

theorem liftInstRun {i : Inst} (other : i.op ≠ .fconst) (old : ∀ id ∈ i.usedTemps, id < bound) {n : Nat}
    (start : bound ≤ n) (rest : List Inst) (t : State World) : ∃ lists u,
      runInsts o g ((liftInst n i).1 ++ rest) t = runInsts o g ({ i with
        operands := (liftFloats i.pos n i.operands).2.1, targetArgs := lists } :: rest) u ∧
      (liftFloats i.pos n i.operands).2.2 ≤ (liftInst n i).2 ∧
      Ran bound n (liftInst n i).2 t u fun was later =>
        ReadAlike was later i.operands (liftFloats i.pos n i.operands).2.1 ∧
        List.Forall₂ (ReadAlike was later) i.targetArgs lists := by
  rw [liftInst, if_neg (by simpa using other)]
  dsimp only
  obtain ⟨u, runs, ran⟩ := liftFloatsRun o g i.pos (fun id listed => old id (Inst.operandUsed listed)) start
    ((liftFloatLists i.pos (liftFloats i.pos n i.operands).2.2 i.targetArgs).1 ++ ({ i with
      operands := (liftFloats i.pos n i.operands).2.1
      targetArgs := (liftFloatLists i.pos (liftFloats i.pos n i.operands).2.2 i.targetArgs).2.1 } :: rest)) t
  obtain ⟨v, runs', ran'⟩ := liftListsRun o g i.pos
    (fun vs listed id within => old id (Inst.argUsed listed within)) (Nat.le_trans start ran.le) ({ i with
      operands := (liftFloats i.pos n i.operands).2.1
      targetArgs := (liftFloatLists i.pos (liftFloats i.pos n i.operands).2.2 i.targetArgs).2.1 } :: rest) u
  refine ⟨_, v, ?_, ran'.le, ran.trans start ran'⟩
  rw [List.append_assoc, List.append_assoc, List.cons_append, List.nil_append, runs, runs']

end

theorem liftNone {vs : List Value} (absent : ∀ v ∈ vs, v.isFloatConst = false) (pos : SourcePos) (n : Nat) :
    (liftFloats pos n vs).2.1 = vs := by
  induction vs with
  | nil => rfl
  | cons v vs ih =>
    rw [liftFloats, if_neg (by simp [absent v List.mem_cons_self])]
    exact congrArg (v :: ·) (ih fun w later => absent w (List.mem_cons_of_mem _ later))

open Structure in
theorem compareLiterals {f : Func} {i : Inst} (fit : FitInst f i) (compares : i.op = .icmp ∨ i.op = .brIcmp) :
    ∀ v ∈ i.operands, v.isFloatConst = false := by
  obtain ⟨⟨low, high⟩, -, -⟩ := shapeIff.mp fit.shape
  have two : i.operands.length = 2 := by
    rcases compares with op | op <;> rw [op] at low high <;>
      exact Nat.le_antisymm (high.resolve_left (by decide)) low
  have types : compareMessages f i = [] := by
    have types := fit.types
    rcases compares with op | op <;> simp only [typeMessages, op, List.append_eq_nil_iff] at types
    · exact types.2
    · exact types
  obtain ⟨a, b, operands⟩ := List.length_eq_two.mp two
  simp only [compareMessages, twoOperands, operands] at types
  split at types
  · rename_i integer
    have same := expectTyIff.mp types
    intro v listed
    rw [operands] at listed
    rcases List.mem_cons.mp listed with rfl | later
    · cases v <;> first | rfl | simp [typeOf, Ty.isInt, Ty.isRef] at integer
    · rw [List.mem_singleton.mp later]
      rw [← same] at integer
      cases b <;> first | rfl | simp [typeOf, Ty.isInt, Ty.isRef] at integer
  · cases types

theorem passedAlike {regs other : Registers} {lists others : List (List Value)}
    (alike : List.Forall₂ (ReadAlike regs other) lists others) (edge : Nat) :
    ReadAlike regs other (lists.getD edge []) (others.getD edge []) := by
  induction alike generalizing edge with
  | nil => exact .nil
  | cons first _ ih =>
    cases edge with
    | zero => exact first
    | succ edge => exact ih edge

theorem sameTypesMap {f g : Func} {vs ws : List Value} (same : Structure.SameTypes f g vs ws) (hint : Ty) :
    ws.map (Structure.typeOf g · hint) = vs.map (Structure.typeOf f · hint) := by
  induction vs generalizing ws with
  | nil =>
    cases ws with
    | nil => rfl
    | cons w ws => exact same.elim
  | cons v vs ih =>
    cases ws with
    | nil => exact same.elim
    | cons w ws => rw [List.map_cons, List.map_cons, same.1, ih same.2]

section
variable {World : Type} {o : Surroundings World} {f g : Func} (clean : Clean f) (r : Rewrites f g)
  (unique : g.labels.Nodup) {total : Nat}
  (typed : ∀ id, f.numValues ≤ id → id < total → g.valueTypes[id]? = some .f64)
include clean r unique typed

omit typed in
theorem exchangedMeets {i : Inst} (inside : i ∈ f.insts) {ops : List Value} {lists : List (List Value)}
    (types : Structure.SameTypes f g i.operands ops)
    (literal : i.op = .icmp ∨ i.op = .brIcmp → ops = i.operands) {rest others : List Inst} {s t : State World}
    (below : Below f.numValues s t) (operands : ReadAlike s.regs t.regs i.operands ops)
    (args : List.Forall₂ (ReadAlike s.regs t.regs) i.targetArgs lists)
    (meets : ∀ u v : State World, Below f.numValues u v → Meet o f g (runInsts o f rest u) (runInsts o g others v)) :
    Meet o f g (runInsts o f (i :: rest) s)
      (runInsts o g ({ i with operands := ops, targetArgs := lists } :: others) t) := by
  have ok := clean.wellFormed
  have x := r.toExtends
  have alike : Alike f g i { i with operands := ops, targetArgs := lists } := by
    refine ⟨rfl, rfl, rfl, fun _ => rfl, rfl, rfl, rfl, rfl, fun compares => ?_, sameTypesMap types _⟩
    exact compareTySame (literal compares) fun id operand => x.valueType
      (ok.idBelow ((clean.inst inside).1.defined id (Inst.operandUsed operand)))
  have reads := operands.operands (i := i) (alike.operandTy x.signature)
  cases ends : i.isTerminator with
  | false => exact plainMeets alike ends below reads fun u v below _ => meets u v below
  | true =>
    refine lastMeets alike ends below.toBeside reads fun edge => ?_
    rw [takeEdgeGoes, takeEdgeGoes]
    cases named : i.targets[edge]? with
    | none => exact .ends below.toBeside
    | some l =>
      obtain ⟨home, tail, rfl, -, -⟩ := edgeAt ok inside named
      exact goAlike ok.labels unique x tail below ((passedAlike args edge).args _)

theorem liftInstMeets {i : Inst} (inside : i ∈ f.insts) {n : Nat} (start : f.numValues ≤ n)
    (room : (liftInst n i).2 ≤ total) {rest others : List Inst} {s t : State World}
    (below : Below f.numValues s t)
    (meets : ∀ u v : State World, Below f.numValues u v → Meet o f g (runInsts o f rest u) (runInsts o g others v)) :
    Meet o f g (runInsts o f (i :: rest) s) (runInsts o g ((liftInst n i).1 ++ others) t) := by
  have sound := (clean.inst inside).1
  have old : ∀ id ∈ i.usedTemps, id < f.numValues :=
    fun id used => clean.wellFormed.idBelow (sound.defined id used)
  by_cases const : i.op = .fconst
  · have self : ∃ targets args, i = { i with targets := targets, targetArgs := args } := ⟨_, _, rfl⟩
    rw [liftInst, if_pos (by simp [const])]
    exact plainMeets (.ofExtends r.toExtends old self) (by rw [Inst.isTerminator, const]; rfl) below
      (readsBelow r.toExtends old self below) fun u v below _ => meets u v below
  · obtain ⟨lists, v, runs, le, ran⟩ := liftInstRun o g const old start others t
    have types := ((liftFloatsReplaces r typed i.pos
      (fun id listed => old id (Inst.operandUsed listed)) start).2 (Nat.le_trans le room)).2.types
    have reads := ran.reads s.regs v.regs (fun w small => (below.regs w small).symm) fun _ _ => rfl
    have kept : Below f.numValues s v := ⟨⟨ran.world.trans below.world, ran.trace.trans below.trace⟩,
      fun w small => (ran.regs w (Nat.lt_of_lt_of_le small start)).trans (below.regs w small)⟩
    rw [runs]
    exact exchangedMeets clean r unique inside types
      (fun compares => liftNone (compareLiterals sound.toFitInst compares) i.pos n) kept reads.1 reads.2 meets

theorem liftInstsMeet {insts : List Inst} (inside : ∀ i ∈ insts, i ∈ f.insts) {n : Nat}
    (start : f.numValues ≤ n) (room : (liftInsts n insts).2 ≤ total) {s t : State World}
    (below : Below f.numValues s t) :
    Meet o f g (runInsts o f insts s) (runInsts o g (liftInsts n insts).1 t) := by
  induction insts generalizing n s t with
  | nil => exact .ends below.toBeside
  | cons i rest ih =>
    have later : ∀ j ∈ rest, j ∈ f.insts := fun j listed => inside j (List.mem_cons_of_mem _ listed)
    have le := (liftInstExpansion clean r typed (inside i List.mem_cons_self) start).1
    have le' := (liftInstsExpanded clean r typed later (Nat.le_trans start le)).1
    exact liftInstMeets clean r unique typed (inside i List.mem_cons_self) start (Nat.le_trans le' room)
      below fun u v below => ih later (Nat.le_trans start le) room below

end

theorem liftBlockAt {f g : Func} (clean : Clean f) (r : Rewrites f g) {total : Nat}
    (typed : ∀ id, f.numValues ≤ id → id < total → g.valueTypes[id]? = some .f64) {blocks : List Block}
    (inside : ∀ bb ∈ blocks, bb ∈ f.blocks) {n : Nat} (start : f.numValues ≤ n) {k : Nat} {b : Block}
    (located : (liftBlocks n blocks).1[k]? = some b) : ∃ a m, blocks[k]? = some a ∧ f.numValues ≤ m ∧
      (liftInsts m a.insts).2 ≤ (liftBlocks n blocks).2 ∧ b = { a with insts := (liftInsts m a.insts).1 } := by
  induction blocks generalizing n k with
  | nil => cases located
  | cons bb rest ih =>
    have later : ∀ b ∈ rest, b ∈ f.blocks := fun b listed => inside b (List.mem_cons_of_mem _ listed)
    have le := (liftInstsExpanded clean r typed
      (fun _ => Func.memInsts (inside bb List.mem_cons_self)) start).1
    have le' := (liftBlocksExpanded clean r typed later (Nat.le_trans start le)).1
    cases k with
    | zero =>
      cases located
      exact ⟨bb, n, rfl, start, le', rfl⟩
    | succ k => exact ih later (Nat.le_trans start le) located

theorem liftFloatsQuiet (pos : SourcePos) (n : Nat) (vs : List Value) :
    ∀ c ∈ (liftFloats pos n vs).1, c.Quiet := by
  induction vs generalizing n with
  | nil => exact fun c absent => absurd absent List.not_mem_nil
  | cons v vs ih =>
    unfold liftFloats
    split
    · intro c listed
      rcases List.mem_cons.mp listed with rfl | later
      · exact ⟨fun _ => rfl, fun _ => rfl, fun _ => rfl, fun _ => rfl, fun _ => rfl, fun _ => rfl⟩
      · exact ih _ c later
    · exact ih n

theorem liftListsQuiet (pos : SourcePos) (n : Nat) (lists : List (List Value)) :
    ∀ c ∈ (liftFloatLists pos n lists).1, c.Quiet := by
  induction lists generalizing n with
  | nil => exact fun c absent => absurd absent List.not_mem_nil
  | cons vs lists ih =>
    intro c listed
    exact (List.mem_append.mp listed).elim (liftFloatsQuiet pos n vs c) (ih _ c)

theorem liftInstQuiet {n : Nat} {i : Inst} (quiet : i.Quiet) : ∀ j ∈ (liftInst n i).1, j.Quiet := by
  intro j listed
  unfold liftInst at listed
  split at listed
  · exact List.mem_singleton.mp listed ▸ quiet
  · rcases List.mem_append.mp listed with front | self
    · exact (List.mem_append.mp front).elim (liftFloatsQuiet _ _ _ j) (liftListsQuiet _ _ _ j)
    · cases List.mem_singleton.mp self
      exact { quiet with args := fun absent => by rw [quiet.args absent]; rfl }

theorem liftInstsQuiet {n : Nat} {insts : List Inst} (quiet : ∀ i ∈ insts, i.Quiet) :
    ∀ j ∈ (liftInsts n insts).1, j.Quiet := by
  induction insts generalizing n with
  | nil => exact fun c absent => absurd absent List.not_mem_nil
  | cons i rest ih =>
    intro j listed
    rcases List.mem_append.mp listed with now | later
    · exact liftInstQuiet (quiet i List.mem_cons_self) j now
    · exact ih (fun i listed => quiet i (List.mem_cons_of_mem _ listed)) j later

theorem materializeFloatsRemade {f : Func} (clean : Clean f) : Remade f (materializeFloats f) := by
  have ok := clean.wellFormed
  have cleanG := materializeFloatsClean clean
  obtain ⟨r, typed⟩ := materializeRewrites f
  have start : (liftBlocks f.numValues f.blocks).1 = (materializeFloats f).blocks := rfl
  have lifted {k : Nat} {b : Block} (located : (materializeFloats f).blocks[k]? = some b) :=
    liftBlockAt clean r typed (fun bb => id) (Nat.le_refl _) (start ▸ located)
  refine ⟨cleanG, fun quiet j inside => ?_, .ofMeets ok (by rw [r.labels]) ?_⟩
  · obtain ⟨b, there, listed⟩ := List.mem_flatMap.mp inside
    obtain ⟨k, located⟩ := List.getElem?_of_mem there
    obtain ⟨a, m, was, -, -, rfl⟩ := lifted located
    exact liftInstsQuiet (fun i held => quiet i (Func.memInsts (List.mem_of_getElem? was) held)) j listed
  · intro World o b args s c words t alongside arrived
    obtain ⟨a, m, was, above, room, same⟩ := lifted alongside.now
    have home : a = f.block b := by
      refine Func.sameOfLabel ok.labels (List.mem_of_getElem? was) (List.mem_of_getElem? alongside.was) ?_
      rw [← alongside.label, same]
    refine alongside.enter (by rw [same, home]) fun enough below => ?_
    rw [same, ← home]
    exact liftInstsMeet clean r cleanG.wellFormed.labels typed
      (fun i listed => Func.memInsts (List.mem_of_getElem? was) listed) above room (home ▸ below)

end SsaCodegen.X64.Legalize
