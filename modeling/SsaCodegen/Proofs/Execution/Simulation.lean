import SsaCodegen.Proofs.Execution.Defined
/-! Two functions side by side. Instructions that differ in their operands act alike once they
have read the same words. A run of one function is matched by a run of the other that meets it
at the start of every block, be it after more blocks. -/
namespace SsaCodegen.Semantics
variable {World : Type} {o : Surroundings World} {f g : Func}

structure Alike (f g : Func) (i j : Inst) : Prop where
  op : j.op = i.op
  ty : j.ty = i.ty
  result : j.result = i.result
  imm : i.op = .load ∨ i.op = .store → j.imm = i.imm
  callee : j.callee = i.callee
  trapCode : j.trapCode = i.trapCode
  intCond : j.intCond = i.intCond
  floatCond : j.floatCond = i.floatCond
  width : i.op = .icmp ∨ i.op = .brIcmp → compareTy g j = compareTy f i
  args : j.operands.map (Structure.typeOf g · .i64) = i.operands.map (Structure.typeOf f · .i64)

namespace Alike
variable {i j : Inst} (alike : Alike f g i j)
include alike

theorem isTerminator : j.isTerminator = i.isTerminator := by
  rw [Inst.isTerminator, alike.op, Inst.isTerminator]

theorem comparison (compares : i.op = .icmp ∨ i.op = .brIcmp) :
    Semantics.comparison g j = Semantics.comparison f i := by
  unfold Semantics.comparison
  rw [alike.width compares, alike.intCond]

theorem compute : Semantics.compute o g j = Semantics.compute o f i := by
  funext words
  unfold Semantics.compute
  rw [alike.op, alike.ty, alike.callee, alike.floatCond]
  -- only a comparison compares
  cases op : i.op with
  | icmp => rw [alike.comparison (.inl op)]
  | _ => rcases words with _ | ⟨a, _ | ⟨b, _ | ⟨c, _ | ⟨d, rest⟩⟩⟩⟩ <;> rfl

theorem affect : Semantics.affect o g j = Semantics.affect o f i := by
  funext words world
  unfold Semantics.affect
  rw [alike.op, alike.ty, alike.callee, alike.trapCode, alike.args]
  cases op : i.op with
  | load => rw [alike.imm (.inl op)]
  | store => rw [alike.imm (.inr op)]
  | _ => rcases words with _ | ⟨a, _ | ⟨b, _ | ⟨c, rest⟩⟩⟩ <;> rfl

theorem act : Semantics.act o g j = Semantics.act o f i := by
  unfold Semantics.act
  rw [alike.compute, alike.affect]

theorem depart : Semantics.depart g j = Semantics.depart f i := by
  funext words
  unfold Semantics.depart
  rw [alike.op, alike.trapCode]
  cases op : i.op with
  | brIcmp => rw [alike.comparison (.inr op)]
  | _ => rcases words with _ | ⟨a, _ | ⟨b, _ | ⟨c, _ | ⟨d, rest⟩⟩⟩⟩ <;> rfl

theorem write (regs : Registers) (word : Word) :
    Semantics.write j regs word = Semantics.write i regs word := by
  unfold Semantics.write
  rw [alike.result, alike.ty]

end Alike

theorem operandTySame {i j : Inst} (signature : g.signature = f.signature) (op : j.op = i.op)
    (ty : j.ty = i.ty) (width : i.op = .icmp ∨ i.op = .brIcmp → compareTy g j = compareTy f i) :
    operandTy g j = operandTy f i := by
  funext k
  unfold operandTy
  rw [op, ty, signature]
  cases kind : i.op <;> first | rfl | exact width (.inl kind) | exact width (.inr kind)

theorem Alike.ofTypes (types : g.valueTypes = f.valueTypes) (i : Inst) : Alike f g i i := by
  have valueType : g.valueType = f.valueType := by
    funext id
    rw [Func.valueType, types, Func.valueType]
  refine ⟨rfl, rfl, rfl, fun _ => rfl, rfl, rfl, rfl, rfl, fun _ => ?_, ?_⟩
  · unfold compareTy
    rw [valueType]
  · unfold Structure.typeOf
    rw [valueType]

theorem Alike.ofKin (kin : Kin f g) (i : Inst) : Alike f g i i := .ofTypes kin.types i

theorem Alike.operandTy {i j : Inst} (alike : Alike f g i j) (signature : g.signature = f.signature) :
    Semantics.operandTy g j = Semantics.operandTy f i :=
  operandTySame signature alike.op alike.ty alike.width

structure Beside (s t : State World) : Prop where
  world : t.world = s.world
  trace : t.trace = s.trace

theorem Beside.outcome {s t : State World} (beside : Beside s t) (ending : Option Ending) :
    (⟨t.trace, t.world, ending⟩ : Outcome World) = ⟨s.trace, s.world, ending⟩ := by
  rw [beside.trace, beside.world]

theorem plainStep {i j : Inst} (alike : Alike f g i j) (plain : i.isTerminator = false) {s t : State World}
    (beside : Beside s t) (reads : readOperands g j t.regs = readOperands f i s.regs) :
    (∃ word u v, step o f i s = .next u ∧ step o g j t = .next v ∧ Beside u v ∧
      u.regs = write i s.regs word ∧ v.regs = write i t.regs word) ∨
    ∃ ending u v, step o f i s = .exits (.ends ending u) ∧ step o g j t = .exits (.ends ending v) ∧
      Beside u v := by
  have calm : j.isTerminator = false := alike.isTerminator.trans plain
  unfold step
  rw [reads]
  cases readOperands f i s.regs with
  | none => exact .inr ⟨_, _, _, rfl, rfl, beside⟩
  | some words =>
    simp only [plain, calm, Bool.false_eq_true, if_false, alike.act, beside.world, alike.write]
    cases act o f i words s.world with
    | gives seen word world => exact .inl ⟨word, _, _, rfl, rfl, ⟨rfl, by rw [beside.trace]⟩, rfl, rfl⟩
    | ends seen ending => exact .inr ⟨_, _, _, rfl, rfl, ⟨rfl, by rw [beside.trace]⟩⟩

theorem lastStep {i j : Inst} (alike : Alike f g i j) (last : i.isTerminator = true) {s t : State World}
    (beside : Beside s t) (reads : readOperands g j t.regs = readOperands f i s.regs) :
    (∃ words edge, readOperands f i s.regs = some words ∧ depart f i words = .takes edge ∧
      step o f i s = .exits (takeEdge f i edge s) ∧ step o g j t = .exits (takeEdge g j edge t)) ∨
    ∃ ending u v, step o f i s = .exits (.ends ending u) ∧ step o g j t = .exits (.ends ending v) ∧
      Beside u v := by
  have ends : j.isTerminator = true := alike.isTerminator.trans last
  unfold step
  rw [reads]
  cases readOperands f i s.regs with
  | none => exact .inr ⟨_, _, _, rfl, rfl, beside⟩
  | some words =>
    simp only [last, ends, if_true, alike.depart]
    cases departs : depart f i words with
    | takes edge => exact .inl ⟨words, edge, rfl, departs, rfl, rfl⟩
    | ends seen ending => exact .inr ⟨_, _, _, rfl, rfl, ⟨beside.world, by rw [beside.trace]⟩⟩

inductive ExitsAlike (related : Nat → State World → State World → Prop) :
    Exit World → Exit World → Prop where
  | jumps {b args s t} (next : related b s t) : ExitsAlike related (.jumps b args s) (.jumps b args t)
  | ends {ending s t} (beside : Beside s t) : ExitsAlike related (.ends ending s) (.ends ending t)

theorem ExitsAlike.map {related other : Nat → State World → State World → Prop} {x y : Exit World}
    (alike : ExitsAlike related x y)
    (le : ∀ b args s t, x = .jumps b args s → y = .jumps b args t → related b s t → other b s t) :
    ExitsAlike other x y := by
  cases alike with
  | jumps next => exact .jumps (le _ _ _ _ rfl rfl next)
  | ends beside => exact .ends beside

theorem ExitsAlike.ofEdge {related : Nat → State World → State World → Prop} (kin : Kin f g)
    {i j : Inst} {edge : Nat} {s t : State World} (targets : j.targets = i.targets) (beside : Beside s t)
    (args : ∀ params, readArgs params (j.argsOf edge) t.regs = readArgs params (i.argsOf edge) s.regs)
    (next : ∀ b, related b s t) : ExitsAlike related (takeEdge f i edge s) (takeEdge g j edge t) := by
  unfold takeEdge
  rw [targets, kin.findBlock?]
  cases i.targets[edge]?.bind f.findBlock? with
  | none => exact .ends beside
  | some b =>
    dsimp only
    rw [kin.params, args]
    cases readArgs (f.block b).params (i.argsOf edge) s.regs with
    | none => exact .ends beside
    | some words => exact .jumps (next b)

theorem runBlocksTogether {o' : Surroundings World} {related : Nat → State World → State World → Prop}
    (beside : ∀ b s t, related b s t → Beside s t)
    (alike : ∀ b args s t, related b s t →
      ExitsAlike related (runBlock o f b args s) (runBlock o' g b args t))
    (n b : Nat) (args : List Word) {s t : State World} (start : related b s t) :
    runBlocks o' g n b args t = runBlocks o f n b args s := by
  induction n generalizing b args s t with
  | zero => exact (beside b s t start).outcome none
  | succ n ih =>
    have exits := alike b args s t start
    rw [runBlocks, runBlocks]
    generalize runBlock o f b args s = x, runBlock o' g b args t = y at exits
    cases exits with
    | jumps next => exact ih _ _ next
    | ends beside => exact beside.outcome _

end SsaCodegen.Semantics
