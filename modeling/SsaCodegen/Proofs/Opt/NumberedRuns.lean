import SsaCodegen.Proofs.Execution.Equations
import SsaCodegen.Proofs.Ir.Quiet
import SsaCodegen.Proofs.Opt.ValueKey
import SsaCodegen.Proofs.Opt.ValueNumbering
/-! Value numbering keeps runs. A value that is replaced has the key of its leader, and the
leader is known wherever the value is. There the equations of both hold, so they are equal, and
a run that reads the leader reads what the run of the original reads. -/
namespace SsaCodegen
open Semantics Structure
open ValueNumbering (SameKey numberInst numberInsts visit)

section Followed
variable {f g : Func} {lead : Nat → Option Nat}

theorem followTypeOf (types : g.valueTypes = f.valueTypes)
    (led : ∀ id l, lead id = some l → f.valueType l = f.valueType id) (v : Value) (hint : Ty) :
    typeOf g (follow lead v) hint = typeOf f v hint := by
  cases v with
  | temp id =>
    change g.valueType ((lead id).getD id) = f.valueType id
    rw [Func.valueType, types]
    cases leader : lead id with
    | none => rfl
    | some l => exact led id l leader
  | _ => rfl

theorem followAlike (types : g.valueTypes = f.valueTypes)
    (led : ∀ id l, lead id = some l → f.valueType l = f.valueType id) (i : Inst) :
    Alike f g i (i.mapUses (follow lead)) where
  op := rfl
  ty := rfl
  result := rfl
  imm _ := rfl
  callee := rfl
  trapCode := rfl
  intCond := rfl
  floatCond := rfl
  width _ := by
    have operand (k : Nat) : (i.mapUses (follow lead)).operand k = follow lead (i.operand k) := by
      rw [Inst.operand, Inst.operand, Inst.mapUses, List.getD_eq_getElem?_getD, List.getElem?_map,
        List.getD_eq_getElem?_getD]
      cases i.operands[k]? <;> rfl
    have typed (id : Nat) := followTypeOf types led (.temp id) .i64
    unfold compareTy
    rw [operand, operand]
    cases i.operand 0 with
    | temp id => exact typed id
    | _ =>
      cases i.operand 1 with
      | temp id => exact typed id
      | _ => rfl
  args := by
    rw [Inst.mapUses, List.map_map]
    exact List.map_congr_left fun v _ => followTypeOf types led v .i64

theorem followValue {regs other : Registers} {v : Value}
    (same : ∀ id, v = .temp id → other ((lead id).getD id) = regs id) (ty : Ty) :
    readAs other ty (follow lead v) = readAs regs ty v := by
  cases v with
  | temp id => exact same id rfl
  | _ => rfl

variable {i : Inst} {regs other : Registers}
  (same : ∀ id ∈ i.usedTemps, other ((lead id).getD id) = regs id)
include same

theorem followReads (alike : Alike f g i (i.mapUses (follow lead))) (signature : g.signature = f.signature) :
    readOperands g (i.mapUses (follow lead)) other = readOperands f i regs := by
  rw [readOperands, readOperands, alike.operandTy signature, Inst.mapUses, List.zipIdx_map]
  refine mapMSame (List.length_map _) fun k a b left right => ?_
  rw [List.getElem?_map, left] at right
  cases right
  refine followValue (fun id temp => same id (Inst.operandUsed (temp ▸ ?_))) _
  exact List.mem_of_getElem? (List.mem_zipIdx_iff_getElem?.mp (List.mem_of_getElem? left))

theorem followArgs (edge : Nat) (params : List Param) :
    readArgs params ((i.mapUses (follow lead)).argsOf edge) other = readArgs params (i.argsOf edge) regs := by
  have args : (i.mapUses (follow lead)).argsOf edge = (i.argsOf edge).map (follow lead) := by
    rw [Inst.argsOf, Inst.argsOf, Inst.mapUses, List.getD_eq_getElem?_getD, List.getElem?_map,
      List.getD_eq_getElem?_getD]
    cases i.targetArgs[edge]? <;> rfl
  rw [args, readArgs, readArgs, List.zip_map_left]
  refine mapMSame (List.length_map _) fun k a b left right => ?_
  rw [List.getElem?_map, left] at right
  cases right
  refine followValue (fun id temp => same id ?_) _
  have inside : .temp id ∈ i.argsOf edge := temp ▸ (List.of_mem_zip (List.mem_of_getElem? left)).1
  rw [Inst.argsOf, List.getD_eq_getElem?_getD] at inside
  cases located : i.targetArgs[edge]? with
  | none => simp [located] at inside
  | some args => exact Inst.argUsed (List.mem_of_getElem? located) (by simpa [located] using inside)

end Followed

structure NumberedTo (lead : Nat → Option Nat) (f g : Func) : Prop where
  clean : Clean f
  quiet : Quiet f
  leads : ∀ id l, lead id = some l → Leads f lead id l
  keys : ∀ id l, lead id = some l → SameKey f lead id l
  kin : Kin f g
  insts : ∀ b, (g.block b).insts = substituted lead (f.block b).insts

structure Led (lead : Nat → Option Nat) (known : Nat → Prop) (insts : List Inst) : Prop where
  closed : ∀ v l, lead v = some l → known v → known l
  results : ∀ before i after, insts = before ++ i :: after → ∀ v l, i.result = some v →
    lead v = some l → known l ∨ ∃ j ∈ before, j.result = some l

theorem Led.next {lead : Nat → Option Nat} {known : Nat → Prop} {i : Inst} {rest : List Inst}
    (led : Led lead known (i :: rest)) : Led lead (fun v => known v ∨ i.result = some v) rest where
  closed v l leads held := by
    rcases held with before | own
    · exact .inl (led.closed v l leads before)
    · refine (led.results [] i rest rfl v l own leads).imp_right fun absent => ?_
      exact absurd absent (by simp)
  results before j after split v l own leads := by
    have behind := led.results (i :: before) j after (by rw [split]; rfl) v l own leads
    simpa [or_assoc] using behind

structure Held {World : Type} (lead : Nat → Option Nat) (known : Nat → Prop) (s t : State World) :
    Prop extends Beside s t where
  regs : ∀ v, known v → t.regs ((lead v).getD v) = s.regs v

theorem Held.mono {World : Type} {lead : Nat → Option Nat} {known fewer : Nat → Prop} {s t : State World}
    (held : Held lead known s t) (le : ∀ v, fewer v → known v) : Held lead fewer s t :=
  ⟨held.toBeside, fun v few => held.regs v (le v few)⟩

theorem Leads.earlier {f : Func} {early lead : Nat → Option Nat} {id l : Nat} (leads : Leads f lead id l)
    (kept : ∀ id l, early id = some l → lead id = some l) : Leads f early id l where
  final := by
    cases state : early l with
    | none => rfl
    | some m => exact nomatch leads.final.symm.trans (kept l m state)
  types := leads.types
  defined := leads.defined
  place := leads.place

namespace NumberedTo
variable {World : Type} {o : Surroundings World} {lead : Nat → Option Nat} {f g : Func}
  (n : NumberedTo lead f g)
include n

theorem alike (i : Inst) : Alike f g i (i.mapUses (follow lead)) :=
  followAlike n.kin.types (fun id l led => (n.leads id l led).types) i

section Step
variable {known : Nat → Prop} {i : Inst} {rest : List Inst} {s t u : State World}
  (poised : Poised o f known (i :: rest) s.regs) (led : Led lead known (i :: rest))
  (held : Held lead known s t)
include poised held

theorem readsAlike : readOperands g (i.mapUses (follow lead)) t.regs = readOperands f i s.regs :=
  followReads (fun id used => held.regs id (poised.orderly.1 id used)) (n.alike i) n.kin.signature

include led

omit n in
theorem keptNext (stays : remains lead i = true) {v : State World} (beside : Beside u v) {word : Word}
    (left : u.regs = write i s.regs word) (right : v.regs = write i t.regs word) :
    Held lead (fun v => known v ∨ i.result = some v) u v where
  toBeside := beside
  regs w knows := by
    rw [left, right]
    by_cases own : i.result = some w
    · simp [remainsIff.mp stays w own, write, own, assign]
    · have before := knows.resolve_right own
      rw [writeOther own, writeOther, held.regs w before]
      -- what the instruction defines was not known, so it is no leader of what was
      intro also
      refine (poised.orderly.2.1 _ also).1 ?_
      cases state : lead w with
      | none => exact before
      | some l => exact led.closed w l state before

omit poised led in
theorem leaderHolds {w l : Nat} (leads : lead w = some l) (one : known w) (two : known l) :
    s.regs l = s.regs w := by
  have left := held.regs w one
  have right := held.regs l two
  rw [leads, Option.getD_some] at left
  rw [(n.leads w l leads).final, Option.getD_none] at right
  exact right.symm.trans left

omit poised in
theorem earlyReads {j : Inst} (knows : ∀ id ∈ j.usedTemps, known id) {early : Nat → Option Nat}
    (kept : ∀ id l, early id = some l → lead id = some l) :
    readOperands f (j.mapUses (follow early)) s.regs = readOperands f j s.regs ∧
      compute o f (j.mapUses (follow early)) = compute o f j := by
  have alike : Alike f f j (j.mapUses (follow early)) :=
    followAlike rfl (fun id l led => (n.leads id l (kept id l led)).types) j
  refine ⟨followReads (fun id used => ?_) alike rfl, alike.compute⟩
  cases state : early id with
  | none => rfl
  | some l =>
    have one := knows id used
    exact n.leaderHolds held (kept id l state) one (led.closed id l (kept id l state) one)

theorem droppedNext (commuting : o.Commutes) (goes : remains lead i = false) :
    ∃ u, step o f i s = .next u ∧ Held lead (fun v => known v ∨ i.result = some v) u t := by
  have listed := poised.listed i List.mem_cons_self
  obtain ⟨id, l, result, leads⟩ := removedLeads goes
  obtain ⟨i', there, j, listed', key, own, defines, ⟨early, kept, keyed⟩, late, kept', keyed'⟩ :=
    n.keys id l leads
  cases Func.oneDefinition n.clean.wellFormed.once there listed own result
  have pure : i.op.isPure = true := (keyOf keyed).pure
  have before : known l := (led.results [] i rest rfl id l result leads).resolve_right (by simp)
  have fit : FitInst f i := (n.clean.inst listed).1.toFitInst
  have fit' : FitInst f (j.mapUses (follow late)) := fitSubstituted (.refl f) rfl
    (fun v m leads => (n.leads v m (kept' v m leads)).earlier kept') (n.clean.inst listed').1.toFitInst
  obtain ⟨words, word, reads, computes, goes⟩ :=
    pureGoes o fit pure fun v used => poised.defined v (poised.orderly.1 v used)
  refine ⟨_, goes, ⟨held.world, held.trace⟩, fun v knows => ?_⟩
  change t.regs ((lead v).getD v) = write i s.regs word v
  by_cases same : v = id
  · subst same
    obtain ⟨others, other, reads', computes', holds⟩ :=
      poised.solved j listed' (keyOf keyed').pure l defines before
    -- with operands replaced, both have the key, and they read what they read before
    obtain ⟨readsEarly, computesEarly⟩ := n.earlyReads (o := o) led held poised.orderly.1 kept
    obtain ⟨readsLate, computesLate⟩ :=
      n.earlyReads (o := o) led held (poised.operands j listed' l defines before) kept'
    have equal := keysCompute commuting (keyOf keyed') (keyOf keyed) fit'.types (fun other => ?_)
      (readsLate.trans reads') (readsEarly.trans reads)
    · rw [computesEarly, computesLate, computes, computes'] at equal
      cases equal
      have ty : j.ty = i.ty := (keyOf keyed').ty.symm.trans (keyOf keyed).ty
      have there := held.regs l before
      rw [(n.leads v l leads).final, Option.getD_none] at there
      rw [leads, Option.getD_some, there, holds, ty]
      simp [write, result, assign]
    · have op : i.op = j.op := (keyOf keyed).op.symm.trans (keyOf keyed').op
      exact ((n.quiet i listed).floatCond (op ▸ other)).trans ((n.quiet j listed').floatCond other).symm
  · have apart : i.result ≠ some v := fun own => same (Option.some.inj (own.symm.trans result))
    rw [writeOther apart]
    exact held.regs v (knows.resolve_right apart)

end Step

theorem instsAlike (commuting : o.Commutes) {insts : List Inst} {known : Nat → Prop} {s t : State World}
    (poised : Poised o f known insts s.regs) (led : Led lead known insts) (held : Held lead known s t) :
    ExitsAlike (fun _ => Held lead fun v => known v ∨ ∃ i ∈ insts, i.result = some v)
      (runInsts o f insts s) (runInsts o g (substituted lead insts) t) := by
  induction insts generalizing known s t with
  | nil => exact .ends held.toBeside
  | cons i rest ih =>
    have later {u v : State World} (goes : step o f i s = .next u)
        (held : Held lead (fun v => known v ∨ i.result = some v) u v) :
        ExitsAlike (fun _ => Held lead fun v => known v ∨ ∃ j ∈ i :: rest, j.result = some v)
          (runInsts o f rest u) (runInsts o g (substituted lead rest) v) :=
      (ih (poised.next n.clean.wellFormed goes) led.next held).map fun _ _ _ _ _ _ held =>
        held.mono fun w knows => by simpa [or_assoc] using knows
    cases stays : remains lead i with
    | false =>
      obtain ⟨u, goes, held⟩ := n.droppedNext poised led held commuting stays
      rw [substituted, List.filter_cons_of_neg (by simp [stays]), runInsts, goes]
      exact later goes held
    | true =>
      rw [substituted, List.filter_cons_of_pos stays, List.map_cons, runInsts, runInsts]
      have reads := n.readsAlike poised held
      cases last : i.isTerminator with
      | false =>
        rcases plainStep (o := o) (n.alike i) last held.toBeside reads with
          ⟨word, u, v, goes, goes', beside, left, right⟩ | ⟨ending, u, v, ends, ends', beside⟩
        · rw [goes, goes']
          exact later goes (keptNext poised led held stays beside left right)
        · rw [ends, ends']
          exact .ends beside
      | true =>
        rcases lastStep (o := o) (n.alike i) last held.toBeside reads with
          ⟨words, edge, -, -, takes, takes'⟩ | ⟨ending, u, v, ends, ends', beside⟩
        · rw [takes, takes']
          refine .ofEdge n.kin rfl held.toBeside (fun params => ?_) fun b => held.mono fun w knows => ?_
          · exact followArgs (fun id used => held.regs id (poised.orderly.1 id used)) edge params
          · cases poised.ended [] i rest rfl last
            have quiet := resultOfTerminator (n.clean.inst (poised.listed i List.mem_cons_self)).1.shape last
            simpa [quiet] using knows
        · rw [ends, ends']
          exact .ends beside

section Block
variable {bb : Block} (inside : bb ∈ f.blocks)
include inside

theorem led : Led lead (KnownAt f bb) bb.insts where
  closed _ _ leads := leaderKnown n.clean n.leads inside leads
  results _ _ _ split _ _ own leads := leaderBefore n.clean n.leads inside split leads own

theorem heldStart {s t : State World} (held : Held lead (fun v => ¬ Missing f v bb.label) s t)
    {words : List Word} (enough : words.length = bb.params.length) : Held lead (KnownAt f bb)
      { s with regs := bind bb.params words s.regs } { t with regs := bind bb.params words t.regs } where
  world := held.world
  trace := held.trace
  regs v known := by
    cases leads : lead v with
    | none =>
      refine bindSame enough fun other => ?_
      have same := held.regs v (known.resolve_right other)
      rwa [leads] at same
    | some l =>
      -- neither the value nor its leader is a parameter
      obtain ⟨i, listed, j, there, -, own, own', -⟩ := n.keys v l leads
      have once := n.clean.wellFormed.once
      have other := Func.resultNotParam once listed own inside
      have same := held.regs v (known.resolve_right other)
      rw [leads, Option.getD_some] at same
      exact (bindOther (Func.resultNotParam once there own' inside)).trans
        (same.trans (bindOther other).symm)

end Block

def Enters (o : Surroundings World) (f : Func) (lead : Nat → Option Nat) (b : Nat) (s t : State World) :
    Prop :=
  Settled o f b s.regs ∧ Held lead (fun v => ¬ Missing f v (f.block b).label) s t

theorem blockAlike (commuting : o.Commutes) {b : Nat} {args : List Word} {s t : State World}
    (enters : Enters o f lead b s t) :
    ExitsAlike (Enters o f lead) (runBlock o f b args s) (runBlock o g b args t) := by
  obtain ⟨settled, held⟩ := enters
  have ok := n.clean.wellFormed
  have inside := List.mem_of_getElem? settled.inside
  unfold runBlock
  dsimp only
  rw [n.kin.params, n.insts]
  split
  · rename_i enough
    have start := n.heldStart inside held enough
    refine (n.instsAlike commuting (settled.poised ok enough) (n.led inside) start).map ?_
    intro c words u v jumps _ after
    have jumps : runBlock o f b args s = .jumps c words u := by
      unfold runBlock
      dsimp only
      rw [if_pos enough, jumps]
    exact ⟨settled.next ok jumps, after.mono fun w known => settled.known ok jumps known⟩
  · exact .ends held.toBeside

theorem runs (commuting : o.Commutes) (args : List Word) (world : World) (k : Nat) :
    run o g args world k = run o f args world k := by
  have ok := n.clean.wellFormed
  exact runBlocksTogether (fun _ _ _ enters => enters.2.toBeside)
    (fun _ _ _ _ => n.blockAlike commuting) k 0 args
    ⟨.start ok _, ⟨rfl, rfl⟩, fun v known => absurd (Arrived.nothingKnown ok v) known⟩

theorem origin {j : Inst} (inside : j ∈ g.insts) : ∃ i ∈ f.insts, i.mapUses (follow lead) = j := by
  obtain ⟨b, there, listed⟩ := List.mem_flatMap.mp inside
  obtain ⟨k, located⟩ := List.getElem?_of_mem there
  rw [← Func.blockAt located, n.insts] at listed
  obtain ⟨i, old, -, same⟩ := memSubstituted.mp listed
  refine ⟨i, ?_, same⟩
  cases was : f.blocks[k]? with
  | none => simp [Func.block, was] at old; exact absurd old List.not_mem_nil
  | some a => exact Func.memInsts (List.mem_of_getElem? was) (Func.blockAt was ▸ old)

end NumberedTo

theorem substitutedNothing (insts : List Inst) : substituted (fun _ => none) insts = insts := by
  have all : insts.filter (remains fun _ => none) = insts :=
    List.filter_eq_self.mpr fun i _ => remainsIff.mpr fun _ _ => rfl
  have same : (follow fun _ => none) = id := funext fun v => by cases v <;> rfl
  have stays (i : Inst) : i.mapUses (follow fun _ => none) = i := by
    simp [Inst.mapUses, same]
  rw [substituted, all, List.map_congr_left fun i _ => stays i, List.map_id']

theorem numberedTo {f : Func} (clean : Clean f) (quiet : Quiet f) :
    ∃ lead, NumberedTo lead f (numberValues (DomTree.ofFunc f (FlowGraph.ofFunc f)) f).1 := by
  rcases numbered clean.wellFormed _ rfl with same | ⟨lead, leads, r, types, -, blocks⟩
  · refine ⟨fun _ => none, clean, quiet, fun _ _ absent => (nomatch absent),
      fun _ _ absent => (nomatch absent), ?_, fun b => ?_⟩
    · rw [same]
      exact .ofRewrites (.refl f) rfl
    · rw [same, substitutedNothing]
  · refine ⟨lead, clean, quiet, fun id l led => (leads id l led).1, fun id l led => (leads id l led).2,
      .ofRewrites r types, fun b => ?_⟩
    have heads := r.headAt b
    cases there : f.blocks[b]? with
    | none =>
      rw [there, Option.map_none, Option.map_eq_none_iff] at heads
      simp only [Func.block, List.getD_eq_getElem?_getD, there, heads]
      rfl
    | some bb =>
      rw [there, Option.map_some] at heads
      obtain ⟨bb', located, -⟩ := Option.map_eq_some_iff.mp heads
      rw [Func.blockAt there, Func.blockAt located]
      exact blocks bb bb' ⟨b, there, located⟩

namespace ValueNumbering

theorem numberInstCount (scope : Scope) (i : Inst) :
    (numberInst scope i).1.toList.length + (numberInst scope i).2.dropped = scope.dropped + 1 := by
  unfold numberInst
  dsimp only
  split
  · split <;> simp [Nat.add_comm]
  · simp [Nat.add_comm]

theorem numberInstsCount (scope : Scope) (insts : List Inst) :
    (numberInsts scope insts).1.length + (numberInsts scope insts).2.dropped =
      scope.dropped + insts.length := by
  induction insts generalizing scope with
  | nil => simp [numberInsts]
  | cons i rest ih =>
    have first := numberInstCount scope i
    have further := ih (numberInst scope i).2
    simp only [numberInsts, List.length_append, List.length_cons]
    omega

def instCount (blocks : List Block) : Nat := (blocks.flatMap Block.insts).length

theorem instCountModify (blocks : List Block) (b : Nat) (insts : List Inst)
    (outside : blocks[b]? = none → insts = []) :
    instCount (blocks.modify b ({ · with insts := insts })) + (blocks.getD b default).insts.length =
      instCount blocks + insts.length := by
  induction blocks generalizing b with
  | nil => simp [instCount, outside rfl]; rfl
  | cons bb rest ih =>
    cases b with
    | zero => simp only [instCount, List.modify_zero_cons, List.flatMap_cons, List.length_append,
        List.getD_cons_zero]; omega
    | succ b =>
      have same := ih b outside
      simp only [instCount, List.modify_succ_cons, List.flatMap_cons, List.length_append,
        List.getD_cons_succ] at same ⊢
      omega

theorem visitCount (t : DomTree) (fuel : Nat) (leaders : Leaders) (p : Progress) (b : Nat) :
    (visit t fuel leaders p b).dropped + instCount (visit t fuel leaders p b).blocks =
      p.dropped + instCount p.blocks := by
  induction fuel generalizing leaders p b with
  | zero => rfl
  | succ fuel ih =>
    have children (leaders : Leaders) (p : Progress) (bs : List Nat) :
        (bs.foldl (visit t fuel leaders) p).dropped + instCount (bs.foldl (visit t fuel leaders) p).blocks =
          p.dropped + instCount p.blocks := by
      induction bs generalizing p with
      | nil => rfl
      | cons c bs further => exact (further _).trans (ih leaders p c)
    have kept := numberInstsCount ⟨leaders, p.substitution, p.dropped⟩ (p.blocks.getD b default).insts
    have changed := instCountModify p.blocks b
      (numberInsts ⟨leaders, p.substitution, p.dropped⟩ (p.blocks.getD b default).insts).1
      fun absent => by
        rw [List.getD_eq_getElem?_getD, absent]
        rfl
    rw [visit, children]
    dsimp only at kept ⊢
    omega

end ValueNumbering

open ValueNumbering in
theorem numberedCount (t : DomTree) (f : Func) :
    (numberValues t f).2 + (numberValues t f).1.insts.length = f.insts.length := by
  have count (g : Func) : g.insts.length = instCount g.blocks := rfl
  unfold numberValues
  split
  · exact Nat.zero_add _
  · rw [Func.instsMapInsts, List.length_map, count, count]
    exact (visitCount t _ _ _ _).trans (Nat.zero_add _)

/-- Value numbering keeps a function well-formed and its runs the same, whatever surrounds them
as long as float operations that may be swapped can be. It drops pure instructions only, and
says how many; what they defined is used nowhere anymore. -/
theorem numberingKeepsRuns (f : Func) (verified : verifyFunction f = []) (quiet : Quiet f) :
    let (g, dropped) := numberValues (DomTree.ofFunc f (FlowGraph.ofFunc f)) f
    verifyFunction g = [] ∧ Quiet g ∧
    (∀ (World : Type) (o : Surroundings World), o.Commutes → ∀ (args : List Word) (world : World) (n : Nat),
      run o g args world n = run o f args world n) ∧
    dropped + g.insts.length = f.insts.length ∧
    ∃ lead, (∀ b, (g.block b).insts =
        ((f.block b).insts.filter (remains lead)).map (Inst.mapUses (follow lead))) ∧
      ∀ i ∈ f.insts, remains lead i = false → i.op.isPure = true ∧
        ∀ id, i.result = some id → ∀ j ∈ g.insts, id ∉ j.usedTemps := by
  have clean : Clean f := ⟨verifiedIff.mp verified, quiet.tidy⟩
  obtain ⟨lead, n⟩ := numberedTo clean quiet
  refine ⟨verifiedIff.mpr (numberValuesClean clean).wellFormed, fun j inside => ?_,
    fun World o commuting args world k => n.runs commuting args world k, numberedCount _ f, lead, n.insts,
    fun i listed goes => ?_⟩
  · obtain ⟨i, listed, rfl⟩ := n.origin inside
    exact (quiet i listed).mapUses _
  · obtain ⟨id, l, result, led⟩ := removedLeads goes
    obtain ⟨i', there, -, -, key, own, -, ⟨early, -, keyed⟩, -⟩ := n.keys id l led
    cases Func.oneDefinition clean.wellFormed.once there listed own result
    refine ⟨(keyOf keyed).pure, fun v own j inside used => ?_⟩
    cases result.symm.trans own
    obtain ⟨i, -, rfl⟩ := n.origin inside
    obtain ⟨was, -, same⟩ := usedAfter used
    -- what is used stands for itself
    cases state : lead was with
    | none =>
      rw [state, Option.getD_none] at same
      rw [same, state] at led
      cases led
    | some m =>
      rw [state, Option.getD_some] at same
      rw [same, (n.leads was m state).final] at led
      cases led

def sumAgain : Func :=
  { signature := { params := [.i64], returns := [.i64] }
    blocks := [
      { label := "entry", params := [⟨0, .i64⟩]
        insts := [
          { result := some 1, op := .iadd, ty := .i64, operands := [.temp 0, .int 3] },
          { op := .jump, targets := ["loop"], targetArgs := [[.temp 0]] }] },
      { label := "loop", params := [⟨2, .i64⟩]
        insts := [
          { result := some 3, op := .iadd, ty := .i64, operands := [.int 3, .temp 0] },
          { result := some 4, op := .icmp, ty := .b1, operands := [.temp 2, .temp 3] },
          { op := .brif, operands := [.temp 4], targets := ["done", "loop"],
            targetArgs := [[], [.temp 3]] }] },
      { label := "done", insts := [{ op := .ret, operands := [.temp 3] }] },
      { label := "apart", insts := [{ op := .ret, operands := [.temp 3] }] }]
    valueTypes := [.i64, .i64, .i64, .i64, .b1] }

theorem sumAgainNumbered : verifyFunction sumAgain = [] ∧ Quiet sumAgain ∧
    (numberValues (DomTree.ofFunc sumAgain (FlowGraph.ofFunc sumAgain)) sumAgain).2 = 1 ∧
    run nowhere (numberValues (DomTree.ofFunc sumAgain (FlowGraph.ofFunc sumAgain)) sumAgain).1 [4] () 4 =
      run nowhere sumAgain [4] () 4 ∧
    (run nowhere sumAgain [4] () 4).ending = some (.returned [7]) := by
  have verified : verifyFunction sumAgain = [] := by decide +kernel
  have quiet : Quiet sumAgain := by decide +kernel
  have runs := (numberingKeepsRuns sumAgain verified quiet).2.2.1 Unit nowhere
    (fun _ _ _ _ _ _ => rfl) [4] () 4
  exact ⟨verified, quiet, by decide +kernel, runs, by decide +kernel⟩

end SsaCodegen
