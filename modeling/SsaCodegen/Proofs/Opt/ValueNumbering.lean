import SsaCodegen.Opt.ValueNumbering
import SsaCodegen.Proofs.Flow.Cache
import SsaCodegen.Proofs.Ir.Substitute
/-! Value numbering is a substitution. The leaders in scope are known in the block being
numbered and are never replaced themselves; a subtree only replaces values of its own
blocks, so the leaders of a block still stand when its next child is visited. -/
namespace SsaCodegen
namespace ValueNumbering

def leadOf (s : Substitution) (id : Nat) : Option Nat := s.getD id none

theorem applyFollow (s : Substitution) : s.apply = follow (leadOf s) := by
  funext v
  cases v <;> rfl

structure Grown (lead later : Nat → Option Nat) (fresh : Nat → Prop) : Prop where
  held : ∀ id l, lead id = some l → later id = some l
  only : ∀ id, lead id = none → ¬ fresh id → later id = none

namespace Grown
variable {lead later last : Nat → Option Nat} {fresh more : Nat → Prop}

theorem refl (lead : Nat → Option Nat) (fresh : Nat → Prop) : Grown lead lead fresh :=
  ⟨fun _ _ same => same, fun _ absent _ => absent⟩

theorem trans (a : Grown lead later fresh) (b : Grown later last more) :
    Grown lead last fun id => fresh id ∨ more id where
  held id l same := b.held id l (a.held id l same)
  only id absent old := b.only id (a.only id absent fun h => old (.inl h)) fun h => old (.inr h)

theorem mono (a : Grown lead later fresh) (le : ∀ id, fresh id → more id) : Grown lead later more :=
  ⟨a.held, fun id absent old => a.only id absent fun h => old (le id h)⟩

variable (grown : Grown lead later fresh)
include grown

theorem remainsSame {i : Inst} (apart : ∀ id, i.result = some id → ¬ fresh id) :
    remains later i = remains lead i := by
  unfold remains
  cases result : i.result with
  | none => rfl
  | some id =>
    cases state : lead id with
    | none => simp only [grown.only id state (apart id result), state]
    | some l => simp only [grown.held id l state, state]

variable (final : ∀ id l, later id = some l → later l = none)
include final

theorem followTwice (v : Value) : follow later (follow lead v) = follow later v := by
  cases v with
  | temp id =>
    cases state : lead id with
    | none => simp [follow, state]
    | some l =>
      have same := grown.held id l state
      simp [follow, state, same, final id l same]
  | _ => rfl

theorem mapUsesTwice (i : Inst) :
    (i.mapUses (follow lead)).mapUses (follow later) = i.mapUses (follow later) := by
  simp [Inst.mapUses, List.map_map, Function.comp_def, grown.followTwice final]

theorem substitutedLater {insts new : List Inst}
    (apart : ∀ i ∈ insts, ∀ id, i.result = some id → ¬ fresh id)
    (same : new.map (Inst.mapUses (follow lead)) = substituted lead insts) :
    new.map (Inst.mapUses (follow later)) = substituted later insts := by
  have twice (xs : List Inst) : xs.map (Inst.mapUses (follow later)) =
      (xs.map (Inst.mapUses (follow lead))).map (Inst.mapUses (follow later)) := by
    rw [List.map_map]
    exact List.map_congr_left fun i _ => (grown.mapUsesTwice final i).symm
  rw [twice, same, substituted, substituted, ← twice]
  exact congrArg _ (List.filter_congr fun i inside => (grown.remainsSame (apart i inside)).symm)

end Grown

def HasKey (lead : Nat → Option Nat) (i : Inst) (key : ValueKey) : Prop :=
  ∃ early, (∀ id l, early id = some l → lead id = some l) ∧
    (i.mapUses (follow early)).valueKey? = some key

theorem HasKey.later {lead later : Nat → Option Nat} {i : Inst} {key : ValueKey}
    (keyed : HasKey lead i key) (held : ∀ id l, lead id = some l → later id = some l) :
    HasKey later i key := by
  obtain ⟨early, kept, same⟩ := keyed
  exact ⟨early, fun id l led => held id l (kept id l led), same⟩

def SameKey (f : Func) (lead : Nat → Option Nat) (id l : Nat) : Prop :=
  ∃ i ∈ f.insts, ∃ j ∈ f.insts, ∃ key, i.result = some id ∧ j.result = some l ∧
    HasKey lead i key ∧ HasKey lead j key

theorem SameKey.later {f : Func} {lead later : Nat → Option Nat} {id l : Nat}
    (same : SameKey f lead id l) (held : ∀ id l, lead id = some l → later id = some l) :
    SameKey f later id l := by
  obtain ⟨i, listed, j, there, key, own, other, keyed, also⟩ := same
  exact ⟨i, listed, j, there, key, own, other, keyed.later held, also.later held⟩

structure Standing (f : Func) (s : Substitution) (passed : Nat → Prop) : Prop where
  length : s.length = f.numValues
  leads : ∀ id l, leadOf s id = some l → Leads f (leadOf s) id l
  keys : ∀ id l, leadOf s id = some l → SameKey f (leadOf s) id l
  passed : ∀ id l, leadOf s id = some l → passed id ∧ passed l

theorem Standing.final {f : Func} {s : Substitution} {passed : Nat → Prop} (ok : Standing f s passed)
    (id l : Nat) (lead : leadOf s id = some l) : leadOf s l = none := (ok.leads id l lead).final

theorem Standing.mono {f : Func} {s : Substitution} {passed more : Nat → Prop}
    (ok : Standing f s passed) (le : ∀ id, passed id → more id) : Standing f s more where
  length := ok.length
  leads := ok.leads
  keys := ok.keys
  passed id l lead := (ok.passed id l lead).imp (le id) (le l)

structure Leader (f : Func) (lead : Nat → Option Nat) (passed here : Nat → Prop)
    (e : ValueKey × Nat) : Prop where
  final : lead e.2 = none
  types : f.valueType e.2 = e.1.ty
  defined : e.2 ∈ f.definedIds
  keyed : ∃ j ∈ f.insts, j.result = some e.2 ∧ HasKey lead j e.1
  passed : passed e.2
  here : here e.2

theorem Leader.later {f : Func} {lead later : Nat → Option Nat}
    {fresh passed here passed' here' : Nat → Prop} {e : ValueKey × Nat}
    (ok : Leader f lead passed here e) (grown : Grown lead later fresh) (old : ¬ fresh e.2)
    (pass : ∀ id, passed id → passed' id) (held : here e.2 → here' e.2) :
    Leader f later passed' here' e where
  final := grown.only _ ok.final old
  types := ok.types
  defined := ok.defined
  keyed := by
    obtain ⟨j, listed, own, key⟩ := ok.keyed
    exact ⟨j, listed, own, key.later grown.held⟩
  passed := pass _ ok.passed
  here := held ok.here

def resultIn (insts : List Inst) (id : Nat) : Prop := ∃ i ∈ insts, i.result = some id

structure Numbering (f : Func) (home : Block) (before : Nat → Prop) (done : List Inst)
    (scope : Scope) : Prop where
  standing : Standing f scope.substitution fun id => before id ∨ resultIn done id
  leaders : ∀ e ∈ scope.leaders, Leader f (leadOf scope.substitution)
    (fun id => before id ∨ resultIn done id)
    (fun id => ¬ Missing f id home.label ∨ resultIn done id) e

theorem leadOfSet {s : Substitution} {id : Nat} (below : id < s.length) (l v : Nat) :
    leadOf (s.set id (some l)) v = if v = id then some l else leadOf s v := by
  simp only [leadOf, List.getD_eq_getElem?_getD, List.getElem?_set]
  by_cases same : v = id
  · subst same
    simp [below]
  · simp [same, Ne.symm same]

theorem Grown.set {s : Substitution} {id : Nat} (below : id < s.length) (unled : leadOf s id = none)
    (l : Nat) : Grown (leadOf s) (leadOf (s.set id (some l))) (· = id) where
  held v l' held := by
    have other : v ≠ id := fun same => by
      rw [same, unled] at held
      cases held
    rw [leadOfSet below, if_neg other, held]
  only v absent other := by rw [leadOfSet below, if_neg other, absent]

theorem keyType {i : Inst} {key : ValueKey} (keyed : i.valueKey? = some key) : key.ty = i.ty := by
  unfold Inst.valueKey? at keyed
  split at keyed
  · cases keyed
    rfl
  · cases keyed

theorem numberInstCases (scope : Scope) (i : Inst) :
    ((numberInst scope i).1 = some (i.mapUses (follow (leadOf scope.substitution))) ∧
      (numberInst scope i).2.substitution = scope.substitution ∧
      ∀ e ∈ (numberInst scope i).2.leaders, e ∈ scope.leaders ∨ i.result = some e.2 ∧
        (i.mapUses (follow (leadOf scope.substitution))).valueKey? = some e.1) ∨
    ∃ id, ∃ e ∈ scope.leaders, i.result = some id ∧
      (i.mapUses (follow (leadOf scope.substitution))).valueKey? = some e.1 ∧
      (numberInst scope i).1 = none ∧
      (numberInst scope i).2.substitution = scope.substitution.set id (some e.2) ∧
      (numberInst scope i).2.leaders = scope.leaders := by
  unfold numberInst
  rw [applyFollow]
  dsimp only
  split
  · rename_i key id keyed own
    split
    · rename_i leader found
      obtain ⟨before, after, leaders, -⟩ := List.lookup_eq_some_iff.mp found
      refine .inr ⟨id, (key, leader), ?_, own, keyed, rfl, rfl, rfl⟩
      rw [leaders]
      exact List.mem_append_right _ List.mem_cons_self
    · refine .inl ⟨rfl, rfl, fun e listed => ?_⟩
      rcases List.mem_cons.mp listed with rfl | old
      · exact .inr ⟨own, keyed⟩
      · exact .inl old
  · exact .inl ⟨rfl, rfl, fun e old => .inl old⟩

theorem resultIn.snoc {done : List Inst} {v : Nat} (early : resultIn done v) (i : Inst) :
    resultIn (done ++ [i]) v := by
  obtain ⟨j, listed, result⟩ := early
  exact ⟨j, List.mem_append_left _ listed, result⟩

theorem resultIn.last (done : List Inst) {i : Inst} {v : Nat} (own : i.result = some v) :
    resultIn (done ++ [i]) v := ⟨i, List.mem_append_right _ List.mem_cons_self, own⟩

section Block
variable {f : Func} (wf : WellFormed f) {home : Block} {k : Nat} (located : f.blocks[k]? = some home)
  {before : Nat → Prop} (unseen : ∀ i ∈ home.insts, ∀ id, i.result = some id → ¬ before id)
  {done rest : List Inst} {i : Inst} (split : home.insts = done ++ i :: rest)
include wf located unseen split

omit wf unseen in
theorem splitListed : i ∈ f.insts :=
  Func.memInsts (List.mem_of_getElem? located) (split ▸ List.mem_append_right _ List.mem_cons_self)

theorem resultFresh {id : Nat} (own : i.result = some id) : ¬ (before id ∨ resultIn done id) := by
  have listed : i ∈ home.insts := split ▸ List.mem_append_right _ List.mem_cons_self
  refine not_or.mpr ⟨unseen i listed id own, fun ⟨j, early, result⟩ => ?_⟩
  obtain ⟨m, place⟩ := List.getElem?_of_mem early
  have below := (List.getElem?_eq_some_iff.mp place).1
  have same := Block.resultIndex
    (Func.definedOnceIn wf.once (List.mem_of_getElem? located))
    (by rw [split, List.getElem?_append_left below, place])
    (by rw [split, List.getElem?_append_right (Nat.le_refl _), Nat.sub_self]; rfl) result own
  omega

variable {scope : Scope} (ok : Numbering f home before done scope)

include ok in
theorem unled {id : Nat} (own : i.result = some id) : leadOf scope.substitution id = none := by
  cases state : leadOf scope.substitution id with
  | none => rfl
  | some l =>
    exact absurd (ok.standing.passed id l state).1 (resultFresh wf located unseen split own)

include ok in
theorem leadersLater {later : Nat → Option Nat}
    (grown : Grown (leadOf scope.substitution) later fun id => i.result = some id) :
    ∀ e ∈ scope.leaders, Leader f later (fun id => before id ∨ resultIn (done ++ [i]) id)
      (fun id => ¬ Missing f id home.label ∨ resultIn (done ++ [i]) id) e := fun e old =>
  (ok.leaders e old).later grown
    (fun own => resultFresh wf located unseen split own (ok.leaders e old).passed)
    (fun _ => Or.imp_right fun early => early.snoc i) (Or.imp_right fun early => early.snoc i)

omit unseen in
theorem resultDeclared {id : Nat} (own : i.result = some id) : f.valueTypes[id]? = some i.ty :=
  (wf.declared home (List.mem_of_getElem? located)).results i
    (split ▸ List.mem_append_right _ List.mem_cons_self) id own

omit unseen in
theorem newLeader {id : Nat} (own : i.result = some id) {lead : Nat → Option Nat}
    (unled : lead id = none) {key : ValueKey}
    (keyed : (i.mapUses (follow lead)).valueKey? = some key) :
    Leader f lead (fun id => before id ∨ resultIn (done ++ [i]) id)
      (fun id => ¬ Missing f id home.label ∨ resultIn (done ++ [i]) id) (key, id) where
  final := unled
  types := by
    rw [keyType keyed]
    simp [Func.valueType, resultDeclared wf located split own, Inst.mapUses]
  keyed := ⟨i, splitListed located split, own, lead, fun _ _ led => led, keyed⟩
  defined := Func.memDefinedIds.mpr ⟨home, List.mem_of_getElem? located, Block.memDefinedIds.mpr
    (.inr ⟨i, split ▸ List.mem_append_right _ List.mem_cons_self, own⟩)⟩
  passed := .inr (.last done own)
  here := .inr (.last done own)

include ok in
theorem standingSet {id : Nat} {e : ValueKey × Nat} (led : e ∈ scope.leaders)
    (own : i.result = some id)
    (keyed : (i.mapUses (follow (leadOf scope.substitution))).valueKey? = some e.1) :
    Standing f (scope.substitution.set id (some e.2)) fun id => before id ∨ resultIn (done ++ [i]) id := by
  have fresh := resultFresh wf located unseen split own
  have types := resultDeclared wf located split own
  have leader := ok.leaders e led
  have ty : e.1.ty = i.ty := by
    rw [keyType keyed]
    rfl
  have lead (v : Nat) : leadOf (scope.substitution.set id (some e.2)) v =
      if v = id then some e.2 else leadOf scope.substitution v :=
    leadOfSet (ok.standing.length ▸ (List.getElem?_eq_some_iff.mp types).1) e.2 v
  have standsFor (v l : Nat) (held : leadOf (scope.substitution.set id (some e.2)) v = some l) :
      (v = id ∧ l = e.2) ∨ leadOf scope.substitution v = some l := by
    rw [lead] at held
    split at held
    · exact .inl ⟨‹_›, (Option.some.inj held).symm⟩
    · exact .inr held
  have kept := (Grown.set (ok.standing.length ▸ (List.getElem?_eq_some_iff.mp types).1)
    (unled wf located unseen split ok own) e.2).held
  refine ⟨by rw [List.length_set, ok.standing.length], fun v l held => ?_, fun v l held => ?_,
    fun v l held => ?_⟩
  -- the leader came before: it is known in the block or stands earlier in it
  · rcases standsFor v l held with ⟨rfl, rfl⟩ | old
    · have other : e.2 ≠ v := fun same => fresh (same ▸ leader.passed)
      refine ⟨?_, ?_, leader.defined, k, done.length, home, i, located, by simp [split], own, ?_⟩
      · rw [lead, if_neg other, leader.final]
      · rw [leader.types, ty]
        simp [Func.valueType, types]
      · refine leader.here.symm.imp (fun earlier => ?_) fun known => known
        obtain ⟨j, early, result⟩ := earlier
        obtain ⟨m, place⟩ := List.getElem?_of_mem early
        have below := (List.getElem?_eq_some_iff.mp place).1
        exact ⟨m, below, j, by rw [split, List.getElem?_append_left below, place], result⟩
    · have was := ok.standing.leads v l old
      refine ⟨?_, was.types, was.defined, was.place⟩
      have other : l ≠ id := fun same => fresh (same ▸ (ok.standing.passed v l old).2)
      rw [lead, if_neg other, was.final]
  · rcases standsFor v l held with ⟨rfl, rfl⟩ | old
    · obtain ⟨j, listed, result, key⟩ := leader.keyed
      exact ⟨i, splitListed located split, j, listed, e.1, own, result, ⟨_, kept, keyed⟩, key.later kept⟩
    · exact (ok.standing.keys v l old).later kept
  · have later (id : Nat) : before id ∨ resultIn done id → before id ∨ resultIn (done ++ [i]) id :=
      Or.imp_right fun early => early.snoc i
    rcases standsFor v l held with ⟨rfl, rfl⟩ | old
    · exact ⟨.inr (.last done own), later _ leader.passed⟩
    · exact (ok.standing.passed v l old).imp (later v) (later l)

include ok in
theorem numberInstSound :
    Numbering f home before (done ++ [i]) (numberInst scope i).2 ∧
      Grown (leadOf scope.substitution) (leadOf (numberInst scope i).2.substitution)
        (fun id => i.result = some id) ∧
      (numberInst scope i).1 = if remains (leadOf (numberInst scope i).2.substitution) i then
        some (i.mapUses (follow (leadOf scope.substitution))) else none := by
  rcases numberInstCases scope i with
    ⟨kept, substitution, more⟩ | ⟨id, e, led, own, keyed, dropped, substitution, same⟩
  · have grown := Grown.refl (leadOf scope.substitution) fun id => i.result = some id
    have standing : Standing f scope.substitution fun id => before id ∨ resultIn (done ++ [i]) id :=
      ok.standing.mono fun id => Or.imp_right fun early => early.snoc i
    rw [substitution, kept]
    refine ⟨⟨substitution ▸ standing, fun e listed => ?_⟩, grown, ?_⟩
    · rw [substitution]
      rcases more e listed with old | ⟨own, keyed⟩
      · exact leadersLater wf located unseen split ok grown e old
      · exact newLeader wf located split own (unled wf located unseen split ok own) keyed
    · rw [if_pos (remainsIff.mpr fun id own => unled wf located unseen split ok own)]
  · have below : id < scope.substitution.length :=
      ok.standing.length ▸ (List.getElem?_eq_some_iff.mp (resultDeclared wf located split own)).1
    have grown : Grown (leadOf scope.substitution) (leadOf (numberInst scope i).2.substitution)
        fun id => i.result = some id :=
      substitution ▸ (Grown.set below (unled wf located unseen split ok own) e.2).mono
        fun v same => same ▸ own
    have goes : ¬ remains (leadOf (numberInst scope i).2.substitution) i = true := fun stays => by
      have absent := remainsIff.mp stays id own
      rw [substitution, leadOfSet below, if_pos rfl] at absent
      cases absent
    refine ⟨⟨substitution ▸ standingSet wf located unseen split ok led own keyed, fun e' listed => ?_⟩,
      grown, ?_⟩
    · exact leadersLater wf located unseen split ok grown e' (same ▸ listed)
    · rw [dropped, if_neg goes]

end Block

theorem numberInstsSound {f : Func} (wf : WellFormed f) {home : Block} {k : Nat}
    (located : f.blocks[k]? = some home) {before : Nat → Prop}
    (unseen : ∀ i ∈ home.insts, ∀ id, i.result = some id → ¬ before id) {done rest : List Inst}
    (split : home.insts = done ++ rest) {scope : Scope} (ok : Numbering f home before done scope) :
    let later := (numberInsts scope rest).2
    Numbering f home before home.insts later ∧
      Grown (leadOf scope.substitution) (leadOf later.substitution) (resultIn rest) ∧
      (numberInsts scope rest).1.map (Inst.mapUses (follow (leadOf later.substitution))) =
        substituted (leadOf later.substitution) rest := by
  induction rest generalizing done scope with
  | nil =>
    rw [List.append_nil] at split
    exact ⟨split ▸ ok, .refl _ _, rfl⟩
  | cons i rest ih =>
    obtain ⟨next, grown, kept⟩ := numberInstSound wf located unseen split ok
    have further : home.insts = (done ++ [i]) ++ rest := by rw [split, List.append_assoc]; rfl
    obtain ⟨last, more, same⟩ := ih further next
    have apart : ∀ id, i.result = some id → ¬ resultIn rest id := fun id own ⟨j, late, result⟩ => by
      obtain ⟨m, place⟩ := List.getElem?_of_mem late
      have index := Block.resultIndex
        (Func.definedOnceIn wf.once (List.mem_of_getElem? located))
        (i := done.length) (j := done.length + 1 + m)
        (by rw [split, List.getElem?_append_right (Nat.le_refl _), Nat.sub_self]; rfl)
        (by rw [further, List.getElem?_append_right (by simp)]; simpa using place) own result
      omega
    have whole : Grown (leadOf scope.substitution)
        (leadOf (numberInsts (numberInst scope i).2 rest).2.substitution) (resultIn (i :: rest)) :=
      (grown.trans more).mono fun id => by simp [resultIn]
    refine ⟨last, whole, ?_⟩
    have stays := more.remainsSame apart
    have unfolded : numberInsts scope (i :: rest) =
      ((numberInst scope i).1.toList ++ (numberInsts (numberInst scope i).2 rest).1,
        (numberInsts (numberInst scope i).2 rest).2) := rfl
    rw [unfolded, List.map_append, same, kept, ← stays]
    unfold substituted
    cases state : remains (leadOf (numberInsts (numberInst scope i).2 rest).2.substitution) i with
    | false => rw [List.filter_cons_of_neg (by simp [state])]; rfl
    | true =>
      rw [List.filter_cons_of_pos state, List.map_cons, if_pos rfl, Option.toList_some,
        List.map_singleton, whole.mapUsesTwice last.standing.final]
      rfl

def passedBy (f : Func) (seen : Nat → Prop) (id : Nat) : Prop :=
  ∃ k home, seen k ∧ f.blocks[k]? = some home ∧ resultIn home.insts id

structure Progressed (f : Func) (seen : Nat → Prop) (p : Progress) : Prop where
  standing : Standing f p.substitution (passedBy f seen)
  heads : p.blocks.map Block.head = f.blocks.map Block.head
  untouched : ∀ k, ¬ seen k → p.blocks[k]? = f.blocks[k]?
  numbered : ∀ (k : Nat) a b, f.blocks[k]? = some a → p.blocks[k]? = some b →
    b.insts.map (Inst.mapUses (follow (leadOf p.substitution))) =
      substituted (leadOf p.substitution) a.insts

theorem passedBy.mono {f : Func} {seen more : Nat → Prop} (le : ∀ k, seen k → more k) {id : Nat}
    (passed : passedBy f seen id) : passedBy f more id := by
  obtain ⟨k, home, before, there, own⟩ := passed
  exact ⟨k, home, le k before, there, own⟩

def LeadersIn (f : Func) (p : Progress) (seen here : Nat → Prop) (leaders : Leaders) : Prop :=
  ∀ e ∈ leaders, Leader f (leadOf p.substitution) (passedBy f seen) here e

def KnownBelow (f : Func) (home : Block) (id : Nat) : Prop :=
  ¬ Missing f id home.label ∨ id ∈ home.definedIds

def Walked (f : Func) (region seen : Nat → Prop) (p next : Progress) : Prop :=
  ∃ later, Progressed f later next ∧ (∀ k, seen k → later k) ∧ (∀ k, later k → seen k ∨ region k) ∧
    Grown (leadOf p.substitution) (leadOf next.substitution) (passedBy f region)

namespace Walked
variable {f : Func} {region other seen middle : Nat → Prop} {p next last : Progress}

theorem refl (ok : Progressed f seen p) (region : Nat → Prop) : Walked f region seen p p :=
  ⟨seen, ok, fun _ before => before, fun _ => .inl, .refl _ _⟩

theorem mono (walked : Walked f region seen p next) (le : ∀ k, region k → other k) :
    Walked f other seen p next := by
  obtain ⟨later, ok, kept, only, grown⟩ := walked
  exact ⟨later, ok, kept, fun k new => (only k new).imp_right (le k), grown.mono fun id => .mono le⟩

theorem trans (kept : ∀ k, seen k → middle k) (only : ∀ k, middle k → seen k ∨ region k)
    (grown : Grown (leadOf p.substitution) (leadOf next.substitution) (passedBy f region))
    (further : Walked f other middle next last) :
    Walked f (fun k => region k ∨ other k) seen p last := by
  obtain ⟨final, ok, kept', only', grown'⟩ := further
  refine ⟨final, ok, fun k before => kept' k (kept k before), fun k new => ?_,
    (grown.trans grown').mono fun id => ?_⟩
  · exact (only' k new).elim (fun old => (only k old).imp_right .inl) fun here => .inr (.inr here)
  · exact fun fresh => fresh.elim (.mono fun _ => .inl) (.mono fun _ => .inr)

end Walked

section Tree
variable {f : Func} (wf : WellFormed f)
include wf

theorem passedShare {a b : Nat → Prop} {id : Nat} (left : passedBy f a id) (right : passedBy f b id) :
    ∃ k, a k ∧ b k := by
  obtain ⟨m, home, one, located, i, listed, result⟩ := left
  obtain ⟨n, home', two, located', j, listed', result'⟩ := right
  cases Func.definedInOneBlock wf.once located located'
    (Block.memDefinedIds.mpr (.inr ⟨i, listed, result⟩))
    (Block.memDefinedIds.mpr (.inr ⟨j, listed', result'⟩))
  exact ⟨m, one, two⟩

theorem notPassed {seen : Nat → Prop} {k : Nat} {home : Block} (located : f.blocks[k]? = some home)
    (unseen : ¬ seen k) {id : Nat} (own : resultIn home.insts id) : ¬ passedBy f seen id := fun passed =>
  have ⟨_, before, same⟩ := passedShare wf passed ⟨k, home, rfl, located, own⟩
  unseen (same ▸ before)

theorem numberBlock {seen : Nat → Prop} {p : Progress} (ok : Progressed f seen p) {k : Nat}
    (unseen : ¬ seen k) {home : Block} (located : f.blocks[k]? = some home) {leaders : Leaders}
    (known : LeadersIn f p seen (fun id => ¬ Missing f id home.label) leaders) :
    let numbered := numberInsts ⟨leaders, p.substitution, p.dropped⟩ home.insts
    let next : Progress := ⟨p.blocks.modify k ({ · with insts := numbered.1 }),
      numbered.2.substitution, numbered.2.dropped⟩
    Progressed f (fun m => seen m ∨ m = k) next ∧
      Grown (leadOf p.substitution) (leadOf next.substitution) (resultIn home.insts) ∧
      LeadersIn f next (fun m => seen m ∨ m = k) (KnownBelow f home) numbered.2.leaders := by
  intro numbered next
  have inside : home ∈ f.blocks := List.mem_of_getElem? located
  have start : Numbering f home (passedBy f seen) [] ⟨leaders, p.substitution, p.dropped⟩ :=
    ⟨ok.standing.mono fun id => .inl, fun e listed =>
      (known e listed).later (.refl _ fun _ => False) (fun h => h) (fun id => .inl) .inl⟩
  obtain ⟨done, grown, same⟩ := numberInstsSound wf located
    (fun i listed id own => notPassed wf located unseen ⟨i, listed, own⟩) (by rfl) start
  have passes : ∀ id, passedBy f seen id ∨ resultIn home.insts id →
      passedBy f (fun m => seen m ∨ m = k) id := by
    rintro id (⟨m, b, before, there, own⟩ | own)
    · exact ⟨m, b, .inl before, there, own⟩
    · exact ⟨k, home, .inr rfl, located, own⟩
  have final := done.standing.final
  refine ⟨⟨done.standing.mono passes, ?_, fun m other => ?_, fun m a b left right => ?_⟩, grown,
    fun e listed => ?_⟩
  · rw [← ok.heads]
    exact headsModify _ _ fun bb => rfl
  · have apart := not_or.mp other
    exact (List.getElem?_modify_ne _ _ (Ne.symm apart.2)).trans (ok.untouched m apart.1)
  · by_cases own : m = k
    · subst own
      cases Option.some.inj (located.symm.trans left)
      have there : p.blocks[m]? = some home := (ok.untouched m unseen).trans located
      rw [List.getElem?_modify_eq, there] at right
      cases right
      exact same
    · rw [List.getElem?_modify_ne _ _ (Ne.symm own)] at right
      refine grown.substitutedLater final (fun i listed id result also => own ?_)
        (ok.numbered m a b left right)
      obtain ⟨n, rfl, same⟩ := passedShare wf (a := (· = m)) (b := (· = k))
        ⟨m, a, rfl, left, i, listed, result⟩ ⟨k, home, rfl, located, also⟩
      exact same
  · have leader := done.leaders e listed
    refine leader.later (.refl _ fun _ => False) (fun h => h) passes (Or.imp_right ?_)
    exact fun ⟨i, within, own⟩ => Block.memDefinedIds.mpr (.inr ⟨i, within, own⟩)

theorem visitChildren {t : DomTree} (tree : t = DomTree.ofFunc f (FlowGraph.ofFunc f)) {fuel : Nat}
    (visited : ∀ {seen p c below leaders}, Progressed f seen p → (∀ m, t.Below c m → ¬ seen m) →
      f.blocks[c]? = some below → LeadersIn f p seen (fun id => ¬ Missing f id below.label) leaders →
      Walked f (t.Below c) seen p (visit t fuel leaders p c))
    {k : Nat} {home : Block} (located : f.blocks[k]? = some home) {leaders : Leaders} {children : List Nat}
    (part : ∀ c ∈ children, t.idom c = some k) (once : children.Nodup) {seen : Nat → Prop} {p : Progress}
    (ok : Progressed f seen p) (apart : ∀ c ∈ children, ∀ m, t.Below c m → ¬ seen m)
    (known : LeadersIn f p seen (KnownBelow f home) leaders) :
    Walked f (fun m => ∃ c ∈ children, t.Below c m) seen p (children.foldl (visit t fuel leaders) p) := by
  induction children generalizing seen p with
  | nil => exact .refl ok _
  | cons c rest ih =>
    have nonempty : 0 < f.blocks.length := Nat.lt_of_le_of_lt (Nat.zero_le _)
      (List.getElem?_eq_some_iff.mp located).1
    have proper := FlowGraph.proper f nonempty
    have parent := part c List.mem_cons_self
    have inside : c < f.blocks.length := by
      subst tree
      exact DomTree.reachedInside proper (DomTree.idomSound proper parent).1
    have there := List.getElem?_eq_getElem inside
    have first := visited ok (apart c List.mem_cons_self) there fun e listed =>
      (known e listed).later (.refl _ fun _ => False) (fun h => h) (fun id passed => passed)
        (FlowGraph.knownBelow wf.labels located there (tree ▸ parent))
    obtain ⟨later, ok', kept, only, grown⟩ := first
    -- subtrees of siblings share no block, so a subtree replaces no leader of the block above
    have further : Walked f (fun m => ∃ d ∈ rest, t.Below d m) later (visit t fuel leaders p c)
        (rest.foldl (visit t fuel leaders) (visit t fuel leaders p c)) := by
      refine ih (fun d listed => part d (List.mem_cons_of_mem _ listed)) (List.nodup_cons.mp once).2 ok'
        (fun d listed m below new => ?_) fun e listed => ?_
      · rcases only m new with old | here
        · exact apart d (List.mem_cons_of_mem _ listed) m below old
        · have other := part d (List.mem_cons_of_mem _ listed)
          subst tree
          have same := DomTree.Below.sibling proper parent other here below
          exact (List.nodup_cons.mp once).1 (same ▸ listed)
      · have leader := known e listed
        refine leader.later grown (fun fresh => ?_) (fun id => .mono kept) fun held => held
        obtain ⟨m, old, here⟩ := passedShare wf leader.passed fresh
        exact apart c List.mem_cons_self m here old
    refine (Walked.trans kept only grown further).mono fun m region => ?_
    rcases region with below | ⟨d, listed, below⟩
    · exact ⟨c, List.mem_cons_self, below⟩
    · exact ⟨d, List.mem_cons_of_mem _ listed, below⟩

theorem visitSound {t : DomTree} (tree : t = DomTree.ofFunc f (FlowGraph.ofFunc f)) (fuel : Nat)
    {seen : Nat → Prop} {p : Progress} {k : Nat} {home : Block} {leaders : Leaders}
    (ok : Progressed f seen p) (unseen : ∀ m, t.Below k m → ¬ seen m) (located : f.blocks[k]? = some home)
    (known : LeadersIn f p seen (fun id => ¬ Missing f id home.label) leaders) :
    Walked f (t.Below k) seen p (visit t fuel leaders p k) := by
  induction fuel generalizing seen p k home leaders with
  | zero => exact .refl ok _
  | succ fuel ih =>
    have nonempty : 0 < f.blocks.length := Nat.lt_of_le_of_lt (Nat.zero_le _)
      (List.getElem?_eq_some_iff.mp located).1
    have proper := FlowGraph.proper f nonempty
    have here : p.blocks.getD k default = home := by
      rw [List.getD_eq_getElem?_getD, ok.untouched k (unseen k .self), located, Option.getD_some]
    obtain ⟨ok', grown, below⟩ := numberBlock wf ok (unseen k .self) located known
    have fresh : ∀ id, resultIn home.insts id → passedBy f (· = k) id :=
      fun id own => ⟨k, home, rfl, located, own⟩
    have parent (c : Nat) (child : c ∈ t.children k) : t.idom c = some k := by
      subst tree
      exact (DomTree.memChildren proper).mp child
    unfold visit
    dsimp only
    rw [here]
    refine (Walked.trans (fun m => .inl) (fun m => id) (grown.mono fresh) (visitChildren wf tree
      (fun ok unseen located known => ih ok unseen located known) located parent ?_ ok'
      (fun c child m inside => ?_) below)).mono fun m region => ?_
    · subst tree
      exact DomTree.childrenOnce proper k
    · have parent := parent c child
      refine not_or.mpr ⟨unseen m (.ofChild parent inside), fun same => ?_⟩
      subst tree same
      exact DomTree.parentNotBelow proper parent inside
    · rcases region with rfl | ⟨c, child, inside⟩
      · exact .self
      · exact .ofChild (parent c child) inside

end Tree

theorem startProgressed (f : Func) : Progressed f (fun _ => False)
    ⟨f.blocks, List.replicate f.numValues none, 0⟩ := by
  have nothing (id : Nat) : leadOf (List.replicate f.numValues none) id = none := by
    simp only [leadOf, List.getD_eq_getElem?_getD, List.getElem?_replicate]
    split <;> rfl
  have unled : leadOf (List.replicate f.numValues none) = fun _ => none := funext nothing
  refine ⟨⟨List.length_replicate, fun id l held => ?_, fun id l held => ?_, fun id l held => ?_⟩, rfl,
    fun _ _ => rfl, fun k a b left right => ?_⟩
  · exact nomatch (nothing id).symm.trans held
  · exact nomatch (nothing id).symm.trans held
  · exact nomatch (nothing id).symm.trans held
  · cases left.symm.trans right
    have all : a.insts.filter (remains fun _ => none) = a.insts :=
      List.filter_eq_self.mpr fun i _ => remainsIff.mpr fun _ _ => rfl
    rw [unled, substituted, all]

end ValueNumbering

open ValueNumbering in
theorem numbered {f : Func} (wf : WellFormed f) (g : Func)
    (done : (numberValues (DomTree.ofFunc f (FlowGraph.ofFunc f)) f).1 = g) : g = f ∨
      ∃ lead, (∀ id l, lead id = some l → Leads f lead id l ∧ SameKey f lead id l) ∧ Rewrites f g ∧
        g.valueTypes = f.valueTypes ∧ g.layoutVersion = f.layoutVersion ∧
        ∀ a b, Paired f g a b → b.insts = substituted lead a.insts := by
  unfold numberValues at done
  split at done
  · exact .inl done.symm
  · rename_i active
    simp only [Bool.or_eq_true, not_or, Bool.not_eq_true, List.isEmpty_eq_false_iff] at active
    obtain ⟨entry, rest, blocks⟩ := List.exists_cons_of_ne_nil active.1
    have first : f.blocks[0]? = some entry := by simp [blocks]
    have absent : LeadersIn f ⟨f.blocks, List.replicate f.numValues none, 0⟩ (fun _ => False)
        (fun id => ¬ Missing f id entry.label) [] := fun _ listed => nomatch listed
    obtain ⟨seen, ok, -⟩ := visitSound wf rfl
      ((DomTree.ofFunc f (FlowGraph.ofFunc f)).order.length + 1) (startProgressed f)
      (fun _ _ no => no) first absent
    subst done
    refine .inr ⟨_, fun id l led => ⟨ok.standing.leads id l led, ok.standing.keys id l led⟩,
      ⟨rfl, List.prefix_refl _, ?_⟩, rfl, rfl, ?_⟩
    · rw [← ok.heads]
      exact (List.map_map ..).trans (List.map_congr_left fun bb _ => rfl)
    · rintro a b ⟨k, left, right⟩
      obtain ⟨b, there, rfl⟩ := Option.map_eq_some_iff.mp ((List.getElem?_map ..).symm.trans right)
      rw [applyFollow]
      exact ok.numbered k a b left there

theorem numberValuesClean {f : Func} (clean : Clean f) :
    Clean (numberValues (DomTree.ofFunc f (FlowGraph.ofFunc f)) f).1 := by
  rcases numbered clean.wellFormed _ rfl with same | ⟨lead, leads, r, types, -, blocks⟩
  · exact same.symm ▸ clean
  · exact clean.substitute r types blocks fun id l led => (leads id l led).1

theorem numberValuesLowered {f : Func} (ok : Lowered f) :
    Lowered (numberValues (DomTree.ofFunc f (FlowGraph.ofFunc f)) f).1 := by
  rcases numbered ok.clean.wellFormed _ rfl with same | ⟨lead, -, r, -, -, blocks⟩
  · exact same.symm ▸ ok
  · refine ⟨numberValuesClean ok.clean, fun j inside => ?_⟩
    obtain ⟨b, there, listed⟩ := List.mem_flatMap.mp inside
    obtain ⟨a, located, pair⟩ := r.pairOf there
    rw [blocks a b pair] at listed
    obtain ⟨i, old, -, rfl⟩ := memSubstituted.mp listed
    exact ok.encoded i (Func.memInsts located old)

theorem numberValuesFlow {f : Func} (clean : Clean f) :
    FlowKept f (numberValues (DomTree.ofFunc f (FlowGraph.ofFunc f)) f).1 := by
  rcases numbered clean.wellFormed _ rfl with same | ⟨lead, leads, r, -, version, blocks⟩
  · rw [same]
    exact .refl f
  · refine .ofPairs r version fun a b pair => ?_
    obtain ⟨k, left, -⟩ := id pair
    exact substitutedTargets clean.wellFormed (List.mem_of_getElem? left) (blocks a b pair)

end SsaCodegen
