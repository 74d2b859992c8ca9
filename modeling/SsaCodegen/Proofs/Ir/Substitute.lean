import SsaCodegen.Proofs.Flow.Labels
import SsaCodegen.Proofs.Ir.Rewrite
/-! Substitution of values. An instruction goes away when another value, known wherever its
result was, stands in for it in every use. -/
namespace SsaCodegen
open Structure

def follow (lead : Nat → Option Nat) : Value → Value
  | .temp id => .temp ((lead id).getD id)
  | v => v

def remains (lead : Nat → Option Nat) (i : Inst) : Bool :=
  match i.result with
  | some id => (lead id).isNone
  | none => true

theorem remainsIff {lead : Nat → Option Nat} {i : Inst} :
    remains lead i = true ↔ ∀ id, i.result = some id → lead id = none := by
  unfold remains
  cases i.result with
  | none => simp
  | some id => simp

theorem removedLeads {lead : Nat → Option Nat} {i : Inst} (goes : remains lead i = false) :
    ∃ id l, i.result = some id ∧ lead id = some l := by
  unfold remains at goes
  cases result : i.result with
  | none => simp [result] at goes
  | some id =>
    rw [result] at goes
    obtain ⟨l, led⟩ := Option.isSome_iff_exists.mp (Option.isNone_eq_false_iff.mp goes)
    exact ⟨id, l, rfl, led⟩

structure Leads (f : Func) (lead : Nat → Option Nat) (id l : Nat) : Prop where
  final : lead l = none
  types : f.valueType l = f.valueType id
  defined : l ∈ f.definedIds
  place : ∃ (k n : Nat) (home : Block) (i : Inst), f.blocks[k]? = some home ∧
    home.insts[n]? = some i ∧ i.result = some id ∧
    ((∃ m < n, ∃ j, home.insts[m]? = some j ∧ j.result = some l) ∨ ¬ Missing f l home.label)

theorem followFixed {lead : Nat → Option Nat} {v : Value} (literal : v.temp? = none) :
    follow lead v = v := by
  cases v with
  | temp id => cases literal
  | _ => rfl

theorem constantOperand {f : Func} {i : Inst} (fit : FitInst f i)
    (constant : isConstant i.op = true) : ∃ v, i.operands = [v] ∧ v.temp? = none := by
  obtain ⟨⟨low, high⟩, -, -⟩ := shapeIff.mp fit.shape
  have types := fit.types
  have kind : i.op = .iconst ∨ i.op = .bconst ∨ i.op = .fconst := by
    simpa only [isConstant, Bool.or_eq_true, beq_iff_eq, or_assoc] using constant
  have one : i.operands.length = 1 := by
    rcases kind with op | op | op <;> rw [op] at low high <;>
      exact Nat.le_antisymm (high.resolve_left (by decide)) low
  obtain ⟨v, operands⟩ := List.length_eq_one_iff.mp one
  refine ⟨v, operands, ?_⟩
  rcases kind with op | op | op <;>
    simp only [typeMessages, op, operands, firstOperand, List.append_eq_nil_iff,
      complainUnlessIff] at types <;>
    cases v <;> first | rfl | simp [isIntConst, isBoolConst, Value.isFloatConst] at types

theorem usedAfter {lead : Nat → Option Nat} {i : Inst} {id : Nat}
    (used : id ∈ (i.mapUses (follow lead)).usedTemps) :
    ∃ was ∈ i.usedTemps, id = (lead was).getD was := by
  rw [Inst.usedTemps, Inst.usesMapUses, List.filterMap_map] at used
  obtain ⟨v, listed, temp⟩ := List.mem_filterMap.mp used
  cases v with
  | temp was =>
    cases temp
    exact ⟨was, List.mem_filterMap.mpr ⟨_, listed, rfl⟩, rfl⟩
  | _ => cases temp

def substituted (lead : Nat → Option Nat) (insts : List Inst) : List Inst :=
  (insts.filter (remains lead)).map (Inst.mapUses (follow lead))

theorem memSubstituted {lead : Nat → Option Nat} {insts : List Inst} {j : Inst} :
    j ∈ substituted lead insts ↔ ∃ i ∈ insts, remains lead i = true ∧ i.mapUses (follow lead) = j := by
  simp only [substituted, List.mem_map, List.mem_filter, and_assoc]

theorem availableSubstituted {lead : Nat → Option Nat} {known : Nat → Prop} {insts : List Inst}
    (ok : ∀ before i after, insts = before ++ i :: after → remains lead i = true →
      ∀ id ∈ (i.mapUses (follow lead)).usedTemps,
        known id ∨ ∃ j ∈ before, remains lead j = true ∧ j.result = some id) :
    Available known (substituted lead insts) := by
  induction insts generalizing known with
  | nil => trivial
  | cons i rest ih =>
    have later {more : Nat → Prop} (le : ∀ v, known v → more v)
        (own : remains lead i = true → ∀ v, i.result = some v → more v) :
        Available more (substituted lead rest) := by
      refine ih fun before j after same stays id used => ?_
      rcases ok (i :: before) j after (by rw [same]; rfl) stays id used with
        held | ⟨k, listed, kept, result⟩
      · exact .inl (le id held)
      · rcases List.mem_cons.mp listed with rfl | listed
        · exact .inl (own kept id result)
        · exact .inr ⟨k, listed, kept, result⟩
    unfold substituted
    cases stays : remains lead i with
    | false =>
      rw [List.filter_cons_of_neg (by simp [stays])]
      exact later (fun v => id) (fun kept => absurd (stays.symm.trans kept) (by decide))
    | true =>
      rw [List.filter_cons_of_pos stays, List.map_cons]
      refine ⟨fun id used => ?_, later (fun v => .inl) fun _ v result => .inr result⟩
      exact (ok [] i rest rfl stays id used).resolve_right fun ⟨j, absent, _⟩ =>
        absurd absent List.not_mem_nil

theorem tailFilter {α : Type} {p : α → Bool} {xs : List α} {x : α} (inside : x ∈ (xs.filter p).tail) :
    x ∈ xs.tail := by
  cases xs with
  | nil => cases inside
  | cons y ys =>
    rw [List.filter_cons] at inside
    split at inside
    · exact (List.mem_filter.mp inside).1
    · exact (List.mem_filter.mp (List.mem_of_mem_tail inside)).1

theorem substitutedEnds {f : Func} (ok : WellFormed f) (lead : Nat → Option Nat) {a : Block}
    (there : a ∈ f.blocks) : ∃ body last, a.insts = body ++ [last] ∧ last.isTerminator = true ∧
      (∀ i ∈ body, i.isTerminator = false) ∧
      substituted lead a.insts = substituted lead body ++ [last.mapUses (follow lead)] := by
  obtain ⟨body, last, same, ends, inner⟩ := ok.ended a there
  have final : last ∈ a.insts := same ▸ List.mem_append_right _ List.mem_cons_self
  have stays : remains lead last = true := by
    have quiet := resultOfTerminator (ok.sound a there last final).shape ends
    rw [remainsIff, quiet]
    exact fun id absent => nomatch absent
  refine ⟨body, last, same, ends, inner, ?_⟩
  rw [same, substituted, List.filter_append, List.map_append, List.filter_cons_of_pos stays]
  rfl

theorem substitutedTargets {f : Func} (ok : WellFormed f) {lead : Nat → Option Nat} {a b : Block}
    (there : a ∈ f.blocks) (insts : b.insts = substituted lead a.insts) : b.targets = a.targets := by
  obtain ⟨body, last, same, ends, -, shape⟩ := substitutedEnds ok lead there
  rw [Ended.targets same ends, Ended.targets (insts.trans shape) ends]
  rfl

section
variable {f g : Func} {lead : Nat → Option Nat} (clean : Clean f) (r : Rewrites f g)
  (types : g.valueTypes = f.valueTypes)
  (blocks : ∀ a b, Paired f g a b → b.insts = substituted lead a.insts)
  (leads : ∀ id l, lead id = some l → Leads f lead id l)

include r blocks in
theorem staysDefined {v : Nat} (old : v ∈ f.definedIds) (stays : lead v = none) :
    v ∈ g.definedIds := by
  obtain ⟨home, located, defines⟩ := Func.memDefinedIds.mp old
  obtain ⟨home', located', pair⟩ := r.pairFrom located
  refine Func.memDefinedIds.mpr ⟨home', located', Block.memDefinedIds.mpr ?_⟩
  rw [r.sameParamIds pair, blocks home home' pair]
  refine (Block.memDefinedIds.mp defines).imp_right fun ⟨i, held, result⟩ => ?_
  refine ⟨i.mapUses (follow lead), memSubstituted.mpr ⟨i, held, remainsIff.mpr fun id same => ?_, rfl⟩,
    result⟩
  cases result.symm.trans same
  exact stays

include clean leads in
theorem leaderKnown {a : Block} (inside : a ∈ f.blocks) {id l : Nat} (led : lead id = some l)
    (known : KnownAt f a id) : KnownAt f a l := by
  have ok := clean.wellFormed
  obtain ⟨-, -, -, k, n, home, i, located, there, result, place⟩ := leads id l led
  have homeInside := List.mem_of_getElem? located
  have defines : id ∈ home.definedIds :=
    Block.memDefinedIds.mpr (.inr ⟨i, List.mem_of_getElem? there, result⟩)
  have only : ∀ b ∈ f.blocks, id ∈ b.definedIds → b = home := fun b other also =>
    Func.oneHome ok.once other homeInside also defines
  -- a path without the leader goes around the value or comes from its definition, and in front
  -- of that the leader is known
  refine .inl fun missing => ?_
  rcases known with found | param
  · rcases FlowGraph.firstAtDefinition only missing with around | ⟨arrives, pass⟩
    · exact found (around.mono fun b both => both.2)
    · rcases place with ⟨m, -, j, earlier, same⟩ | dominated
      · exact pass (Block.memDefinedIds.mpr (.inr ⟨j, List.mem_of_getElem? earlier, same⟩))
      · exact dominated (arrives.mono fun b both => both.1)
  · have same := only a inside (List.mem_append_left _ param)
    subst same
    exact Block.paramNotResult (Func.definedOnceIn ok.once inside) param (List.mem_of_getElem? there)
      result

include clean leads in
theorem leaderBefore {a : Block} (inside : a ∈ f.blocks) {before after : List Inst} {i : Inst}
    (split : a.insts = before ++ i :: after) {id l : Nat} (led : lead id = some l)
    (result : i.result = some id) : KnownAt f a l ∨ ∃ k ∈ before, k.result = some l := by
  have ok := clean.wellFormed
  obtain ⟨-, -, -, k, n, home, i', located, there, defines, place⟩ := leads id l led
  have placed : a.insts[before.length]? = some i := by simp [split]
  cases Func.oneHome ok.once inside (List.mem_of_getElem? located)
    (Block.memDefinedIds.mpr (.inr ⟨i, List.mem_of_getElem? placed, result⟩))
    (Block.memDefinedIds.mpr (.inr ⟨i', List.mem_of_getElem? there, defines⟩))
  have index := Block.resultIndex (Func.definedOnceIn ok.once inside) placed there result defines
  subst index
  rcases place with ⟨p, earlier, k, first, same⟩ | dominated
  · rw [split, List.getElem?_append_left earlier] at first
    exact .inr ⟨k, List.mem_of_getElem? first, same⟩
  · exact .inl (.inl dominated)

include clean leads in
theorem leaderEarlier {a : Block} (inside : a ∈ f.blocks) {before after : List Inst} {i : Inst}
    (split : a.insts = before ++ i :: after) {id l : Nat} (led : lead id = some l) {j : Inst}
    (earlier : j ∈ before) (result : j.result = some id) :
    KnownAt f a l ∨ ∃ k ∈ before, k.result = some l := by
  obtain ⟨first, rest, parts⟩ := List.append_of_mem earlier
  have split' : a.insts = first ++ j :: (rest ++ i :: after) := by
    rw [split, parts, List.append_assoc, List.cons_append]
  refine (leaderBefore clean leads inside split' led result).imp_right fun ⟨k, listed, same⟩ => ?_
  exact ⟨k, parts ▸ List.mem_append_left _ listed, same⟩

theorem substitutedResults (lead : Nat → Option Nat) (insts : List Inst) :
    ((substituted lead insts).filterMap Inst.result).Sublist (insts.filterMap Inst.result) := by
  have same : (substituted lead insts).filterMap Inst.result =
      (insts.filter (remains lead)).filterMap Inst.result := by
    rw [substituted, List.filterMap_map]
    rfl
  rw [same]
  exact List.filter_sublist.filterMap _

include r blocks leads in
theorem useDefined {i : Inst} (sound : SoundInst f i) {id : Nat}
    (used : id ∈ (i.mapUses (follow lead)).usedTemps) : id ∈ f.definedIds ∧ id ∈ g.definedIds := by
  obtain ⟨was, read, rfl⟩ := usedAfter used
  have old := sound.defined was read
  cases leader : lead was with
  | none => exact ⟨old, staysDefined r blocks old leader⟩
  | some l =>
    have located := leads was l leader
    exact ⟨located.defined, staysDefined r blocks located.defined located.final⟩

include types leads in
theorem typeFollow (v : Value) (hint : Ty) : typeOf g (follow lead v) hint = typeOf f v hint := by
  have same (id : Nat) : g.valueType id = f.valueType id := by simp only [Func.valueType, types]
  cases v with
  | temp id =>
    change g.valueType ((lead id).getD id) = f.valueType id
    rw [same]
    cases leader : lead id with
    | none => rfl
    | some l => exact (leads id l leader).types
  | _ => rfl

include r types leads in
theorem fitSubstituted {i : Inst} (fit : FitInst f i) : FitInst g (i.mapUses (follow lead)) := by
  have typed (v : Value) (hint : Ty) := typeFollow types leads v hint
  refine r.toExtends.fit fit rfl rfl rfl rfl rfl (.ofMap fun v _ => typed v)
    (.ofMap fun vs _ => .ofMap fun v _ => typed v) fun constant => ?_
  obtain ⟨v, operands, literal⟩ := constantOperand fit constant
  simp [Inst.mapUses, operands, followFixed literal]

include clean r types blocks leads in
theorem substitutedBlock {a b : Block} (pair : Paired f g a b) : BlockRewrites g a b := by
  have ok := clean.wellFormed
  have insts := blocks a b pair
  have there := pair.left
  obtain ⟨body, last, same, ends, inner, shape⟩ := substitutedEnds ok lead there
  have old {j : Inst} (inside : j ∈ b.insts) :
      ∃ i ∈ a.insts, remains lead i = true ∧ i.mapUses (follow lead) = j :=
    memSubstituted.mp (insts ▸ inside)
  constructor
  case ended =>
    refine ⟨_, _, insts.trans shape, ends, fun j inside => ?_⟩
    obtain ⟨i, listed, -, rfl⟩ := memSubstituted.mp inside
    exact inner i listed
  case targets => exact fun label target => substitutedTargets ok there insts ▸ target
  case opening =>
    intro j inside opens
    rw [insts, substituted, ← List.map_tail] at inside
    obtain ⟨i, listed, rfl⟩ := List.mem_map.mp inside
    exact ⟨i, tailFilter listed, opens⟩
  case others =>
    intro j inside opens
    obtain ⟨i, listed, -, rfl⟩ := old inside
    exact ⟨i, listed, opens⟩
  case declared =>
    intro j inside id result
    obtain ⟨i, listed, -, rfl⟩ := old inside
    exact types ▸ (ok.declared a there).results i listed id result
  case sound =>
    intro j inside
    obtain ⟨i, listed, -, rfl⟩ := old inside
    have sound := ok.sound a there i listed
    exact ⟨fitSubstituted r types leads sound.toFitInst, fun id used =>
      (useDefined r blocks leads sound used).2⟩

include clean r types blocks leads in
theorem substitutedRewriting : Rewriting f g := { r with
  once := clean.wellFormed.once.sublist
    (r.definedSublist fun a b pair => blocks a b pair ▸ substitutedResults lead a.insts)
  blocks := fun _ _ => substitutedBlock clean r types blocks leads }

include clean r types blocks leads in
theorem stillKnown {a b : Block} (pair : Paired f g a b) {before : List Inst} {v : Nat}
    (stays : lead v = none) (new : v ∈ g.definedIds)
    (known : KnownAt f a v ∨ ∃ j ∈ before, j.result = some v) :
    KnownAt g b v ∨ ∃ j ∈ before, remains lead j = true ∧ j.result = some v := by
  have w := substitutedRewriting clean r types blocks leads
  have ids : ∀ a b, Paired f g a b → v ∈ b.definedIds → v ∈ a.definedIds := by
    intro a b pair defines
    rw [Block.definedIds, w.sameParamIds pair, blocks a b pair] at defines
    exact ((List.Sublist.refl _).append (substitutedResults lead a.insts)).subset defines
  refine known.imp (w.knownAt clean.wellFormed ids pair new) fun held => ?_
  obtain ⟨j, earlier, result⟩ := held
  refine ⟨j, earlier, remainsIff.mpr fun id same => ?_, result⟩
  cases result.symm.trans same
  exact stays

include clean r types blocks leads in
theorem Clean.substitute : Clean g := by
  have ok := clean.wellFormed
  have w := substitutedRewriting clean r types blocks leads
  refine ⟨w.wellFormed ok fun a b pair reaches => ?_, fun b inside j listed absent => ?_⟩
  rotate_left
  · obtain ⟨a, there, pair⟩ := w.pairOf inside
    obtain ⟨i, within, -, rfl⟩ := memSubstituted.mp (blocks a b pair ▸ listed)
    simp [Inst.mapUses, clean.tidy a there i within absent]
  have there := pair.left
  rw [blocks a b pair]
  refine availableSubstituted fun before i after split stays id used => ?_
  have listed : i ∈ a.insts := split ▸ List.mem_append_right _ List.mem_cons_self
  have new := (useDefined r blocks leads (ok.sound a there i listed) used).2
  have available := ok.available a there reaches
  rw [split] at available
  obtain ⟨was, read, rfl⟩ := usedAfter used
  have known := available.split read
  cases leader : lead was with
  | none =>
    rw [leader] at new
    exact stillKnown clean r types blocks leads pair leader new known
  | some l =>
    rw [leader] at new
    refine stillKnown clean r types blocks leads pair (leads was l leader).final new ?_
    rcases known with known | ⟨j, earlier, result⟩
    · exact .inl (leaderKnown clean leads there leader known)
    · exact leaderEarlier clean leads there split leader earlier result

end
end SsaCodegen
