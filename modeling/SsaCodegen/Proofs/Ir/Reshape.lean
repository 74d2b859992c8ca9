import SsaCodegen.Proofs.Flow.Labels
import SsaCodegen.Proofs.Ir.Rewrite
/-! Changes of the flow graph. New blocks get labels that were not in use. A detour is a
new block on the way to an old one: edges are redirected to it, and it jumps on. -/
namespace SsaCodegen

theorem numberTextInjective {m n : Nat} (same : toString m = toString n) : m = n := by
  have digits : Nat.toDigits 10 m = Nat.toDigits 10 n := by
    rw [← Nat.toList_repr, ← Nat.toList_repr]
    exact congrArg String.toList same
  rw [← Nat.ofDigitChars_ten_toDigits (n := m), digits, Nat.ofDigitChars_ten_toDigits]

theorem freshLabelUnused (used : List String) (stem : String) : freshLabel used stem ∉ used := by
  unfold freshLabel
  dsimp only
  generalize found : List.find? _ _ = result
  cases result with
  | some n =>
    have free := List.find?_some found
    simpa using free
  | none =>
    exfalso
    -- one more candidates than labels, so not all of them are in use
    have taken := List.find?_eq_none.mp found
    have once : (((List.range (used.length + 1)).map (used.length + ·)).map
        fun n => stem ++ toString n).Nodup := by
      rw [List.map_map]
      refine List.pairwise_map.mpr (List.nodup_range.imp fun {m n} differ same => differ ?_)
      exact Nat.add_left_cancel (numberTextInjective ((String.append_right_inj stem).mp same))
    have inside : (((List.range (used.length + 1)).map (used.length + ·)).map
        fun n => stem ++ toString n) ⊆ used := by
      intro label listed
      obtain ⟨n, candidate, rfl⟩ := List.mem_map.mp listed
      simpa using taken n candidate
    have count := once.length_le_of_subset inside
    simp only [List.length_map, List.length_range] at count
    omega

theorem Extends.ofBlocks {f g : Func} (labels : f.labels.Nodup) (signature : g.signature = f.signature)
    (types : f.valueTypes <+: g.valueTypes)
    (homes : ∀ a ∈ f.blocks, ∃ b ∈ g.blocks, b.label = a.label ∧ b.params = a.params)
    (opens : ∀ b others, g.blocks = b :: others →
      ∃ a rest, f.blocks = a :: rest ∧ a.label = b.label) : Extends f g where
  signature := signature
  types := types
  homes a inside := by
    obtain ⟨b, there, same, params⟩ := homes a (List.mem_of_mem_tail inside)
    obtain ⟨first, others, blocks⟩ := List.exists_cons_of_ne_nil (List.ne_nil_of_mem there)
    refine ⟨b, ?_, same, params⟩
    obtain ⟨entry, rest, start, named⟩ := opens first others blocks
    rw [start, List.tail_cons] at inside
    rw [blocks] at there ⊢
    rcases List.mem_cons.mp there with rfl | later
    · have once : (entry :: rest).map Block.label |>.Nodup := start ▸ labels
      rw [List.map_cons, List.nodup_cons] at once
      refine absurd (List.mem_map.mpr ⟨a, inside, ?_⟩) once.1
      rw [← same, named]
    · exact later

theorem Extends.ofWay {f g : Func} (labels : f.labels.Nodup) {before after : List Block} {way : Block}
    (nonempty : before ≠ []) (blocks : g.blocks = before ++ way :: after)
    (r : Rewrites f { g with blocks := before ++ after }) : Extends f g := by
  refine .ofBlocks labels r.signature r.types (fun a inside => ?_) fun b others start => ?_
  · obtain ⟨b, there, pair⟩ := r.pairFrom inside
    refine ⟨b, ?_, (r.sameHead pair).1, (r.sameHead pair).2⟩
    rw [blocks]
    rcases List.mem_append.mp there with left | right
    · exact List.mem_append_left _ left
    · exact List.mem_append_right _ (List.mem_cons_of_mem _ right)
  · obtain ⟨first, more, rfl⟩ := List.exists_cons_of_ne_nil nonempty
    obtain ⟨rfl, -⟩ := List.cons.inj (blocks.symm.trans start)
    have opening : (first :: more ++ after) = first :: (more ++ after) := rfl
    obtain ⟨a, rest, old, pair, -⟩ := r.opens opening
    exact ⟨a, rest, old, (r.sameHead pair).1.symm⟩

structure Redirected (g : Func) (away : String) (a b : Block) : Prop where
  label : b.label = a.label
  params : b.params = a.params
  exit : ∃ body last targets args, a.insts = body ++ [last] ∧
    b.insts = body ++ [{ last with targets := targets, targetArgs := args }] ∧
    (∀ l ∈ targets, l = away ∨ l ∈ last.targets) ∧
    (∀ vs ∈ args, ∀ id, .temp id ∈ vs → id ∈ last.usedTemps) ∧
    FitInst g { last with targets := targets, targetArgs := args } ∧ (targets = [] → args = [])

/-- One block more, which leads to a block that was there. `reached` and `known` say when the
new block is reached and what is known in it. -/
structure Detour (f g : Func) (way : Block) (jump : Inst) (reached : Prop) (known : Nat → Prop) :
    Prop where
  signature : g.signature = f.signature
  types : f.valueTypes <+: g.valueTypes
  unused : way.label ∉ f.labels
  blocks : ∃ before after, before ≠ [] ∧ g.blocks = before ++ way :: after ∧
    Rewrites f { g with blocks := before ++ after } ∧
    ∀ a b, Paired f { g with blocks := before ++ after } a b → Redirected g way.label a b ∧
      (way.label ∈ b.targets → (Reaches f a.label → reached) ∧
        ∀ v, known v → ¬ Missing f v a.label ∨ v ∈ a.definedIds)
  insts : way.insts = [jump]
  jumps : jump.isTerminator = true ∧ jump.op ≠ .prologue ∧ jump.result = none
  fits : FitInst g jump
  tidy : jump.Tidy
  params : way.paramIds.Nodup ∧ ∀ id ∈ way.paramIds, f.numValues ≤ id
  declared : ∀ p ∈ way.params, g.valueTypes[p.id]? = some p.ty
  onward : ∀ l ∈ jump.targets, l ≠ way.label ∧
    (reached → Reaches f l ∧ ∀ v, ¬ Missing f v l → known v ∨ v ∈ way.paramIds)
  used : ∀ id ∈ jump.usedTemps, (id ∈ f.definedIds ∨ id ∈ way.paramIds) ∧
    (reached → known id ∨ id ∈ way.paramIds)

theorem Redirected.self {f g : Func} (x : Extends f g) (clean : Clean f) {a : Block}
    (inside : a ∈ f.blocks) (away : String) : Redirected g away a a := by
  obtain ⟨body, last, same, -⟩ := clean.wellFormed.ended a inside
  have listed : last ∈ a.insts := same ▸ List.mem_append_right _ List.mem_cons_self
  exact ⟨rfl, rfl, body, last, last.targets, last.targetArgs, same, same, fun l target => .inr target,
    fun vs arg id used => Inst.argUsed arg used,
    x.fitSelf clean.wellFormed (clean.wellFormed.sound a inside last listed),
    clean.tidy a inside last listed⟩

theorem WellFormed.targetAt {f : Func} (ok : WellFormed f) {bb : Block} (inside : bb ∈ f.blocks)
    {label : String} (target : label ∈ bb.targets) : ∃ a ∈ f.blocks.tail, a.label = label := by
  obtain ⟨body, last, same, ends, -⟩ := ok.ended bb inside
  rw [Ended.targets same ends] at target
  have sound := ok.sound bb inside last (same ▸ List.mem_append_right _ List.mem_cons_self)
  have lengths := sound.lists (List.ne_nil_of_mem target)
  obtain ⟨k, located⟩ := List.getElem?_of_mem target
  have below : k < last.targetArgs.length := lengths ▸ (List.getElem?_eq_some_iff.mp located).1
  obtain ⟨home, there, named, -⟩ : EdgeFits f label last.targetArgs[k] :=
    sound.edges (label, last.targetArgs[k]) (List.mem_of_getElem?
      (List.getElem?_zip_eq_some.mpr ⟨located, List.getElem?_eq_getElem below⟩))
  exact ⟨home, there, named⟩

theorem WellFormed.targetUsed {f : Func} (ok : WellFormed f) {bb : Block} (inside : bb ∈ f.blocks)
    {label : String} (target : label ∈ bb.targets) : label ∈ f.labels := by
  obtain ⟨a, there, rfl⟩ := ok.targetAt inside target
  exact List.mem_map_of_mem (List.mem_of_mem_tail there)

namespace Redirected
variable {f g : Func} {away : String} {a b : Block} (r : Redirected g away a b)
include r

theorem ended (ok : Ended a.insts) : Ended b.insts ∧ ∀ l ∈ b.targets, l = away ∨ l ∈ a.targets := by
  obtain ⟨body, last, targets, args, old, new, leads, -⟩ := r.exit
  obtain ⟨body', last', same, ends, inner⟩ := ok
  obtain ⟨rfl, final⟩ := List.append_inj' (old.symm.trans same) rfl
  cases List.singleton_inj.mp final
  refine ⟨⟨body, _, new, ends, inner⟩, ?_⟩
  rw [Ended.targets new ends, Ended.targets old ends]
  exact leads

theorem definedIds : b.definedIds = a.definedIds := by
  obtain ⟨body, last, targets, args, old, new, -⟩ := r.exit
  rw [Block.definedIds, Block.definedIds, Block.paramIds, r.params, old, new, List.filterMap_append,
    List.filterMap_append]
  rfl

theorem was (x : Extends f g) (clean : Clean f) (there : a ∈ f.blocks) {j : Inst}
    (inside : j ∈ b.insts) : ∃ i ∈ a.insts, j.op = i.op ∧ j.result = i.result ∧ j.ty = i.ty ∧
      (∀ id ∈ j.usedTemps, id ∈ i.usedTemps) ∧ FitInst g j ∧ j.Tidy := by
  obtain ⟨body, last, targets, args, old, new, -, uses, fits, tidy⟩ := r.exit
  rw [new] at inside
  rcases List.mem_append.mp inside with kept | ending
  · have listed : j ∈ a.insts := old ▸ List.mem_append_left _ kept
    exact ⟨j, listed, rfl, rfl, rfl, fun _ used => used,
      x.fitSelf clean.wellFormed (clean.wellFormed.sound a there j listed), clean.tidy a there j listed⟩
  · have final : last ∈ a.insts := old ▸ List.mem_append_right _ List.mem_cons_self
    cases List.mem_singleton.mp ending
    refine ⟨last, final, rfl, rfl, rfl, fun id used => ?_, fits, tidy⟩
    rcases Inst.memUsedTemps.mp used with operand | ⟨vs, listed, arg⟩
    · exact Inst.operandUsed operand
    · exact uses vs listed id arg

theorem opening (ok : Ended a.insts) {j : Inst} (inside : j ∈ b.insts.tail)
    (opens : j.op = .prologue) : j ∈ a.insts.tail := by
  obtain ⟨body, last, targets, args, old, new, -⟩ := r.exit
  obtain ⟨body', last', same, ends, -⟩ := ok
  obtain ⟨rfl, final⟩ := List.append_inj' (old.symm.trans same) rfl
  cases List.singleton_inj.mp final
  have other : last.op ≠ .prologue := fun op => by rw [Inst.isTerminator, op] at ends; cases ends
  rw [new] at inside
  rw [old]
  cases body with
  | nil => cases inside
  | cons first body =>
    rcases List.mem_append.mp (show j ∈ body ++ [_] from inside) with kept | ending
    · exact List.mem_append_left _ kept
    · cases List.mem_singleton.mp ending
      exact absurd opens other

theorem available {known : Nat → Prop} (ok : Available known a.insts) : Available known b.insts := by
  obtain ⟨body, last, targets, args, old, new, -, uses, -⟩ := r.exit
  rw [old, Available.append] at ok
  rw [new, Available.append]
  refine ⟨ok.1, fun id used => ok.2.1 id ?_, trivial⟩
  rcases Inst.memUsedTemps.mp used with operand | ⟨vs, listed, arg⟩
  · exact Inst.operandUsed operand
  · exact uses vs listed id arg

end Redirected

namespace Detour
variable {f g : Func} {way : Block} {jump : Inst} {reached : Prop} {known : Nat → Prop}
  (d : Detour f g way jump reached known)
include d

theorem wayDefines : way.definedIds = way.paramIds := by
  rw [Block.definedIds, d.insts]
  simp [d.jumps.2.2]

theorem wayTargets : way.targets = jump.targets := by
  have whole : way.insts = [] ++ [jump] := d.insts
  exact Ended.targets whole d.jumps.1

theorem memCases {b : Block} (inside : b ∈ g.blocks) : b = way ∨ ∃ a ∈ f.blocks,
    Redirected g way.label a b ∧ (way.label ∈ b.targets → (Reaches f a.label → reached) ∧
      ∀ v, known v → ¬ Missing f v a.label ∨ v ∈ a.definedIds) := by
  obtain ⟨before, after, -, blocks, r, pairs⟩ := d.blocks
  rw [blocks, List.mem_append, List.mem_cons] at inside
  have old : b ∈ before ++ after → ∃ a ∈ f.blocks, Paired f { g with blocks := before ++ after } a b :=
    r.pairOf
  rcases inside with left | new | right
  · obtain ⟨a, there, pair⟩ := old (List.mem_append_left _ left)
    exact .inr ⟨a, there, pairs a b pair⟩
  · exact .inl new
  · obtain ⟨a, there, pair⟩ := old (List.mem_append_right _ right)
    exact .inr ⟨a, there, pairs a b pair⟩

theorem opens {b : Block} {others : List Block} (start : g.blocks = b :: others) :
    ∃ a rest, f.blocks = a :: rest ∧ Redirected g way.label a b ∧
      ∀ c ∈ others, c = way ∨ ∃ a' ∈ rest, Redirected g way.label a' c := by
  obtain ⟨before, after, present, blocks, r, pairs⟩ := d.blocks
  obtain ⟨first, more, rfl⟩ := List.exists_cons_of_ne_nil present
  rw [blocks] at start
  obtain ⟨rfl, rfl⟩ := List.cons.inj start
  have opening : (first :: more ++ after) = first :: (more ++ after) := rfl
  obtain ⟨a, rest, old, pair, later⟩ := r.opens opening
  refine ⟨a, rest, old, (pairs a first pair).1, fun c inside => ?_⟩
  have kept (listed : c ∈ more ++ after) : ∃ a' ∈ rest, Redirected g way.label a' c := by
    obtain ⟨a', there, pair⟩ := later c listed
    exact ⟨a', there, (pairs a' c pair).1⟩
  rcases List.mem_append.mp inside with left | right
  · exact .inr (kept (List.mem_append_left _ left))
  · rcases List.mem_cons.mp right with rfl | right
    · exact .inl rfl
    · exact .inr (kept (List.mem_append_right _ right))

theorem toExtends (ok : WellFormed f) : Extends f g := by
  obtain ⟨before, after, present, blocks, r, -⟩ := d.blocks
  exact .ofWay ok.labels present blocks r

theorem labels : g.labels.Perm (way.label :: f.labels) := by
  obtain ⟨before, after, -, blocks, r, -⟩ := d.blocks
  have perm : (before ++ way :: after).Perm (way :: (before ++ after)) := List.perm_middle
  rw [Func.labels, blocks, ← r.labels]
  exact perm.map Block.label

theorem definedIds : g.definedIds.Perm (way.paramIds ++ f.definedIds) := by
  obtain ⟨before, after, -, blocks, r, pairs⟩ := d.blocks
  have perm : (before ++ way :: after).Perm (way :: (before ++ after)) := List.perm_middle
  have same : (before ++ after).flatMap Block.definedIds = f.definedIds := by
    rw [Func.definedIds, List.flatMap_def, List.flatMap_def]
    refine congrArg List.flatten (List.ext_getElem? fun k => ?_)
    have head := r.headAt k
    rw [List.getElem?_map, List.getElem?_map]
    cases left : f.blocks[k]? with
    | none =>
      rw [left, Option.map_none, Option.map_eq_none_iff] at head
      rw [show (before ++ after)[k]? = none from head]
    | some a =>
      rw [left, Option.map_some] at head
      obtain ⟨b, right, -⟩ := Option.map_eq_some_iff.mp head
      have pair : Paired f { g with blocks := before ++ after } a b := ⟨k, left, right⟩
      rw [show (before ++ after)[k]? = some b from right, Option.map_some, Option.map_some,
        (pairs a b pair).1.definedIds]
  rw [Func.definedIds, blocks, ← same, ← d.wayDefines]
  exact perm.flatMap_right Block.definedIds

theorem defined {id : Nat} (old : id ∈ f.definedIds) : id ∈ g.definedIds :=
  d.definedIds.mem_iff.mpr (List.mem_append_right _ old)

theorem survey (ok : WellFormed f) : Survey g
    (fun l => if l = way.label then reached else Reaches f l)
    (fun l v => if l = way.label then known v else ¬ Missing f v l) := by
  have other {a : Block} (inside : a ∈ f.blocks) : a.label ≠ way.label := fun same =>
    d.unused (same ▸ List.mem_map_of_mem inside)
  refine ⟨fun b others start => ?_, fun b inside reaches l target => ?_⟩
  · obtain ⟨a, rest, old, redirected, -⟩ := d.opens start
    have away := other (old ▸ List.mem_cons_self : a ∈ f.blocks)
    rw [redirected.label]
    simp only [away, if_false]
    exact ⟨.entry old, fun v known => known (.entry old)⟩
  · rcases d.memCases inside with rfl | ⟨a, there, redirected, inward⟩
    · rw [d.wayTargets] at target
      obtain ⟨away, onward⟩ := d.onward l target
      simp only [if_true] at reaches
      simp only [if_true, away, if_false, d.wayDefines]
      exact onward reaches
    · have away := other there
      rw [redirected.label] at reaches ⊢
      simp only [away, if_false] at reaches ⊢
      rw [redirected.definedIds]
      by_cases new : l = way.label
      · subst new
        simp only [if_true]
        exact ⟨(inward target).1 reaches, (inward target).2⟩
      · simp only [new, if_false]
        have old := ((redirected.ended (ok.ended a there)).2 l target).resolve_left new
        exact ⟨.edge there reaches trivial old, fun v known => knownAlong there old known⟩

theorem instCases (clean : Clean f) {b : Block} (inside : b ∈ g.blocks) {j : Inst}
    (listed : j ∈ b.insts) : (b = way ∧ j = jump) ∨ ∃ i ∈ f.insts, j.op = i.op ∧
      j.result = i.result ∧ j.ty = i.ty ∧ (∀ id ∈ j.usedTemps, id ∈ i.usedTemps) ∧ FitInst g j ∧
      j.Tidy := by
  rcases d.memCases inside with rfl | ⟨a, there, redirected, -⟩
  · rw [d.insts] at listed
    exact .inl ⟨rfl, List.mem_singleton.mp listed⟩
  · obtain ⟨i, old, same⟩ := redirected.was (d.toExtends clean.wellFormed) clean there listed
    exact .inr ⟨i, Func.memInsts there old, same⟩

theorem entryFits (clean : Clean f) : ∃ entry rest, EntryFits g entry rest := by
  have x := d.toExtends clean.wellFormed
  obtain ⟨entry, rest, fits⟩ := clean.wellFormed.entry
  obtain ⟨before, after, present, blocks, -⟩ := d.blocks
  obtain ⟨first, more, rfl⟩ := List.exists_cons_of_ne_nil present
  obtain ⟨a, rest', start, redirected, later⟩ := d.opens blocks
  cases fits.blocks.symm.trans start
  have inside : entry ∈ f.blocks := fits.blocks ▸ List.mem_cons_self
  refine ⟨first, _, blocks, ?_, fun j listed opens => ?_, fun c listed j within opens => ?_⟩
  · rw [redirected.params, d.signature]
    exact fits.params
  · exact fits.opening j
      (redirected.opening (clean.wellFormed.ended entry inside) listed opens) opens
  · rcases later c listed with rfl | ⟨a', there, kept⟩
    · rw [d.insts] at within
      cases List.mem_singleton.mp within
      exact d.jumps.2.1 opens
    · have home : a' ∈ f.blocks := fits.blocks ▸ List.mem_cons_of_mem _ there
      obtain ⟨i, old, op, -⟩ := kept.was x clean home within
      exact fits.others a' there i old (op ▸ opens)

theorem declaredAll (clean : Clean f) {b : Block} (inside : b ∈ g.blocks) : Declared g.valueTypes b := by
  have x := d.toExtends clean.wellFormed
  refine ⟨?_, fun j listed id result => ?_⟩
  · rcases d.memCases inside with rfl | ⟨a, there, redirected, -⟩
    · exact d.declared
    · exact fun p listed =>
        x.typeAt ((clean.wellFormed.declared a there).params p (redirected.params ▸ listed))
  · rcases d.instCases clean inside listed with ⟨-, rfl⟩ | ⟨i, old, -, result', ty, -⟩
    · rw [d.jumps.2.2] at result
      cases result
    · rw [ty]
      exact x.typeAt ((clean.inst old).2.2 id (result' ▸ result))

theorem soundAll (clean : Clean f) {b : Block} (inside : b ∈ g.blocks) {j : Inst}
    (listed : j ∈ b.insts) : SoundInst g j := by
  rcases d.instCases clean inside listed with ⟨-, rfl⟩ | ⟨i, old, -, -, -, uses, fits, -⟩
  · refine ⟨d.fits, fun id used => d.definedIds.mem_iff.mpr ?_⟩
    exact (d.used id used).1.elim (List.mem_append_right _) (List.mem_append_left _)
  · exact ⟨fits, fun id used => d.defined ((clean.inst old).1.defined id (uses id used))⟩

theorem availableAll (ok : WellFormed f) :
    ∀ b ∈ g.blocks, Reaches g b.label → Available (KnownAt g b) b.insts := by
  refine (d.survey ok).available fun b inside reaches => ?_
  rcases d.memCases inside with rfl | ⟨a, there, redirected, -⟩
  · simp only [if_true] at reaches ⊢
    rw [d.insts]
    exact ⟨fun id used => (d.used id used).2 reaches, trivial⟩
  · have away : a.label ≠ way.label := fun same => d.unused (same ▸ List.mem_map_of_mem there)
    rw [redirected.label] at reaches
    simp only [redirected.label, away, if_false] at reaches ⊢
    rw [Block.paramIds, redirected.params]
    exact redirected.available (ok.available a there reaches)

theorem clean (clean : Clean f) : Clean g where
  wellFormed := {
    entry := d.entryFits clean
    labels := d.labels.nodup_iff.mpr (List.nodup_cons.mpr ⟨d.unused, clean.wellFormed.labels⟩)
    once := by
      refine d.definedIds.nodup_iff.mpr
        (List.nodup_append.mpr ⟨d.params.1, clean.wellFormed.once, fun v new w old same => ?_⟩)
      have above := d.params.2 v new
      have below := clean.wellFormed.idBelow old
      omega
    declared := fun _ inside => d.declaredAll clean inside
    ended := fun b inside => by
      rcases d.memCases inside with rfl | ⟨a, there, redirected, -⟩
      · exact ⟨[], jump, d.insts, d.jumps.1, fun i absent => absurd absent List.not_mem_nil⟩
      · exact (redirected.ended (clean.wellFormed.ended a there)).1
    sound := fun _ inside _ listed => d.soundAll clean inside listed
    available := d.availableAll clean.wellFormed }
  tidy b inside j listed := by
    rcases d.instCases clean inside listed with ⟨-, rfl⟩ | ⟨i, -, -, -, -, -, -, tidy⟩
    · exact d.tidy
    · exact tidy

end Detour

end SsaCodegen
