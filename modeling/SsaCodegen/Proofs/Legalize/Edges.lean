import SsaCodegen.Proofs.Execution.Routes
import SsaCodegen.X64.Legalize
/-! Splitting edges. Each edge with arguments becomes a detour without parameters, in which
all is known that was known where the edge began. -/
namespace SsaCodegen.X64.Legalize
open SsaCodegen.Structure

theorem pairedApart {f g : Func} {before after : List Block} {a b : Block}
    (old : f.blocks = before ++ a :: after) (new : g.blocks = before ++ b :: after) {c d : Block}
    (pair : Paired f g c d) : d = c ∧ c ∈ f.blocks ∨ d = b ∧ c = a := by
  obtain ⟨k, left, right⟩ := pair
  have there := List.mem_of_getElem? left
  rw [old] at left
  rw [new] at right
  rcases Nat.lt_trichotomy k before.length with below | rfl | above
  · rw [List.getElem?_append_left below] at left right
    exact .inl ⟨Option.some.inj (right.symm.trans left), there⟩
  · rw [List.getElem?_append_right (Nat.le_refl _), Nat.sub_self] at left right
    exact .inr ⟨(Option.some.inj right).symm, (Option.some.inj left).symm⟩
  · rw [List.getElem?_append_right (Nat.le_of_lt above)] at left right
    obtain ⟨m, rest⟩ : ∃ m, k - before.length = m + 1 := ⟨k - before.length - 1, by omega⟩
    rw [rest, List.getElem?_cons_succ] at left right
    exact .inl ⟨Option.some.inj (right.symm.trans left), there⟩

theorem memReplaced {α : Type} {x y : α} {firsts lasts : List α}
    (inside : x ∈ firsts ++ y :: lasts) : x = y ∨ ∀ z, x ∈ firsts ++ z :: lasts := by
  rcases List.mem_append.mp inside with left | right
  · exact .inr fun z => List.mem_append_left _ left
  · exact (List.mem_cons.mp right).imp_right fun later z =>
      List.mem_append_right _ (List.mem_cons_of_mem _ later)

section Split
variable {f g : Func} {a b : Block} {body : List Inst} {last : Inst}
  {firsts lasts : List String} {target label : String} {firstArgs lastArgs : List (List Value)}
  {args : List Value} {pos : SourcePos} (clean : Clean f) (inside : a ∈ f.blocks)
  (insts : a.insts = body ++ [last]) (targets : last.targets = firsts ++ target :: lasts)
  (lists : last.targetArgs = firstArgs ++ args :: lastArgs)
  (count : firstArgs.length = firsts.length)
include clean inside insts targets lists count

theorem splitRedirected (x : Extends f g)
    (there : (⟨label, [], [jumpTo target args pos]⟩ : Block) ∈ g.blocks.tail)
    (branch : b = { a with insts := body ++ [{ last with
      targets := firsts ++ label :: lasts, targetArgs := firstArgs ++ [] :: lastArgs }] }) :
    Redirected g label a b := by
  have ok := clean.wellFormed
  have sound := ok.sound a inside last (insts ▸ List.mem_append_right _ List.mem_cons_self)
  have zipped (l : String) (vs : List Value) :
      (firsts ++ l :: lasts).zip (firstArgs ++ vs :: lastArgs) =
        firsts.zip firstArgs ++ (l, vs) :: lasts.zip lastArgs := by
    rw [List.zip_append count.symm, List.zip_cons_cons]
  refine ⟨by rw [branch], by rw [branch], body, last, _, _, insts, by rw [branch], fun l led => ?_,
    fun vs within id arg => ?_, x.fitEdges ok sound ?_ (fun _ => ?_) fun e within => ?_, ?_⟩
  · rw [targets]
    exact (memReplaced led).imp_right (· _)
  · rcases memReplaced within with rfl | was
    · cases arg
    · exact Inst.argUsed (lists ▸ was args) arg
  · rw [targets, List.length_append, List.length_append]
    rfl
  · have lengths := sound.lists (by rw [targets]; simp)
    rw [targets, lists] at lengths
    simpa using lengths
  · rw [zipped] at within
    rcases memReplaced within with rfl | was
    · exact ⟨_, there, rfl, rfl, by simp⟩
    · have edge : e ∈ last.targets.zip last.targetArgs := by
        rw [targets, lists, zipped]
        exact was (target, args)
      exact x.edgeFits (x.argsSame ok sound (List.of_mem_zip edge).2) (sound.edges e edge)
  · simp

theorem splitDetour {before after : List Block} (unused : label ∉ f.labels)
    (signature : g.signature = f.signature) (types : g.valueTypes = f.valueTypes)
    (apart : g.blocks = before ++ ⟨label, [], [jumpTo target args pos]⟩ :: after)
    (nonempty : before ≠ []) (r : Rewrites f { g with blocks := before ++ after }) (x : Extends f g)
    (pairs : ∀ c d, Paired f { g with blocks := before ++ after } c d → Redirected g label c d ∧
      (label ∈ d.targets → c = a)) :
    Detour f g ⟨label, [], [jumpTo target args pos]⟩ (jumpTo target args pos)
      (Reaches f a.label) fun v => ¬ Missing f v a.label ∨ v ∈ a.definedIds := by
  have ok := clean.wellFormed
  have sound := ok.sound a inside last (insts ▸ List.mem_append_right _ List.mem_cons_self)
  have ends : last.isTerminator = true := by
    obtain ⟨body', last', same, ends, -⟩ := ok.ended a inside
    obtain ⟨-, final⟩ := List.append_inj' (insts.symm.trans same) rfl
    cases List.singleton_inj.mp final
    exact ends
  have leads : target ∈ a.targets := by
    rw [Ended.targets insts ends, targets]
    exact List.mem_append_right _ List.mem_cons_self
  have passed : args ∈ last.targetArgs := lists ▸ List.mem_append_right _ List.mem_cons_self
  have edge : (target, args) ∈ last.targets.zip last.targetArgs := by
    rw [targets, lists, List.zip_append count.symm, List.zip_cons_cons]
    exact List.mem_append_right _ List.mem_cons_self
  exact {
    signature := signature
    types := types ▸ List.prefix_refl _
    unused := unused
    blocks := by
      refine ⟨before, after, nonempty, apart, r, fun c d pair => ⟨(pairs c d pair).1, fun led => ?_⟩⟩
      cases (pairs c d pair).2 led
      exact ⟨id, fun v known => known⟩
    insts := rfl
    jumps := ⟨rfl, (fun opens => by cases opens), rfl⟩
    fits := by
      refine ⟨rfl, rfl, fun _ => rfl, fun e within => ?_⟩
      rw [List.mem_singleton.mp within]
      exact x.edgeFits (x.argsSame ok sound passed) (sound.edges _ edge)
    tidy := fun absent => by cases absent
    params := ⟨List.nodup_nil, fun id absent => absurd absent List.not_mem_nil⟩
    declared := fun p absent => absurd absent List.not_mem_nil
    onward := by
      intro l onward
      cases List.mem_singleton.mp onward
      refine ⟨fun (same : target = label) => unused (same ▸ ok.targetUsed inside leads),
        fun reached => ⟨.edge inside reached trivial leads, fun v known => ?_⟩⟩
      exact .inl (knownAlong inside leads known)
    used := by
      intro id used
      have read : id ∈ last.usedTemps := by
        rcases Inst.memUsedTemps.mp used with absent | ⟨vs, within, arg⟩
        · cases absent
        · cases List.mem_singleton.mp within
          exact Inst.argUsed passed arg
      refine ⟨.inl (sound.defined id read), fun reached => .inl ?_⟩
      have available := ok.available a inside reached
      rw [insts] at available
      rcases available.split read with known | ⟨i, earlier, result⟩
      · exact known.imp_right (List.mem_append_left _)
      · exact .inr (Block.memDefinedIds.mpr
          (.inr ⟨i, insts ▸ List.mem_append_left _ earlier, result⟩)) }

end Split

section Step
variable {f g : Func} {before after : List Block} {a b : Block} {body : List Inst} {last : Inst}
  {firsts lasts : List String} {target label : String} {firstArgs lastArgs : List (List Value)}
  {args : List Value} {pos : SourcePos} (clean : Clean f) (unused : label ∉ f.labels)
  (blocks : f.blocks = before ++ a :: after)
  (newBlocks : g.blocks = before ++ b :: ⟨label, [], [jumpTo target args pos]⟩ :: after)
  (signature : g.signature = f.signature) (types : g.valueTypes = f.valueTypes)
  (insts : a.insts = body ++ [last]) (targets : last.targets = firsts ++ target :: lasts)
  (lists : last.targetArgs = firstArgs ++ args :: lastArgs)
  (count : firstArgs.length = firsts.length)
  (branch : b = { a with insts := body ++ [{ last with
    targets := firsts ++ label :: lasts, targetArgs := firstArgs ++ [] :: lastArgs }] })
include clean unused blocks newBlocks signature types insts targets lists count branch

theorem splitEdge : Clean g ∧ Extends f g := by
  have ok := clean.wellFormed
  have apart : g.blocks = (before ++ [b]) ++ ⟨label, [], [jumpTo target args pos]⟩ :: after := by
    rw [newBlocks, List.append_assoc]
    rfl
  have r : Rewrites f { g with blocks := (before ++ [b]) ++ after } := by
    refine ⟨signature, types ▸ List.prefix_refl _, ?_⟩
    rw [blocks, branch]
    simp [Block.head]
  have x : Extends f g := .ofWay ok.labels (by simp) apart r
  have inside : a ∈ f.blocks := blocks ▸ List.mem_append_right _ List.mem_cons_self
  have there : (⟨label, [], [jumpTo target args pos]⟩ : Block) ∈ g.blocks.tail := by
    rw [newBlocks]
    cases before with
    | nil => exact List.mem_cons_self
    | cons first more => exact List.mem_append_right _ (List.mem_cons_of_mem _ List.mem_cons_self)
  refine ⟨(splitDetour clean inside insts targets lists count unused signature types apart (by simp)
    r x fun c d pair => ?_).clean clean, x⟩
  have replaced : (before ++ [b]) ++ after = before ++ b :: after := by simp
  rcases pairedApart blocks replaced pair with ⟨rfl, within⟩ | ⟨rfl, rfl⟩
  · exact ⟨.self x clean within label,
      fun target => absurd (ok.targetUsed within target) unused⟩
  · exact ⟨splitRedirected clean inside insts targets lists count x there branch, fun _ => rfl⟩

open Semantics in
theorem splitRerouted : Rerouted f g a b := by
  obtain ⟨cleanG, x⟩ := splitEdge clean unused blocks newBlocks signature types insts targets lists count
    branch
  have inside : a ∈ f.blocks := blocks ▸ List.mem_append_right _ List.mem_cons_self
  have listed : last ∈ f.insts :=
    Func.memInsts inside (insts ▸ List.mem_append_right _ List.mem_cons_self)
  have labels := clean.wellFormed.labels
  have unique := cleanG.wellFormed.labels
  refine ⟨by rw [branch], body, last, _, _, insts, by rw [branch], fun World o edge s t below => ?_⟩
  by_cases here : edge = firsts.length
  · subst here
    have was : last.targets[firsts.length]? = some target := by simp [targets]
    have passed : last.argsOf firsts.length = args := by
      simp [Inst.argsOf, lists, ← count]
    have led : (firsts ++ label :: lasts)[firsts.length]? = some label := by simp
    have empty : (firstArgs ++ [] :: lastArgs).getD firsts.length [] = [] := by simp [← count]
    obtain ⟨home, tail, named, -, old⟩ := edgeAt clean.wellFormed listed was
    rw [takeEdgeGoes, takeEdgeGoes, was, passed]
    change Meet o f g _ (goTo g (firsts ++ label :: lasts)[firsts.length]?
      ((firstArgs ++ [] :: lastArgs).getD firsts.length []) t)
    rw [led, empty, ← named]
    have way : (⟨label, [], [jumpTo target args pos]⟩ : Block) ∈ g.blocks := by simp [newBlocks]
    exact goAround labels unique x tail way rfl rfl rfl (by rw [named]; rfl) (passed ▸ old) below rfl rfl
  · refine edgeStays clean.wellFormed unique x listed ?_ ?_ below
    · rw [targets, List.getElem?_append, List.getElem?_append]
      split
      · rfl
      · obtain ⟨k, past⟩ : ∃ k, edge - firsts.length = k + 1 := ⟨edge - firsts.length - 1, by omega⟩
        rw [past, List.getElem?_cons_succ, List.getElem?_cons_succ]
    · rw [Inst.argsOf, lists, List.getD_eq_getElem?_getD, List.getD_eq_getElem?_getD,
        List.getElem?_append, List.getElem?_append]
      split
      · rfl
      · obtain ⟨k, past⟩ : ∃ k, edge - firstArgs.length = k + 1 :=
          ⟨edge - firstArgs.length - 1, by omega⟩
        rw [past, List.getElem?_cons_succ, List.getElem?_cons_succ]

theorem splitRemade : Remade f g := by
  obtain ⟨cleanG, x⟩ := splitEdge clean unused blocks newBlocks signature types insts targets lists count
    branch
  have rerouted := splitRerouted clean unused blocks newBlocks signature types insts targets lists count
    branch
  have ok := clean.wellFormed
  have inside : a ∈ f.blocks := blocks ▸ List.mem_append_right _ List.mem_cons_self
  have either {c : Block} (there : c ∈ g.blocks) :
      c ∈ f.blocks ∨ c = b ∨ c = ⟨label, [], [jumpTo target args pos]⟩ := by
    rw [newBlocks] at there
    rw [blocks]
    simp only [List.mem_append, List.mem_cons] at there ⊢
    tauto
  refine ⟨cleanG, fun quiet j listed => ?_, .ofRoutes ok x ?_ fun c old d there same => ?_⟩
  · obtain ⟨c, there, listed⟩ := List.mem_flatMap.mp listed
    rcases either there with old | rfl | rfl
    · exact quiet j (Func.memInsts old listed)
    · rw [branch] at listed
      rcases List.mem_append.mp listed with early | final
      · exact quiet j (Func.memInsts inside (insts ▸ List.mem_append_left _ early))
      · cases List.mem_singleton.mp final
        have was := quiet last
          (Func.memInsts inside (insts ▸ List.mem_append_right _ List.mem_cons_self))
        exact { was with args := fun absent => by simp at absent }
    · cases List.mem_singleton.mp listed
      exact jumpQuiet ..
  · rw [Func.labels, Func.labels, blocks, newBlocks, branch]
    cases before <;> rfl
  · rcases either there with kept | rfl | rfl
    · cases Func.sameOfLabel ok.labels kept old same
      exact .self ok cleanG.wellFormed.labels x old
    · have named : a.label = c.label := by rw [← same, branch]
      cases Func.sameOfLabel ok.labels inside old named
      exact rerouted
    · have named : label = c.label := same
      exact absurd (named ▸ List.mem_map_of_mem old) unused

end Step

def withEdges (bb : Block) (body : List Inst) (branch : Inst) (targets : List String)
    (args : List (List Value)) : Block :=
  { bb with insts := body ++ [{ branch with targets := targets, targetArgs := args }] }

theorem splitEdgesReady {f : Func} {before after : List Block} {bb : Block} {body : List Inst}
    {branch : Inst} {used : List String} (pos : SourcePos) {targets firsts : List String}
    {args firstArgs : List (List Value)} (count : firstArgs.length = firsts.length)
    (ready : Ready f used
      (before ++ withEdges bb body branch (firsts ++ targets) (firstArgs ++ args) :: after)) :
    Ready f (splitEdges used bb.label pos targets args).used
      (before ++ withEdges bb body branch
          (firsts ++ (splitEdges used bb.label pos targets args).targets)
          (firstArgs ++ (splitEdges used bb.label pos targets args).targetArgs) ::
        ((splitEdges used bb.label pos targets args).blocks ++ after)) := by
  induction targets generalizing firsts args firstArgs with
  | nil => exact ready
  | cons target targets ih =>
    cases args with
    | nil => exact ready
    | cons vs args =>
      have later := @ih (firsts ++ [target]) args (firstArgs ++ [vs]) (by simp [count]) (by
        simpa using ready)
      unfold splitEdges
      dsimp only
      generalize splitEdges used bb.label pos targets args = s at later ⊢
      rw [List.append_assoc, List.append_assoc] at later
      split
      · exact later
      · have unused := freshLabelUnused s.used (bb.label ++ ".edge")
        generalize freshLabel s.used (bb.label ++ ".edge") = label at unused ⊢
        constructor
        · exact later.made.trans (splitRemade later.made.clean
            (fun taken => unused (later.used label taken)) rfl rfl rfl rfl rfl rfl rfl count rfl)
        · intro l listed
          simp only [List.map_append, List.map_cons, List.mem_append, List.mem_cons] at listed ⊢
          have noted := later.used l
          simp only [List.map_append, List.map_cons, List.mem_append, List.mem_cons] at noted
          rcases listed with left | same | (new | split) | right
          · exact .inl (noted (.inl left))
          · exact .inl (noted (.inr (.inl same)))
          · exact .inr (.inl new)
          · exact .inl (noted (.inr (.inr (.inl split))))
          · exact .inl (noted (.inr (.inr (.inr right))))

theorem splitBlockEdgesReady {f : Func} {before after : List Block} {bb : Block} {used : List String}
    (ready : Ready f used (before ++ bb :: after)) :
    Ready f (splitBlockEdges used bb).2 (before ++ ((splitBlockEdges used bb).1 ++ after)) := by
  obtain ⟨label, params, insts⟩ := bb
  unfold splitBlockEdges
  cases ends : insts.getLast? with
  | none => exact ready
  | some branch =>
    obtain ⟨body, rfl⟩ := List.getLast?_eq_some_iff.mp ends
    dsimp only
    split
    · rw [List.dropLast_concat]
      have whole : Ready f used (before ++ withEdges ⟨label, params, body ++ [branch]⟩ body branch
          ([] ++ branch.targets) ([] ++ branch.targetArgs) :: after) := ready
      exact splitEdgesReady branch.pos rfl whole
    · exact ready

theorem splitEdgesFromReady {f : Func} {before blocks : List Block} {used : List String}
    (ready : Ready f used (before ++ blocks)) : ∃ used',
    Ready f used' (before ++ splitEdgesFrom used blocks) := by
  induction blocks generalizing before used with
  | nil => exact ⟨used, ready⟩
  | cons bb rest ih =>
    have now := splitBlockEdgesReady ready
    rw [← List.append_assoc] at now
    obtain ⟨used', done⟩ := ih now
    rw [List.append_assoc] at done
    exact ⟨used', done⟩

theorem splitArgumentEdgesRemade {f : Func} (clean : Clean f) : Remade f (splitArgumentEdges f) := by
  obtain ⟨used, ready⟩ := splitEdgesFromReady (.start clean)
  exact ready.made

end SsaCodegen.X64.Legalize
