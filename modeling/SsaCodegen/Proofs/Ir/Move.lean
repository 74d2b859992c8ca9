import SsaCodegen.Proofs.Flow.Cache
import SsaCodegen.Proofs.Flow.Loops
/-! Moving an instruction out of a loop, to the end of the block from which the loop is
entered. What it reads is known there since it is defined outside the loop, and its result
is known wherever it was since every path to the loop passes that block. -/
namespace SsaCodegen
open Search

structure Moved (f g : Func) (b p : Nat) (home way : Block) (before after body : List Inst)
    (i last : Inst) : Prop where
  signature : g.signature = f.signature
  types : g.valueTypes = f.valueTypes
  fromAt : f.blocks[b]? = some home
  toAt : f.blocks[p]? = some way
  apart : b ≠ p
  split : home.insts = before ++ i :: after
  ends : way.insts = body ++ [last]
  blocks : g.blocks = (f.blocks.set b { home with insts := before ++ after }).set p
    { way with insts := body ++ [i, last] }

theorem permSet {α : Type} (part : Block → List α) {blocks : List Block} {k : Nat} {a b : Block}
    {extra : List α} (located : blocks[k]? = some a) (perm : (part a).Perm (extra ++ part b)) :
    (blocks.flatMap part).Perm (extra ++ (blocks.set k b).flatMap part) := by
  induction blocks generalizing k with
  | nil => cases located
  | cons first rest ih =>
    cases k with
    | zero =>
      cases Option.some.inj located
      rw [List.set_cons_zero, List.flatMap_cons, List.flatMap_cons, ← List.append_assoc]
      exact perm.append_right _
    | succ k =>
      rw [List.set_cons_succ, List.flatMap_cons, List.flatMap_cons]
      exact ((ih located).append_left _).trans (List.perm_append_comm_assoc ..)

theorem pureInfo {op : Opcode} (isPure : op.isPure = true) :
    op.isTerminator = false ∧ op ≠ .prologue := by
  revert isPure
  cases op <;> decide

theorem tailInsert {before after : List Inst} {i j : Inst} (inside : j ∈ (before ++ after).tail) :
    j ∈ (before ++ i :: after).tail := by
  cases before with
  | nil => exact List.mem_of_mem_tail inside
  | cons first rest =>
    exact (List.mem_append.mp inside).elim (List.mem_append_left _)
      fun late => List.mem_append_right _ (List.mem_cons_of_mem _ late)

namespace Moved
variable {f g : Func} {b p : Nat} {home way : Block} {before after body : List Inst} {i last : Inst}
  (m : Moved f g b p home way before after body i last)
include m

theorem getElem (k : Nat) : g.blocks[k]? =
    if k = p then some { way with insts := body ++ [i, last] }
    else if k = b then some { home with insts := before ++ after } else f.blocks[k]? := by
  have inside := (List.getElem?_eq_some_iff.mp m.fromAt).1
  have below := (List.getElem?_eq_some_iff.mp m.toAt).1
  rw [m.blocks, List.getElem?_set, List.getElem?_set, List.length_set]
  by_cases one : p = k
  · simp [one, one ▸ below]
  · by_cases two : b = k
    · simp [one, two, Ne.symm one, two ▸ inside]
    · simp [one, two, Ne.symm one, Ne.symm two]

theorem pairs {a c : Block} (pair : Paired f g a c) : c = a ∨
    (a = home ∧ c = { home with insts := before ++ after }) ∨
    (a = way ∧ c = { way with insts := body ++ [i, last] }) := by
  obtain ⟨k, left, right⟩ := pair
  rw [m.getElem] at right
  split at right
  · rename_i same
    exact .inr (.inr ⟨Option.some.inj (left.symm.trans (same ▸ m.toAt)), (Option.some.inj right).symm⟩)
  · split at right
    · rename_i same
      exact .inr (.inl ⟨Option.some.inj (left.symm.trans (same ▸ m.fromAt)),
        (Option.some.inj right).symm⟩)
    · exact .inl (Option.some.inj (right.symm.trans left))

theorem rewrites : Rewrites f g where
  signature := m.signature
  types := m.types ▸ List.prefix_refl _
  heads := by
    refine List.ext_getElem? fun k => ?_
    rw [List.getElem?_map, List.getElem?_map, m.getElem]
    split
    · rename_i same
      rw [same, m.toAt]
      rfl
    · split
      · rename_i same
        rw [same, m.fromAt]
        rfl
      · rfl

theorem perm {α : Type} (part : Block → List α) (extra : List α)
    (out : (part home).Perm (extra ++ part { home with insts := before ++ after }))
    (into : (part { way with insts := body ++ [i, last] }).Perm (extra ++ part way)) :
    (f.blocks.flatMap part).Perm (g.blocks.flatMap part) := by
  have new : g.blocks[p]? = some { way with insts := body ++ [i, last] } := by
    rw [m.getElem, if_pos rfl]
  have back : g.blocks.set p way = f.blocks.set b { home with insts := before ++ after } := by
    obtain ⟨inside, same⟩ := List.getElem?_eq_some_iff.mp
      ((List.getElem?_set_ne m.apart).trans m.toAt)
    rw [m.blocks, List.set_set, ← same, List.set_getElem_self]
  refine (permSet part m.fromAt out).trans ?_
  rw [← back]
  exact (permSet part new into).symm

theorem definedIds {id : Nat} (own : i.result = some id) : f.definedIds.Perm g.definedIds := by
  refine m.perm Block.definedIds [id] ?_ ?_
  · rw [Block.definedIds, Block.definedIds, m.split, List.filterMap_append, List.filterMap_append,
      List.filterMap_cons_some own, ← List.append_assoc]
    exact List.perm_middle.trans (.of_eq (by simp [Block.paramIds]))
  · rw [Block.definedIds, Block.definedIds, m.ends, List.filterMap_append, List.filterMap_append,
      List.filterMap_cons_some own, ← List.append_assoc]
    exact List.perm_middle.trans (.of_eq (by simp [Block.paramIds]))

theorem insts : f.insts.Perm g.insts := by
  refine m.perm Block.insts [i] ?_ ?_
  · exact m.split ▸ List.perm_middle
  · exact m.ends ▸ List.perm_middle

theorem mem {a c : Block} (pair : Paired f g a c) {j : Inst} (inside : j ∈ c.insts) :
    j ∈ a.insts ∨ j = i := by
  rcases m.pairs pair with rfl | ⟨rfl, rfl⟩ | ⟨rfl, rfl⟩
  · exact .inl inside
  · refine .inl (m.split ▸ ?_)
    exact (List.mem_append.mp inside).elim (List.mem_append_left _)
      fun late => List.mem_append_right _ (List.mem_cons_of_mem _ late)
  · rw [m.ends]
    rcases List.mem_append.mp inside with early | late
    · exact .inl (List.mem_append_left _ early)
    · exact (List.mem_cons.mp late).symm.imp_left (List.mem_append_right _)

theorem inserts {a c : Block} (pair : Paired f g a c) {j : Inst} (inside : j ∈ c.insts) :
    j ∈ f.insts := by
  rcases m.mem pair inside with old | rfl
  · exact Func.memInsts pair.left old
  · exact Func.memInsts (List.mem_of_getElem? m.fromAt)
      (m.split ▸ List.mem_append_right _ List.mem_cons_self)

theorem staysAt {id v : Nat} (own : i.result = some id) (other : v ≠ id) {a c : Block}
    (pair : Paired f g a c) (defines : v ∈ c.definedIds) : v ∈ a.definedIds := by
  have params := m.rewrites.sameParamIds pair
  refine Block.memDefinedIds.mpr ((Block.memDefinedIds.mp defines).imp (params ▸ ·) ?_)
  rintro ⟨j, listed, result⟩
  rcases m.mem pair listed with old | rfl
  · exact ⟨j, old, result⟩
  · exact absurd (Option.some.inj (result.symm.trans own)) other

theorem keepsAt {id v : Nat} (own : i.result = some id) (other : v ≠ id) {a c : Block}
    (pair : Paired f g a c) (defines : v ∈ a.definedIds) : v ∈ c.definedIds := by
  rcases m.pairs pair with rfl | ⟨rfl, rfl⟩ | ⟨rfl, rfl⟩
  · exact defines
  · refine Block.memDefinedIds.mpr ((Block.memDefinedIds.mp defines).imp_right ?_)
    rintro ⟨j, listed, result⟩
    rw [m.split] at listed
    rcases List.mem_append.mp listed with early | late
    · exact ⟨j, List.mem_append_left _ early, result⟩
    · rcases List.mem_cons.mp late with rfl | late
      · exact absurd (Option.some.inj (result.symm.trans own)) other
      · exact ⟨j, List.mem_append_right _ late, result⟩
  · refine Block.memDefinedIds.mpr ((Block.memDefinedIds.mp defines).imp_right ?_)
    rintro ⟨j, listed, result⟩
    rw [m.ends] at listed
    rcases List.mem_append.mp listed with early | final
    · exact ⟨j, List.mem_append_left _ early, result⟩
    · exact ⟨j, List.mem_append_right _ (List.mem_cons_of_mem _ final), result⟩

section Blocks
variable (ok : WellFormed f) (plain : i.isTerminator = false)
include ok plain

theorem endings : (∃ rest final, after = rest ++ [final] ∧ final.isTerminator = true ∧
      ∀ j ∈ before ++ rest, j.isTerminator = false) ∧ last.isTerminator = true ∧
      ∀ j ∈ body ++ [i], j.isTerminator = false := by
  obtain ⟨inner, final, same, ends, calm⟩ := ok.ended home (List.mem_of_getElem? m.fromAt)
  obtain ⟨inner', final', same', ends', calm'⟩ := ok.ended way (List.mem_of_getElem? m.toAt)
  rw [m.split] at same
  rw [m.ends] at same'
  obtain ⟨rfl, single⟩ := List.append_inj' same' rfl
  cases List.singleton_inj.mp single
  refine ⟨?_, ends', fun j inside => ?_⟩
  · rcases List.eq_nil_or_concat after with rfl | ⟨rest, z, rfl⟩
    · obtain ⟨-, single⟩ := List.append_inj' same rfl
      rw [List.singleton_inj.mp single] at plain
      exact nomatch plain.symm.trans ends
    · rw [List.concat_eq_append, ← List.cons_append, ← List.append_assoc] at same
      obtain ⟨rfl, single⟩ := List.append_inj' same rfl
      cases List.singleton_inj.mp single
      refine ⟨rest, _, List.concat_eq_append, ends, fun j inside => calm j ?_⟩
      exact (List.mem_append.mp inside).elim (List.mem_append_left _)
        fun late => List.mem_append_right _ (List.mem_cons_of_mem _ late)
  · rcases List.mem_append.mp inside with early | own
    · exact calm' j early
    · rw [List.mem_singleton.mp own, plain]

theorem ended {a c : Block} (pair : Paired f g a c) : Ended c.insts ∧ c.targets = a.targets := by
  obtain ⟨⟨rest, final, same, ends, calm⟩, ends', calm'⟩ := m.endings ok plain
  rcases m.pairs pair with rfl | ⟨rfl, rfl⟩ | ⟨rfl, rfl⟩
  · exact ⟨ok.ended c pair.left, rfl⟩
  · have whole : before ++ after = (before ++ rest) ++ [final] := by rw [same, List.append_assoc]
    have old : a.insts = (before ++ i :: rest) ++ [final] := by rw [m.split, same, List.append_assoc]; rfl
    exact ⟨⟨_, _, whole, ends, calm⟩, (Ended.targets whole ends).trans (Ended.targets old ends).symm⟩
  · have whole : body ++ [i, last] = (body ++ [i]) ++ [last] := by rw [List.append_assoc]; rfl
    exact ⟨⟨_, _, whole, ends', calm'⟩,
      (Ended.targets whole ends').trans (Ended.targets m.ends ends').symm⟩

theorem opening (other : i.op ≠ .prologue) {a c : Block} (pair : Paired f g a c) {j : Inst}
    (listed : j ∈ c.insts.tail) (opens : j.op = .prologue) : ∃ k ∈ a.insts.tail, k.op = .prologue := by
  rcases m.pairs pair with rfl | ⟨rfl, rfl⟩ | ⟨rfl, rfl⟩
  · exact ⟨j, listed, opens⟩
  · exact ⟨j, m.split ▸ tailInsert listed, opens⟩
  · have new (late : j ∈ [i, last]) : False := by
      rcases List.mem_cons.mp late with rfl | same
      · exact other opens
      · have ends := (m.endings ok plain).2.1
        rw [← List.mem_singleton.mp same, Inst.isTerminator, opens] at ends
        cases ends
    rw [m.ends]
    cases body with
    | nil => exact (new (List.mem_of_mem_tail listed)).elim
    | cons first rest =>
      rcases List.mem_append.mp listed with early | late
      · exact ⟨j, List.mem_append_left _ early, opens⟩
      · exact (new late).elim

end Blocks

theorem rewriting (clean : Clean f) {id : Nat} (own : i.result = some id) (isPure : i.op.isPure = true) :
    Rewriting f g := by
  have ok := clean.wellFormed
  obtain ⟨plain, other⟩ := pureInfo isPure
  have perm := m.definedIds own
  refine { m.rewrites with once := perm.nodup_iff.mp ok.once, blocks := fun a c pair => ?_ }
  have was {j : Inst} (listed : j ∈ c.insts) := clean.inst (m.inserts pair listed)
  obtain ⟨ended, targets⟩ := m.ended ok plain pair
  constructor
  case ended => exact ended
  case targets => exact fun l target => targets ▸ target
  case opening => exact fun j listed opens => m.opening ok plain other pair listed opens
  case others =>
    intro j listed opens
    rcases m.mem pair listed with old | rfl
    · exact ⟨j, old, opens⟩
    · exact absurd opens other
  case declared =>
    rw [m.types]
    exact fun j listed => (was listed).2.2
  case sound =>
    intro j listed
    have sound := (was listed).1
    exact ⟨m.rewrites.toExtends.fitSelf ok sound, fun v used => perm.mem_iff.mp (sound.defined v used)⟩

section Loop
variable (clean : Clean f) {l : Loop} (entered : l.EnteredFrom (FlowGraph.ofFunc f) p)
  (inside : b ∈ l.blocks)
include clean entered inside

theorem noPath (pass : Flows f (· ≠ way) home.label) : False := by
  refine entered.passes inside (FlowGraph.reachedOfFlows clean.wellFormed.labels
    (fun k bb located other held => other ?_) pass m.fromAt rfl
    (fun held => entered.outside (List.mem_singleton.mp held ▸ inside)))
  rw [List.mem_singleton.mp held] at located
  exact Option.some.inj (located.symm.trans m.toAt)

variable {id : Nat} (own : i.result = some id) (plain : i.isTerminator = false)

omit entered inside in
include own plain in
theorem missed {label : String} (missing : Missing g id label) : Flows f (· ≠ way) label := by
  refine m.rewrites.flows (fun a c pair absent => ⟨?_, ?_⟩) missing
  · rintro rfl
    obtain ⟨k, left, right⟩ := pair
    have index := Func.indexUnique clean.wellFormed.labels left m.toAt rfl
    rw [index, m.getElem, if_pos rfl] at right
    cases right
    exact absent (Block.memDefinedIds.mpr (.inr ⟨i, List.mem_append_right _ List.mem_cons_self, own⟩))
  · rw [(m.ended clean.wellFormed plain pair).2]
    exact fun _ target => target

include own plain

theorem resultAtHome : ¬ Missing g id home.label := fun missing =>
  m.noPath clean entered inside (m.missed clean own plain missing)

theorem resultKnown {label : String} (known : ¬ Missing f id label) : ¬ Missing g id label := by
  intro missing
  have origin := List.mem_of_getElem? m.fromAt
  have only : ∀ bb ∈ f.blocks, id ∈ bb.definedIds → bb = home := fun bb other defines =>
    Func.oneHome clean.wellFormed.once other origin defines
      (Block.memDefinedIds.mpr (.inr ⟨i, m.split ▸ List.mem_append_right _ List.mem_cons_self, own⟩))
  -- where the result was known every path had passed its old block, and so the way in
  rcases FlowGraph.firstAtDefinition only (m.missed clean own plain missing) with around | ⟨arrives, -⟩
  · exact known (around.mono fun _ both => both.2)
  · exact m.noPath clean entered inside (arrives.mono fun _ both => both.1)

omit own plain in
theorem operandKnown {u k : Nat} {bb : Block} (located : f.blocks[k]? = some bb) (outside : k ∉ l.blocks)
    (defines : u ∈ bb.definedIds) (known : ¬ Missing f u home.label) :
    ¬ Missing f u way.label ∨ u ∈ way.definedIds := by
  have only : ∀ j a, f.blocks[j]? = some a → (u ∈ a.definedIds ↔ j = k) := fun j a there =>
    ⟨fun also => Func.definedInOneBlock clean.wellFormed.once there located also defines, fun same => by
      subst same
      exact Option.some.inj (there.symm.trans located) ▸ defines⟩
  have labels := clean.wellFormed.labels
  by_cases same : p = k
  · exact .inr ((only p way m.toAt).mpr same)
  · refine .inl fun missing => known ?_
    have other : b ≠ k := fun same => outside (same ▸ inside)
    rw [← FlowGraph.missingIff labels m.fromAt other only]
    exact entered.around outside inside ((FlowGraph.missingIff labels m.toAt same only).mpr missing)

theorem stillKnown (w : Rewriting f g) {a c : Block} (pair : Paired f g a c) {v : Nat}
    (old : v ∈ f.definedIds) (known : KnownAt f a v) : KnownAt g c v := by
  by_cases same : v = id
  · subst same
    rw [KnownAt, w.sameParamIds pair, (w.sameHead pair).1]
    exact known.imp_left (m.resultKnown clean entered inside own plain)
  · have there := (m.definedIds own).mem_iff.mp old
    exact w.knownAt clean.wellFormed (fun a' c' => m.staysAt own same) pair there known

omit own plain in
theorem operandThere {u k : Nat} {bb : Block} (located : f.blocks[k]? = some bb) (outside : k ∉ l.blocks)
    (defines : u ∈ bb.definedIds) (used : u ∈ i.usedTemps) (ends : last.isTerminator = true) :
    KnownAt f way u ∨ ∃ j ∈ body, j.result = some u := by
  have ok := clean.wellFormed
  have apart (also : u ∈ home.definedIds) : False := by
    cases Func.definedInOneBlock ok.once m.fromAt located also defines
    exact outside inside
  have read : ¬ Missing f u home.label := by
    have arrives := (FlowGraph.reachesIff ok.labels m.fromAt).mp (entered.reached b inside)
    have available := ok.available home (List.mem_of_getElem? m.fromAt) arrives
    rw [m.split] at available
    rcases available.split used with (held | param) | ⟨j, early, result⟩
    · exact held
    · exact (apart (Block.memDefinedIds.mpr (.inl param))).elim
    · refine (apart (Block.memDefinedIds.mpr (.inr ⟨j, ?_, result⟩))).elim
      exact m.split ▸ List.mem_append_left _ early
  rcases m.operandKnown clean entered inside located outside defines read with held | here
  · exact .inl (.inl held)
  · rcases Block.memDefinedIds.mp here with param | ⟨j, listed, result⟩
    · exact .inl (.inr param)
    · rw [m.ends] at listed
      rcases List.mem_append.mp listed with early | same
      · exact .inr ⟨j, early, result⟩
      · have sound := ok.sound way (List.mem_of_getElem? m.toAt) last
          (m.ends ▸ List.mem_append_right _ List.mem_cons_self)
        rw [List.mem_singleton.mp same, resultOfTerminator sound.shape ends] at result
        cases result

end Loop

theorem clean (clean : Clean f) {id : Nat} (own : i.result = some id) (isPure : i.op.isPure = true)
    {l : Loop} (entered : l.EnteredFrom (FlowGraph.ofFunc f) p) (inside : b ∈ l.blocks)
    (operands : ∀ u ∈ i.usedTemps, ∃ (k : Nat) (bb : Block), f.blocks[k]? = some bb ∧
      k ∉ l.blocks ∧ u ∈ bb.definedIds) : Clean g := by
  have ok := clean.wellFormed
  obtain ⟨plain, -⟩ := pureInfo isPure
  have w := m.rewriting clean own isPure
  refine ⟨w.wellFormed ok fun a c pair reaches => ?_, fun c inside j listed => ?_⟩
  rotate_left
  · obtain ⟨a, -, pair⟩ := w.pairOf inside
    exact (clean.inst (m.inserts pair listed)).2.1
  have still {v : Nat} (old : v ∈ f.definedIds) (known : KnownAt f a v) : KnownAt g c v :=
    m.stillKnown clean entered inside own plain w pair old known
  have known : Available (KnownAt g c) a.insts :=
    (ok.available a pair.left reaches).monoOn fun j listed v used =>
      still ((ok.sound a pair.left j listed).defined v used)
  rcases m.pairs pair with rfl | ⟨rfl, rfl⟩ | ⟨rfl, rfl⟩
  · exact known
  · rw [m.split, Available.append] at known
    refine Available.append.mpr ⟨known.1, known.2.2.mono fun v held => ?_⟩
    rcases held with held | same
    · exact held
    · cases own.symm.trans same
      exact .inl (.inl (m.resultAtHome clean entered inside own plain))
  · rw [m.ends, Available.append] at known
    refine Available.append.mpr ⟨known.1, fun u used => ?_, fun u used => ?_, trivial⟩
    · obtain ⟨k, bb, located, outside, defines⟩ := operands u used
      have old : u ∈ f.definedIds := Func.memDefinedIds.mpr ⟨bb, List.mem_of_getElem? located, defines⟩
      exact (m.operandThere clean entered inside located outside defines used (m.endings ok plain).2.1).imp_left
        (still old)
    · exact .inl (known.2.1 u used)

end Moved
end SsaCodegen
