import SsaCodegen.Proofs.Flow.Cache
/-! Expansion of single instructions. New instructions, which define new values, come in front
of one that takes the place of the old. All that was known before the old instruction is
known before the new ones, so the function stays well-formed. -/
namespace SsaCodegen

structure Expansion (g : Func) (n : Nat) (i : Inst) (js : List Inst) (m : Nat) : Prop where
  le : n ≤ m
  shape : ∃ front last, js = front ++ [last] ∧
    (∀ j ∈ front, j.isTerminator = false ∧ j.op ≠ .prologue) ∧
    last.isTerminator = i.isTerminator ∧ last.targets = i.targets ∧
    (last.op = .prologue → front = [] ∧ i.op = .prologue)
  results : (js.filterMap Inst.result).Perm (i.result.toList ++ List.range' n (m - n))
  available : Available (· ∈ i.usedTemps) js
  fits : ∀ j ∈ js, FitInst g j
  tidy : i.Tidy → ∀ j ∈ js, j.Tidy
  declared : ∀ j ∈ js, ∀ id, j.result = some id → g.valueTypes[id]? = some j.ty

inductive Expanded (g : Func) : Nat → List Inst → List Inst → Nat → Prop where
  | nil {n} : Expanded g n [] [] n
  | cons {n m last i js rest later} (now : Expansion g n i js m)
      (tail : Expanded g m rest later last) : Expanded g n (i :: rest) (js ++ later) last

inductive ExpandedBlocks (g : Func) : Nat → List Block → List Block → Nat → Prop where
  | nil {n} : ExpandedBlocks g n [] [] n
  | cons {n m last a insts rest later} (now : Expanded g n a.insts insts m)
      (tail : ExpandedBlocks g m rest later last) :
      ExpandedBlocks g n (a :: rest) ({ a with insts := insts } :: later) last

theorem Expansion.keep {f g : Func} (ok : WellFormed f) (r : Rewrites f g) {i : Inst}
    (inside : i ∈ f.insts) (n : Nat) : Expansion g n i [i] n := by
  obtain ⟨sound, declared⟩ := ok.inst inside
  refine ⟨Nat.le_refl n, ⟨[], i, rfl, fun j absent => absurd absent List.not_mem_nil, rfl, rfl,
    fun opens => ⟨rfl, opens⟩⟩, ?_, ⟨fun id used => used, trivial⟩, fun j listed => ?_,
    fun tidy j listed => ?_, fun j listed => ?_⟩
  · cases result : i.result <;> simp [result]
  all_goals cases List.mem_singleton.mp listed
  · exact r.toExtends.fitSelf ok sound
  · exact tidy
  · exact fun id result => r.toExtends.typeAt (declared id result)

theorem permRanges {a b as bs : List Nat} {n m k : Nat} (below : n ≤ m) (above : m ≤ k)
    (first : a.Perm (as ++ List.range' n (m - n))) (second : b.Perm (bs ++ List.range' m (k - m))) :
    (a ++ b).Perm ((as ++ bs) ++ List.range' n (k - n)) := by
  have joined : List.range' n (k - n) = List.range' n (m - n) ++ List.range' m (k - m) := by
    have whole : k - n = (m - n) + (k - m) := by omega
    rw [whole, ← List.range'_append_1, Nat.add_sub_cancel' below]
  rw [joined]
  refine (first.append second).trans ?_
  rw [List.append_assoc, List.append_assoc]
  refine .append_left as ?_
  rw [← List.append_assoc, ← List.append_assoc]
  exact .append_right _ List.perm_append_comm

namespace Expanded
variable {g : Func} {n m : Nat} {is js : List Inst}

theorem le (e : Expanded g n is js m) : n ≤ m := by
  induction e with
  | nil => exact Nat.le_refl _
  | cons now tail ih => exact Nat.le_trans now.le ih

theorem results (e : Expanded g n is js m) :
    (js.filterMap Inst.result).Perm (is.filterMap Inst.result ++ List.range' n (m - n)) := by
  induction e with
  | nil => simp
  | @cons n m last i js rest later now tail ih =>
    have split : (i :: rest).filterMap Inst.result =
        i.result.toList ++ rest.filterMap Inst.result := by
      cases result : i.result <;> simp [result]
    rw [List.filterMap_append, split]
    exact permRanges now.le tail.le now.results ih

theorem mem (e : Expanded g n is js m) {j : Inst} (inside : j ∈ js) :
    ∃ i ∈ is, ∃ n m part, Expansion g n i part m ∧ j ∈ part ∧ ∀ k ∈ part, k ∈ js := by
  induction e with
  | nil => cases inside
  | @cons n m last i js rest later now tail ih =>
    rcases List.mem_append.mp inside with here | there
    · exact ⟨i, List.mem_cons_self, n, m, js, now, here, fun k => List.mem_append_left _⟩
    · obtain ⟨i, listed, n, m, part, expansion, here, all⟩ := ih there
      exact ⟨i, List.mem_cons_of_mem _ listed, n, m, part, expansion, here,
        fun k within => List.mem_append_right _ (all k within)⟩

theorem available (e : Expanded g n is js m) {known : Nat → Prop} (ok : Available known is) :
    Available known js := by
  induction e generalizing known with
  | nil => trivial
  | @cons n m last i js rest later now tail ih =>
    refine Available.append.mpr ⟨now.available.mono ok.1, (ih ok.2).mono fun v held => ?_⟩
    refine held.imp_right fun result => ?_
    have listed : v ∈ js.filterMap Inst.result :=
      now.results.mem_iff.mpr (List.mem_append_left _ (by simp [result]))
    exact List.mem_filterMap.mp listed

theorem ended (e : Expanded g n is js m) {body : List Inst} {last : Inst} (same : is = body ++ [last])
    (ends : last.isTerminator = true) (inner : ∀ i ∈ body, i.isTerminator = false) :
    ∃ body' last', js = body' ++ [last'] ∧ last'.isTerminator = true ∧
      (∀ j ∈ body', j.isTerminator = false) ∧ last'.targets = last.targets := by
  induction e generalizing body with
  | nil => simp at same
  | @cons n m k i js rest later now tail ih =>
    obtain ⟨front, last₁, rfl, plain, terminator, targets, -⟩ := now.shape
    cases body with
    | nil =>
      simp only [List.nil_append, List.cons.injEq] at same
      obtain ⟨rfl, rfl⟩ := same
      cases tail
      refine ⟨front, last₁, by simp, terminator.trans ends, fun j inside => (plain j inside).1, targets⟩
    | cons b body =>
      simp only [List.cons_append, List.cons.injEq] at same
      obtain ⟨rfl, rfl⟩ := same
      obtain ⟨body', last', rfl, final, quiet, leads⟩ :=
        ih rfl fun i inside => inner i (List.mem_cons_of_mem _ inside)
      refine ⟨front ++ [last₁] ++ body', last', by simp, final, fun j inside => ?_, leads⟩
      rcases List.mem_append.mp inside with here | there
      · rcases List.mem_append.mp here with new | old
        · exact (plain j new).1
        · rw [List.mem_singleton.mp old, terminator]
          exact inner i List.mem_cons_self
      · exact quiet j there

theorem others (e : Expanded g n is js m) {j : Inst} (inside : j ∈ js) (opens : j.op = .prologue) :
    ∃ i ∈ is, i.op = .prologue := by
  obtain ⟨i, listed, _, _, part, expansion, here, -⟩ := e.mem inside
  obtain ⟨front, last, rfl, plain, -, -, same⟩ := expansion.shape
  rcases List.mem_append.mp here with new | old
  · exact absurd opens (plain j new).2
  · rw [List.mem_singleton.mp old] at opens
    exact ⟨i, listed, (same opens).2⟩

theorem opening (e : Expanded g n is js m) {j : Inst} (inside : j ∈ js.tail)
    (opens : j.op = .prologue) : ∃ i ∈ is.tail, i.op = .prologue := by
  cases e with
  | nil => cases inside
  | @cons _ m _ i js rest later now tail =>
    obtain ⟨front, last, rfl, plain, -, -, same⟩ := now.shape
    cases front with
    | nil => exact tail.others inside opens
    | cons b front =>
      have listed : j ∈ front ++ [last] ++ later := inside
      rcases List.mem_append.mp listed with here | there
      · rcases List.mem_append.mp here with new | old
        · exact absurd opens (plain j (List.mem_cons_of_mem _ new)).2
        · rw [List.mem_singleton.mp old] at opens
          cases (same opens).1
      · exact tail.others there opens

end Expanded

namespace ExpandedBlocks
variable {g : Func} {n m : Nat} {as bs : List Block}

theorem le (e : ExpandedBlocks g n as bs m) : n ≤ m := by
  induction e with
  | nil => exact Nat.le_refl _
  | cons now tail ih => exact Nat.le_trans now.le ih

theorem heads (e : ExpandedBlocks g n as bs m) : bs.map Block.head = as.map Block.head := by
  induction e with
  | nil => rfl
  | cons now tail ih => exact congrArg (_ :: ·) ih

theorem blockAt (e : ExpandedBlocks g n as bs m) {k : Nat} {a b : Block} (left : as[k]? = some a)
    (right : bs[k]? = some b) : ∃ l r, n ≤ l ∧ b = { a with insts := b.insts } ∧
      Expanded g l a.insts b.insts r := by
  induction e generalizing k with
  | nil => cases left
  | @cons n m last a' insts rest later now tail ih =>
    cases k with
    | zero =>
      cases Option.some.inj left
      cases Option.some.inj right
      exact ⟨n, m, Nat.le_refl n, rfl, now⟩
    | succ k =>
      obtain ⟨l, r, above, same, expanded⟩ := ih left right
      exact ⟨l, r, Nat.le_trans now.le above, same, expanded⟩

theorem edges (e : ExpandedBlocks g n as bs m) (ended : ∀ a ∈ as, Ended a.insts) :
    bs.map Block.edges = as.map Block.edges := by
  induction e with
  | nil => rfl
  | @cons n m last a insts rest later now tail ih =>
    obtain ⟨body, final, same, ends, inner⟩ := ended a List.mem_cons_self
    obtain ⟨body', final', new, ends', -, targets⟩ := now.ended same ends inner
    have leads : Block.targets { a with insts := insts } = final'.targets := Ended.targets new ends'
    rw [List.map_cons, List.map_cons, Block.edges, leads, targets, ← Ended.targets same ends,
      ih fun b later => ended b (List.mem_cons_of_mem _ later)]
    rfl

theorem definedIds (e : ExpandedBlocks g n as bs m) :
    (bs.flatMap Block.definedIds).Perm (as.flatMap Block.definedIds ++ List.range' n (m - n)) := by
  induction e with
  | nil => simp
  | @cons n m last a insts rest later now tail ih =>
    rw [List.flatMap_cons, List.flatMap_cons]
    refine permRanges now.le tail.le ?_ ih
    rw [Block.definedIds, Block.definedIds, List.append_assoc]
    exact .append_left _ now.results

end ExpandedBlocks

section
variable {f g : Func} {last : Nat} (ok : WellFormed f)
  (e : ExpandedBlocks g f.numValues f.blocks g.blocks last)
include ok e

theorem expandedBlock {a b : Block} (pair : Paired f g a b) : BlockRewrites g a b := by
  have here := pair.right
  have there := pair.left
  obtain ⟨k, left, right⟩ := pair
  obtain ⟨l, m, above, same, expanded⟩ := e.blockAt left right
  obtain ⟨body, final, shape, ends, inner⟩ := ok.ended a there
  obtain ⟨body', final', shape', ends', inner', targets⟩ := expanded.ended shape ends inner
  constructor
  case ended => exact ⟨body', final', shape', ends', inner'⟩
  case targets =>
    intro label inside
    rwa [Ended.targets shape' ends', targets, ← Ended.targets shape ends] at inside
  case opening => exact fun j => expanded.opening
  case others => exact fun j => expanded.others
  case declared =>
    intro j inside
    obtain ⟨i, -, _, _, part, expansion, listed, -⟩ := expanded.mem inside
    exact expansion.declared j listed
  case sound =>
    intro j inside
    obtain ⟨i, old, _, _, part, expansion, listed, all⟩ := expanded.mem inside
    refine ⟨expansion.fits j listed, fun id used => ?_⟩
    obtain ⟨before, after, split⟩ := List.append_of_mem listed
    have available := expansion.available
    rw [split] at available
    rcases available.split used with read | ⟨i', earlier, result⟩
    · exact e.definedIds.mem_iff.mpr
        (List.mem_append_left _ ((ok.sound a there i old).defined id read))
    · have within : i' ∈ b.insts := all i' (split ▸ List.mem_append_left _ earlier)
      exact Func.memDefinedIds.mpr ⟨b, here, Block.memDefinedIds.mpr (.inr ⟨i', within, result⟩)⟩

theorem expandedKeeps {v : Nat} (old : v ∈ f.definedIds) {a b : Block} (pair : Paired f g a b)
    (defines : v ∈ b.definedIds) : v ∈ a.definedIds := by
  obtain ⟨k, left, right⟩ := pair
  obtain ⟨l, m, above, same, expanded⟩ := e.blockAt left right
  rw [Block.definedIds, same, List.mem_append] at defines
  rcases defines with param | result
  · exact List.mem_append_left _ param
  · rcases List.mem_append.mp (expanded.results.mem_iff.mp result) with was | new
    · exact List.mem_append_right _ was
    · have below := ok.idBelow old
      have beyond := (List.mem_range'_1.mp new).1
      omega

end

theorem WellFormed.expand {f g : Func} {last : Nat} (ok : WellFormed f)
    (signature : g.signature = f.signature) (types : f.valueTypes <+: g.valueTypes)
    (e : ExpandedBlocks g f.numValues f.blocks g.blocks last) : WellFormed g := by
  have r : Rewrites f g := ⟨signature, types, e.heads⟩
  have perm : g.definedIds.Perm (f.definedIds ++ List.range' f.numValues (last - f.numValues)) :=
    e.definedIds
  have w : Rewriting f g := { r with
    once := by
      refine perm.nodup_iff.mpr (List.nodup_append.mpr ⟨ok.once, List.nodup_range', ?_⟩)
      intro v old w new same
      have below := ok.idBelow old
      have above := (List.mem_range'_1.mp new).1
      omega
    blocks := fun _ _ => expandedBlock ok e }
  refine w.wellFormed ok fun a b pair reaches => ?_
  have known : Available (KnownAt g b) a.insts :=
    (ok.available a pair.left reaches).monoOn fun i inside v used known => by
      have old := (ok.sound a pair.left i inside).defined v used
      exact w.knownAt ok (fun _ _ => expandedKeeps ok e old) pair
        (perm.mem_iff.mpr (List.mem_append_left _ old)) known
  obtain ⟨k, left, right⟩ := pair
  obtain ⟨l, m, above, same, expanded⟩ := e.blockAt left right
  exact expanded.available known

theorem Clean.expand {f g : Func} {last : Nat} (clean : Clean f) (signature : g.signature = f.signature)
    (types : f.valueTypes <+: g.valueTypes)
    (e : ExpandedBlocks g f.numValues f.blocks g.blocks last) : Clean g := by
  have r : Rewrites f g := ⟨signature, types, e.heads⟩
  refine ⟨clean.wellFormed.expand signature types e, fun b inside j listed => ?_⟩
  obtain ⟨a, there, k, left, right⟩ := r.pairOf inside
  obtain ⟨l, m, above, same, expanded⟩ := e.blockAt left right
  obtain ⟨i, old, _, _, part, expansion, within, -⟩ := expanded.mem listed
  exact expansion.tidy (clean.tidy a there i old) j within

end SsaCodegen
