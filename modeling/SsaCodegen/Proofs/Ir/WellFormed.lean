import SsaCodegen.Verify.Structure
/-! Well-formed functions. Blocks are known by their labels, and a use is in order when no
path from the entry arrives there without passing a definition. Nothing is said of the
order of blocks but that the entry is the first, so a transformation that inserts, moves
or drops blocks has only to account for the edges it changes. -/
namespace SsaCodegen
open Structure (typeOf typeMessages shapeMessages)

namespace Block

def targets (bb : Block) : List String :=
  match bb.terminator? with
  | some t => t.targets
  | none => []

def definedIds (bb : Block) : List Nat := bb.paramIds ++ bb.insts.filterMap Inst.result

theorem memDefinedIds {bb : Block} {v : Nat} :
    v ∈ bb.definedIds ↔ v ∈ bb.paramIds ∨ ∃ inst ∈ bb.insts, inst.result = some v := by
  simp [definedIds]

end Block

def Func.definedIds (f : Func) : List Nat := f.blocks.flatMap Block.definedIds

theorem Func.memDefinedIds {f : Func} {v : Nat} :
    v ∈ f.definedIds ↔ ∃ bb ∈ f.blocks, v ∈ bb.definedIds := by
  simp [Func.definedIds]

section Once
variable {f : Func} (once : f.definedIds.Nodup)
include once

theorem Func.definedInOneBlock {i j v : Nat} {a b : Block} (left : f.blocks[i]? = some a)
    (right : f.blocks[j]? = some b) (ina : v ∈ a.definedIds) (inb : v ∈ b.definedIds) : i = j := by
  obtain ⟨-, apart⟩ := List.pairwise_flatMap.mp once
  obtain ⟨below, rfl⟩ := List.getElem?_eq_some_iff.mp left
  obtain ⟨above, rfl⟩ := List.getElem?_eq_some_iff.mp right
  rw [List.pairwise_iff_getElem] at apart
  rcases Nat.lt_trichotomy i j with before | same | after
  · exact absurd rfl (apart i j below above before v ina v inb)
  · exact same
  · exact absurd rfl (apart j i above below after v inb v ina)

theorem Func.oneHome {v : Nat} {a b : Block} (left : a ∈ f.blocks) (right : b ∈ f.blocks)
    (ina : v ∈ a.definedIds) (inb : v ∈ b.definedIds) : a = b := by
  obtain ⟨i, there⟩ := List.getElem?_of_mem left
  obtain ⟨j, located⟩ := List.getElem?_of_mem right
  cases definedInOneBlock once there located ina inb
  exact Option.some.inj (there.symm.trans located)

theorem Func.definedOnceIn {bb : Block} (inside : bb ∈ f.blocks) : bb.definedIds.Nodup :=
  (List.pairwise_flatMap.mp once).1 bb inside

end Once

namespace Block
variable {bb : Block} (once : bb.definedIds.Nodup)
include once

theorem paramNotResult {v : Nat} (param : v ∈ bb.paramIds) {inst : Inst} (inside : inst ∈ bb.insts) :
    inst.result ≠ some v := fun defines =>
  (List.nodup_append.mp once).2.2 v param v (List.mem_filterMap.mpr ⟨inst, inside, defines⟩) rfl

theorem resultIndex {i j v : Nat} {a b : Inst} (left : bb.insts[i]? = some a)
    (right : bb.insts[j]? = some b) (ina : a.result = some v) (inb : b.result = some v) : i = j := by
  have results := List.pairwise_filterMap.mp (List.nodup_append.mp once).2.1
  obtain ⟨below, rfl⟩ := List.getElem?_eq_some_iff.mp left
  obtain ⟨above, rfl⟩ := List.getElem?_eq_some_iff.mp right
  rw [List.pairwise_iff_getElem] at results
  rcases Nat.lt_trichotomy i j with before | same | after
  · exact absurd rfl (results i j below above before v ina v inb)
  · exact same
  · exact absurd rfl (results j i above below after v inb v ina)

end Block

namespace Func
variable {f : Func} (once : f.definedIds.Nodup)
include once

theorem oneDefinition {v : Nat} {i j : Inst} (left : i ∈ f.insts) (right : j ∈ f.insts)
    (defines : i.result = some v) (also : j.result = some v) : i = j := by
  obtain ⟨a, inside, left⟩ := List.mem_flatMap.mp left
  obtain ⟨b, there, right⟩ := List.mem_flatMap.mp right
  cases oneHome once inside there (Block.memDefinedIds.mpr (.inr ⟨i, left, defines⟩))
    (Block.memDefinedIds.mpr (.inr ⟨j, right, also⟩))
  obtain ⟨k, atI⟩ := List.getElem?_of_mem left
  obtain ⟨l, atJ⟩ := List.getElem?_of_mem right
  cases Block.resultIndex (definedOnceIn once inside) atI atJ defines also
  exact Option.some.inj (atI.symm.trans atJ)

theorem resultNotParam {v : Nat} {inst : Inst} (inside : inst ∈ f.insts) (defines : inst.result = some v)
    {bb : Block} (home : bb ∈ f.blocks) : v ∉ bb.paramIds := by
  intro param
  obtain ⟨a, there, listed⟩ := List.mem_flatMap.mp inside
  cases oneHome once there home (Block.memDefinedIds.mpr (.inr ⟨inst, listed, defines⟩))
    (Block.memDefinedIds.mpr (.inl param))
  exact Block.paramNotResult (definedOnceIn once there) param listed defines

end Func

inductive Flows (f : Func) (lets : Block → Prop) : String → Prop where
  | entry {entry rest} (first : f.blocks = entry :: rest) : Flows f lets entry.label
  | edge {bb label} (inside : bb ∈ f.blocks) (before : Flows f lets bb.label) (pass : lets bb)
      (target : label ∈ bb.targets) : Flows f lets label

abbrev Reaches (f : Func) : String → Prop := Flows f fun _ => True

abbrev Missing (f : Func) (v : Nat) : String → Prop := Flows f fun bb => v ∉ bb.definedIds

theorem Flows.mono {f : Func} {lets pass : Block → Prop} {label : String}
    (flows : Flows f lets label) (le : ∀ b, lets b → pass b) : Flows f pass label := by
  induction flows with
  | entry first => exact .entry first
  | edge inside before through target ih => exact .edge inside ih (le _ through) target

theorem Flows.reaches {f : Func} {lets : Block → Prop} {label : String}
    (flows : Flows f lets label) : Reaches f label := flows.mono fun _ _ => trivial

def Available (known : Nat → Prop) : List Inst → Prop
  | [] => True
  | inst :: rest =>
    (∀ id ∈ inst.usedTemps, known id) ∧ Available (fun v => known v ∨ inst.result = some v) rest

namespace Available

theorem mono {known more : Nat → Prop} {insts : List Inst} (ok : Available known insts)
    (le : ∀ v, known v → more v) : Available more insts := by
  induction insts generalizing known more with
  | nil => trivial
  | cons inst rest ih =>
    exact ⟨fun id used => le id (ok.1 id used), ih ok.2 fun v h => h.imp (le v) id⟩

theorem monoOn {known more : Nat → Prop} {insts : List Inst} (ok : Available known insts)
    (le : ∀ inst ∈ insts, ∀ v ∈ inst.usedTemps, known v → more v) : Available more insts := by
  induction insts generalizing known more with
  | nil => trivial
  | cons inst rest ih =>
    exact ⟨fun id used => le inst List.mem_cons_self id used (ok.1 id used),
      ih ok.2 fun i later v used h => h.imp_left (le i (List.mem_cons_of_mem _ later) v used)⟩

theorem append {known : Nat → Prop} {before after : List Inst} :
    Available known (before ++ after) ↔ Available known before ∧
      Available (fun v => known v ∨ ∃ inst ∈ before, inst.result = some v) after := by
  induction before generalizing known with
  | nil => simp [Available]
  | cons inst rest ih =>
    have same : (fun v => (known v ∨ inst.result = some v) ∨ ∃ i ∈ rest, i.result = some v) =
        fun v => known v ∨ ∃ i ∈ inst :: rest, i.result = some v := by
      funext v
      simp [or_assoc]
    rw [List.cons_append, Available, ih, same, Available, and_assoc]

theorem split {known : Nat → Prop} {before after : List Inst} {inst : Inst}
    (ok : Available known (before ++ inst :: after)) {id : Nat} (used : id ∈ inst.usedTemps) :
    known id ∨ ∃ i ∈ before, i.result = some id := (append.mp ok).2.1 id used

theorem ofSplits {known : Nat → Prop} {insts : List Inst}
    (ok : ∀ before inst after, insts = before ++ inst :: after → ∀ id ∈ inst.usedTemps,
      known id ∨ ∃ i ∈ before, i.result = some id) : Available known insts := by
  induction insts generalizing known with
  | nil => trivial
  | cons inst rest ih =>
    refine ⟨fun id used => ?_, ih fun before i after same id used => ?_⟩
    · simpa using ok [] inst rest rfl id used
    · have h := ok (inst :: before) i after (by rw [same]; rfl) id used
      simpa [or_assoc] using h

theorem ofUnused {known : Nat → Prop} {insts : List Inst}
    (empty : ∀ inst ∈ insts, inst.usedTemps = []) : Available known insts :=
  ofSplits fun before inst after same id used => by
    rw [empty inst (same ▸ List.mem_append_right _ List.mem_cons_self)] at used
    cases used

theorem iffAt {known : Nat → Prop} {insts : List Inst} : Available known insts ↔
    ∀ i inst, insts[i]? = some inst → ∀ id ∈ inst.usedTemps,
      known id ∨ ∃ j ∈ insts.take i, j.result = some id := by
  constructor
  · intro ok i inst there id used
    obtain ⟨below, rfl⟩ := List.getElem?_eq_some_iff.mp there
    have whole : insts = insts.take i ++ insts[i] :: insts.drop (i + 1) := by
      rw [← List.drop_eq_getElem_cons below, List.take_append_drop]
    rw [whole] at ok
    exact ok.split used
  · intro ok
    refine ofSplits fun before inst after same id used => ?_
    have there : insts[before.length]? = some inst := by simp [same]
    have known := ok before.length inst there id used
    rwa [same, List.take_left] at known

end Available

def Ended (insts : List Inst) : Prop :=
  ∃ body last, insts = body ++ [last] ∧ last.isTerminator = true ∧
    ∀ inst ∈ body, inst.isTerminator = false

theorem terminatorLast {insts before after : List Inst} {inst : Inst} (ended : Ended insts)
    (split : insts = before ++ inst :: after) (ends : inst.isTerminator = true) : after = [] := by
  obtain ⟨body, last, same, -, others⟩ := ended
  rcases List.eq_nil_or_concat after with absent | ⟨init, final, rfl⟩
  · exact absent
  · have parts : body ++ [last] = (before ++ inst :: init) ++ [final] := by
      rw [← same, split, List.append_assoc, List.cons_append, List.concat_eq_append]
    obtain ⟨rfl, -⟩ := List.append_inj' parts rfl
    have apart := others inst (List.mem_append_right _ List.mem_cons_self)
    exact absurd (apart.symm.trans ends) Bool.false_ne_true

theorem resultOfTerminator {inst : Inst} (shape : shapeMessages inst = [])
    (ends : inst.isTerminator = true) : inst.result = none := by
  have arity : inst.op.info.result = .none := by
    have all : ∀ op : Opcode, op.isTerminator = true → op.info.result = .none := by
      intro op
      cases op <;> decide
    exact all inst.op ends
  simp only [shapeMessages, arity, List.append_eq_nil_iff] at shape
  cases result : inst.result with
  | none => rfl
  | some id => simp [result] at shape

def EdgeFits (f : Func) (label : String) (args : List Value) : Prop :=
  ∃ bb ∈ f.blocks.tail, bb.label = label ∧ args.length = bb.params.length ∧
    ∀ e ∈ args.zip bb.params, typeOf f e.1 e.2.ty = e.2.ty

structure FitInst (f : Func) (inst : Inst) : Prop where
  shape : shapeMessages inst = []
  types : typeMessages f inst = []
  lists : inst.targets ≠ [] → inst.targetArgs.length = inst.targets.length
  edges : ∀ e ∈ inst.targets.zip inst.targetArgs, EdgeFits f e.1 e.2

structure SoundInst (f : Func) (inst : Inst) : Prop extends FitInst f inst where
  defined : ∀ id ∈ inst.usedTemps, id ∈ f.definedIds

structure EntryFits (f : Func) (entry : Block) (rest : List Block) : Prop where
  blocks : f.blocks = entry :: rest
  params : entry.params.map Param.ty = f.signature.params
  opening : ∀ inst ∈ entry.insts.tail, inst.op ≠ .prologue
  others : ∀ bb ∈ rest, ∀ inst ∈ bb.insts, inst.op ≠ .prologue

structure Declared (types : List Ty) (bb : Block) : Prop where
  params : ∀ p ∈ bb.params, types[p.id]? = some p.ty
  results : ∀ inst ∈ bb.insts, ∀ id, inst.result = some id → types[id]? = some inst.ty

def KnownAt (f : Func) (bb : Block) (v : Nat) : Prop := ¬ Missing f v bb.label ∨ v ∈ bb.paramIds

structure WellFormed (f : Func) : Prop where
  entry : ∃ entry rest, EntryFits f entry rest
  labels : f.labels.Nodup
  once : f.definedIds.Nodup
  declared : ∀ bb ∈ f.blocks, Declared f.valueTypes bb
  ended : ∀ bb ∈ f.blocks, Ended bb.insts
  sound : ∀ bb ∈ f.blocks, ∀ inst ∈ bb.insts, SoundInst f inst
  available : ∀ bb ∈ f.blocks, Reaches f bb.label → Available (KnownAt f bb) bb.insts

def Inst.Tidy (inst : Inst) : Prop := inst.targets = [] → inst.targetArgs = []

def Tidy (f : Func) : Prop := ∀ bb ∈ f.blocks, ∀ inst ∈ bb.insts, inst.Tidy

structure Clean (f : Func) : Prop where
  wellFormed : WellFormed f
  tidy : Tidy f

theorem WellFormed.idBelow {f : Func} (ok : WellFormed f) {v : Nat} (defined : v ∈ f.definedIds) :
    v < f.numValues := by
  obtain ⟨bb, inside, defines⟩ := Func.memDefinedIds.mp defined
  have declared := ok.declared bb inside
  rcases Block.memDefinedIds.mp defines with param | ⟨inst, listed, result⟩
  · obtain ⟨p, there, rfl⟩ := List.mem_map.mp param
    exact (List.getElem?_eq_some_iff.mp (declared.params p there)).1
  · exact (List.getElem?_eq_some_iff.mp (declared.results inst listed v result)).1

theorem Func.memInsts {f : Func} {bb : Block} {i : Inst} (there : bb ∈ f.blocks)
    (inside : i ∈ bb.insts) : i ∈ f.insts := List.mem_flatMap.mpr ⟨bb, there, inside⟩

def Encoded (f : Func) : Prop := ∀ inst ∈ f.insts, inst.enc.isLegal = true

structure Lowered (f : Func) : Prop where
  clean : Clean f
  encoded : Encoded f

theorem WellFormed.inst {f : Func} (ok : WellFormed f) {i : Inst} (inside : i ∈ f.insts) :
    SoundInst f i ∧ ∀ id, i.result = some id → f.valueTypes[id]? = some i.ty := by
  obtain ⟨bb, there, listed⟩ := List.mem_flatMap.mp inside
  exact ⟨ok.sound bb there i listed, (ok.declared bb there).results i listed⟩

theorem WellFormed.resultBelow {f : Func} (ok : WellFormed f) {i : Inst} (inside : i ∈ f.insts)
    {v : Nat} (result : i.result = some v) : v < f.numValues :=
  (List.getElem?_eq_some_iff.mp ((ok.inst inside).2 v result)).1

theorem Clean.inst {f : Func} (clean : Clean f) {i : Inst} (inside : i ∈ f.insts) :
    SoundInst f i ∧ i.Tidy ∧ ∀ id, i.result = some id → f.valueTypes[id]? = some i.ty := by
  obtain ⟨bb, there, listed⟩ := List.mem_flatMap.mp inside
  obtain ⟨sound, declared⟩ := clean.wellFormed.inst inside
  exact ⟨sound, clean.tidy bb there i listed, declared⟩

theorem plainOfPure {op : Opcode} (isPure : op.isPure = true) : op.isTerminator = false := by
  simp only [Opcode.isPure, Bool.and_eq_true, Bool.not_eq_true'] at isPure
  exact isPure.1.2

theorem Inst.memUsedTemps {i : Inst} {id : Nat} : id ∈ i.usedTemps ↔
    .temp id ∈ i.operands ∨ ∃ args ∈ i.targetArgs, .temp id ∈ args := by
  simp only [usedTemps, uses, List.mem_filterMap, Value.tempIff, exists_eq_right,
    List.mem_append, List.mem_flatten]

theorem Inst.operandUsed {i : Inst} {id : Nat} (inside : .temp id ∈ i.operands) :
    id ∈ i.usedTemps := memUsedTemps.mpr (.inl inside)

theorem Inst.argUsed {i : Inst} {args : List Value} {id : Nat} (listed : args ∈ i.targetArgs)
    (inside : .temp id ∈ args) : id ∈ i.usedTemps := memUsedTemps.mpr (.inr ⟨args, listed, inside⟩)

namespace Ended

theorem targets {bb : Block} {body : List Inst} {last : Inst} (same : bb.insts = body ++ [last])
    (ends : last.isTerminator = true) : bb.targets = last.targets := by
  have terminator : bb.terminator? = some last := by
    simp [Block.terminator?, same, Option.filter, ends]
  simp only [Block.targets, terminator]

end Ended

theorem knownAlong {f : Func} {bb : Block} (inside : bb ∈ f.blocks) {label : String}
    (target : label ∈ bb.targets) {v : Nat} (known : ¬ Missing f v label) :
    ¬ Missing f v bb.label ∨ v ∈ bb.definedIds :=
  Classical.or_iff_not_imp_right.mpr fun pass missing => known (.edge inside missing pass target)

/-- A description of what may be reached and what is known there, checked edge by edge. -/
structure Survey (f : Func) (reached : String → Prop) (known : String → Nat → Prop) : Prop where
  entry : ∀ entry rest, f.blocks = entry :: rest →
    reached entry.label ∧ ∀ v, ¬ known entry.label v
  edge : ∀ bb ∈ f.blocks, reached bb.label → ∀ label ∈ bb.targets,
    reached label ∧ ∀ v, known label v → known bb.label v ∨ v ∈ bb.definedIds

namespace Survey
variable {f : Func} {reached : String → Prop} {known : String → Nat → Prop}
  (survey : Survey f reached known)
include survey

theorem reaches {label : String} (reaches : Reaches f label) : reached label := by
  induction reaches with
  | entry first => exact (survey.entry _ _ first).1
  | edge inside before pass target ih => exact (survey.edge _ inside ih _ target).1

theorem notMissing {label : String} {v : Nat} (holds : known label v) : ¬ Missing f v label := by
  intro missing
  induction missing with
  | entry first => exact (survey.entry _ _ first).2 v holds
  | edge inside before pass target ih =>
    exact ((survey.edge _ inside (survey.reaches before.reaches) _ target).2 v holds).elim ih pass

theorem available (ok : ∀ bb ∈ f.blocks, reached bb.label →
      Available (fun v => known bb.label v ∨ v ∈ bb.paramIds) bb.insts) :
    ∀ bb ∈ f.blocks, Reaches f bb.label → Available (KnownAt f bb) bb.insts :=
  fun bb inside reaches => (ok bb inside (survey.reaches reaches)).mono
    fun _ held => held.imp_left survey.notMissing

end Survey
end SsaCodegen
