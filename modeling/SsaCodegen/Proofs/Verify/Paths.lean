import Mathlib.Data.List.Forall2
import SsaCodegen.Proofs.Flow.Paths
import SsaCodegen.Proofs.Verify.Structure
/-! Paths through verified functions. Whichever way leads from the entry to an instruction, what it
reads was defined on that way, at the type it is declared with. Edges lead to blocks that take what
is passed to them, and a block ends where it is left. -/
namespace SsaCodegen

def resultsOf (insts : List Inst) : List (Nat × Ty) :=
  insts.filterMap fun inst => inst.result.map (·, inst.ty)

namespace Block

def entryValues (bb : Block) : List (Nat × Ty) := bb.params.map fun p => (p.id, p.ty)

def definitions (bb : Block) : List (Nat × Ty) := bb.entryValues ++ resultsOf bb.insts

end Block

def Func.definedAlong (f : Func) (nodes : List Nat) : List (Nat × Ty) :=
  nodes.flatMap fun n => (f.block n).definitions

inductive HasTy (f : Func) : Value → Ty → Prop where
  | temp {id ty} (declared : f.valueTypes[id]? = some ty) : HasTy f (.temp id) ty
  | int {word ty} (whole : ty.isInt = true ∨ ty.isRef = true) : HasTy f (.int word) ty
  | bool {flag} : HasTy f (.bool flag) .b1
  | float {bits} : HasTy f (.float bits) .f64

def Arrives (f : Func) (label : String) (args : List Value) : Prop :=
  ∃ t bb, f.findBlock? label = some (t + 1) ∧ f.blocks[t + 1]? = some bb ∧
    List.Forall₂ (fun v (p : Param) => HasTy f v p.ty) args bb.params

structure InPlace (f : Func) (known : List (Nat × Ty)) (inst : Inst) : Prop where
  reads : ∀ id ∈ inst.usedTemps, ∃ ty, f.valueTypes[id]? = some ty ∧ (id, ty) ∈ known
  branches : inst.targets.length = inst.op.info.successors
  edges : ∀ (k : Nat) (label : String), inst.targets[k]? = some label →
    ∃ args, inst.targetArgs[k]? = some args ∧ Arrives f label args

theorem memResultsOf {insts : List Inst} {id : Nat} {ty : Ty} :
    (id, ty) ∈ resultsOf insts ↔ ∃ inst ∈ insts, inst.result = some id ∧ inst.ty = ty := by
  simp [resultsOf]

theorem Block.memEntryValues {bb : Block} {id : Nat} {ty : Ty} :
    (id, ty) ∈ bb.entryValues ↔ ∃ p ∈ bb.params, p.id = id ∧ p.ty = ty := by
  simp [Block.entryValues]

namespace Declared
variable {types : List Ty} {bb : Block} (declared : Declared types bb)
include declared

theorem param {id : Nat} (listed : id ∈ bb.paramIds) :
    ∃ ty, types[id]? = some ty ∧ (id, ty) ∈ bb.entryValues := by
  obtain ⟨p, inside, rfl⟩ := List.mem_map.mp listed
  exact ⟨p.ty, declared.params p inside, Block.memEntryValues.mpr ⟨p, inside, rfl, rfl⟩⟩

theorem result {insts : List Inst} (part : ∀ inst ∈ insts, inst ∈ bb.insts) {id : Nat}
    (given : ∃ inst ∈ insts, inst.result = some id) :
    ∃ ty, types[id]? = some ty ∧ (id, ty) ∈ resultsOf insts := by
  obtain ⟨inst, inside, gives⟩ := given
  exact ⟨inst.ty, declared.results inst (part inst inside) id gives,
    memResultsOf.mpr ⟨inst, inside, gives, rfl⟩⟩

theorem defined {id : Nat} (listed : id ∈ bb.definedIds) :
    ∃ ty, types[id]? = some ty ∧ (id, ty) ∈ bb.definitions := by
  rcases Block.memDefinedIds.mp listed with param | given
  · obtain ⟨ty, types, inside⟩ := declared.param param
    exact ⟨ty, types, List.mem_append_left _ inside⟩
  · obtain ⟨ty, types, inside⟩ := declared.result (fun _ inside => inside) given
    exact ⟨ty, types, List.mem_append_right _ inside⟩

end Declared

namespace FlowGraph
variable {f : Func} {nodes : List Nat} {b : Nat}

theorem Path.last {g : FlowGraph} (path : g.Path nodes b) : b ∈ nodes := by
  cases path <;> simp

theorem Path.upTo {g : FlowGraph} (path : g.Path nodes b) {earlier later : List Nat} {n : Nat}
    (split : nodes = earlier ++ n :: later) : g.Path (earlier ++ [n]) n := by
  induction path generalizing later with
  | entry =>
    cases earlier with
    | nil =>
      cases split
      exact .entry
    | cons _ _ => simp at split
  | @step nodes b c path edge ih =>
    rcases List.eq_nil_or_concat later with rfl | ⟨init, final, rfl⟩
    · obtain ⟨rfl, same⟩ := List.append_inj' split rfl
      cases same
      exact .step path edge
    · rw [List.concat_eq_append, ← List.cons_append, ← List.append_assoc] at split
      exact ih (List.append_inj' split rfl).1

theorem Path.inside (nonempty : f.blocks ≠ []) (path : (ofFunc f).Path nodes b) :
    f.blocks[b]? = some (f.block b) := by
  have below : b < f.blocks.length := by
    cases path with
    | entry => exact List.length_pos_iff.mpr nonempty
    | step _ edge => exact boundedSuccessors f _ _ edge
  rw [Func.block, List.getD_eq_getElem?_getD, List.getElem?_eq_getElem below, Option.getD_some]

theorem Path.misses (nonempty : f.blocks ≠ []) (path : (ofFunc f).Path nodes b) {v : Nat}
    (fresh : ∀ n ∈ nodes.dropLast, v ∉ (f.block n).definedIds) : Missing f v (f.block b).label := by
  induction path with
  | entry =>
    obtain ⟨entry, rest, blocks⟩ := List.exists_cons_of_ne_nil nonempty
    have first : f.block 0 = entry := by simp [Func.block, blocks]
    exact first ▸ .entry blocks
  | @step nodes b c path edge ih =>
    rw [List.dropLast_concat] at fresh
    obtain ⟨bb, located, edge⟩ := memSuccessors.mp edge
    obtain ⟨label, target, found⟩ := memTargetsOf.mp edge
    cases Func.blockAt located
    rw [Func.findBlockLabel found]
    exact .edge (List.mem_of_getElem? located) (ih fun n listed => fresh n (List.dropLast_subset _ listed))
      (fresh b path.last) target

end FlowGraph

namespace WellFormed
variable {f : Func} (ok : WellFormed f)
include ok

theorem nonempty : f.blocks ≠ [] := by
  obtain ⟨entry, rest, fits⟩ := ok.entry
  rw [fits.blocks]
  exact List.cons_ne_nil _ _

theorem knownOn {earlier : List Nat} {b id : Nat}
    (path : (FlowGraph.ofFunc f).Path (earlier ++ [b]) b) (known : KnownAt f (f.block b) id) :
    ∃ ty, f.valueTypes[id]? = some ty ∧
      (id, ty) ∈ f.definedAlong earlier ++ (f.block b).entryValues := by
  have inside := List.mem_of_getElem? (path.inside ok.nonempty)
  rcases known with always | param
  · have passed : ∃ n ∈ earlier, id ∈ (f.block n).definedIds := by
      refine Classical.byContradiction fun absent => always (path.misses ok.nonempty ?_)
      intro n listed defines
      rw [List.dropLast_concat] at listed
      exact absent ⟨n, listed, defines⟩
    obtain ⟨n, listed, defines⟩ := passed
    obtain ⟨front, back, rfl⟩ := List.append_of_mem listed
    have before := path.upTo (show _ = front ++ n :: (back ++ [b]) by simp)
    have home := List.mem_of_getElem? (before.inside ok.nonempty)
    obtain ⟨ty, types, given⟩ := (ok.declared _ home).defined defines
    exact ⟨ty, types, List.mem_append_left _ (List.mem_flatMap.mpr ⟨n, listed, given⟩)⟩
  · obtain ⟨ty, types, given⟩ := (ok.declared _ inside).param param
    exact ⟨ty, types, List.mem_append_right _ given⟩

theorem hasTy {v : Value} {ty : Ty} (defined : ∀ id, v = .temp id → id ∈ f.definedIds)
    (typed : Structure.typeOf f v ty = ty) : HasTy f v ty := by
  cases v with
  | temp id =>
    have below : id < f.valueTypes.length := ok.idBelow (defined id rfl)
    refine .temp ?_
    rw [List.getElem?_eq_getElem below, ← typed, Structure.typeOf, Func.valueType,
      List.getD_eq_getElem?_getD, List.getElem?_eq_getElem below, Option.getD_some]
  | int word =>
    refine .int ?_
    cases ty <;> simp [Structure.typeOf, Ty.isInt, Ty.isRef] at typed ⊢
  | bool flag => exact typed ▸ .bool
  | float bits => exact typed ▸ .float

theorem arrives {label : String} {args : List Value} (fits : EdgeFits f label args)
    (defined : ∀ id, .temp id ∈ args → id ∈ f.definedIds) : Arrives f label args := by
  obtain ⟨bb, later, named, length, types⟩ := fits
  obtain ⟨t, located⟩ := List.getElem?_of_mem later
  rw [List.getElem?_tail] at located
  refine ⟨t, bb, named ▸ Func.findBlockAt ok.labels located, located, ?_⟩
  refine List.forall₂_iff_zip.mpr ⟨length, fun {v p} paired => ?_⟩
  exact ok.hasTy (fun id same => defined id (same ▸ (List.of_mem_zip paired).1)) (types (v, p) paired)

theorem inPlace {earlier : List Nat} {b : Nat} (path : (FlowGraph.ofFunc f).Path (earlier ++ [b]) b)
    {before after : List Inst} {inst : Inst} (split : (f.block b).insts = before ++ inst :: after) :
    InPlace f (f.definedAlong earlier ++ (f.block b).entryValues ++ resultsOf before) inst := by
  have home := List.mem_of_getElem? (path.inside ok.nonempty)
  have inside : inst ∈ (f.block b).insts := split ▸ List.mem_append_right _ List.mem_cons_self
  have sound := ok.sound _ home inst inside
  have count : inst.targets.length = inst.op.info.successors := by
    have shape := sound.shape
    simp only [Structure.shapeMessages, List.append_eq_nil_iff, complainUnlessIff,
      beq_iff_eq] at shape
    exact shape.2
  refine ⟨fun id used => ?_, count, fun k label named => ?_⟩
  · have reached := (FlowGraph.reachesIff ok.labels (path.inside ok.nonempty)).mp
      (FlowGraph.reachableIff.mpr ⟨_, path⟩)
    rcases Available.split (split ▸ ok.available _ home reached) used with known | given
    · obtain ⟨ty, types, listed⟩ := ok.knownOn path known
      exact ⟨ty, types, List.mem_append_left _ listed⟩
    · have part : ∀ i ∈ before, i ∈ (f.block b).insts := fun i earlier =>
        split ▸ List.mem_append_left _ earlier
      obtain ⟨ty, types, listed⟩ := (ok.declared _ home).result part given
      exact ⟨ty, types, List.mem_append_right _ listed⟩
  · obtain ⟨below, rfl⟩ := List.getElem?_eq_some_iff.mp named
    have nonempty : inst.targets ≠ [] := List.ne_nil_of_length_pos (Nat.lt_of_le_of_lt (Nat.zero_le _) below)
    have paired : k < inst.targetArgs.length := (sound.lists nonempty).symm ▸ below
    refine ⟨inst.targetArgs[k], List.getElem?_eq_getElem paired, ?_⟩
    refine ok.arrives (sound.edges (inst.targets[k], inst.targetArgs[k]) ?_) fun id passed => ?_
    · exact List.mem_iff_getElem.mpr ⟨k, by simp; omega, by simp⟩
    · exact sound.defined id (Inst.argUsed (List.getElem_mem paired) passed)

end WellFormed

/-- On every path through a function that the verifier accepts, each block ends in its only
terminator, and each instruction is in its place. -/
theorem verifiedOnEveryPath (f : Func) (verified : verifyFunction f = []) (nodes : List Nat) (b : Nat)
    (path : (FlowGraph.ofFunc f).Path nodes b) (earlier later : List Nat) (n : Nat)
    (split : nodes = earlier ++ n :: later) :
    ∃ bb, f.blocks[n]? = some bb ∧ Ended bb.insts ∧ ∀ before inst after,
      bb.insts = before ++ inst :: after →
        InPlace f (f.definedAlong earlier ++ bb.entryValues ++ resultsOf before) inst := by
  have ok := verifiedIff.mp verified
  have here := path.upTo split
  have located := here.inside ok.nonempty
  exact ⟨f.block n, located, ok.ended _ (List.mem_of_getElem? located), fun _ _ _ => ok.inPlace here⟩

def countedDown : Func :=
  { signature := { params := [.i64], returns := [.i64] }
    blocks := [
      { label := "entry", params := [⟨0, .i64⟩], insts := [jumpTo "again" [.temp 0] {}] },
      { label := "again", params := [⟨1, .i64⟩]
        insts := [
          { result := some 2, op := .isub, ty := .i64, operands := [.temp 1, .int 1] },
          { op := .brif, operands := [.temp 2], targets := ["again", "done"],
            targetArgs := [[.temp 2], []] }] },
      { label := "done", insts := [{ op := .ret, operands := [.temp 2] }] }]
    valueTypes := [.i64, .i64, .i64] }

theorem countedDownOnPath : verifyFunction countedDown = [] ∧
    (FlowGraph.ofFunc countedDown).Path [0, 1, 1, 2] 2 ∧
    InPlace countedDown [(0, .i64), (1, .i64), (2, .i64), (1, .i64), (2, .i64)]
      { op := .ret, operands := [.temp 2] } := by
  have verified : verifyFunction countedDown = [] := by decide +kernel
  have path : (FlowGraph.ofFunc countedDown).Path [0, 1, 1, 2] 2 :=
    .step (.step (.step .entry (by decide)) (by decide)) (by decide)
  obtain ⟨bb, located, -, placed⟩ := verifiedOnEveryPath countedDown verified _ _ path [0, 1, 1] [] 2 rfl
  cases located
  exact ⟨verified, path, placed [] _ [] rfl⟩

end SsaCodegen
