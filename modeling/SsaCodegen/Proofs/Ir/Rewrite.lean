import SsaCodegen.Proofs.Ir.Types
/-! Rewriting the instructions of blocks. The blocks keep their labels and parameters, and new
values come after the old ones; then edges that fitted still fit, and paths of the new
function are paths of the old one as long as no block leads anywhere new. -/
namespace SsaCodegen
open Structure (typeOf SameTypes)

theorem Flows.transfer {f g : Func} {lets pass : Block → Prop}
    (opens : ∀ b others, g.blocks = b :: others →
      ∃ a rest, f.blocks = a :: rest ∧ a.label = b.label)
    (follows : ∀ b ∈ g.blocks, pass b → ∃ a ∈ f.blocks, a.label = b.label ∧ lets a ∧
      ∀ l ∈ b.targets, l ∈ a.targets)
    {label : String} (flows : Flows g pass label) : Flows f lets label := by
  induction flows with
  | entry first =>
    obtain ⟨a, rest, blocks, same⟩ := opens _ _ first
    exact same ▸ .entry blocks
  | edge inside before through target ih =>
    obtain ⟨a, there, same, passed, targets⟩ := follows _ inside through
    exact .edge there (same ▸ ih) passed (targets _ target)

structure Extends (f g : Func) : Prop where
  signature : g.signature = f.signature
  types : f.valueTypes <+: g.valueTypes
  homes : ∀ a ∈ f.blocks.tail, ∃ b ∈ g.blocks.tail, b.label = a.label ∧ b.params = a.params

namespace Extends
variable {f g : Func} (x : Extends f g)
include x

theorem typeAt {id : Nat} {ty : Ty} (declared : f.valueTypes[id]? = some ty) :
    g.valueTypes[id]? = some ty := by
  obtain ⟨more, same⟩ := x.types
  rw [← same, List.getElem?_append_left (List.getElem?_eq_some_iff.mp declared).1, declared]

theorem valueType {id : Nat} (old : id < f.numValues) : g.valueType id = f.valueType id := by
  have declared := List.getElem?_eq_getElem old
  simp only [Func.valueType, List.getD_eq_getElem?_getD, declared, x.typeAt declared]

theorem sameTypes {values : List Value} (old : ∀ id, .temp id ∈ values → id < f.numValues) :
    SameTypes f g values values :=
  .refl fun _ inside hint =>
    Structure.typeOfSame (fun id same => x.valueType (old id (same ▸ inside))) hint

theorem edgeFits {label : String} {args args' : List Value} (types : SameTypes f g args args')
    (fits : EdgeFits f label args) : EdgeFits g label args' := by
  obtain ⟨a, inside, named, length, typed⟩ := fits
  obtain ⟨b, there, same, params⟩ := x.homes a inside
  refine ⟨b, there, same.trans named, by rw [types.length, length, params], ?_⟩
  rw [params]
  exact types.typed typed

theorem fit {i j : Inst} (fit : FitInst f i) (op : j.op = i.op) (ty : j.ty = i.ty)
    (callee : j.callee = i.callee) (result : j.result.isSome = i.result.isSome)
    (targets : j.targets = i.targets) (operands : SameTypes f g i.operands j.operands)
    (args : Structure.SameTypeLists f g i.targetArgs j.targetArgs)
    (constant : Structure.isConstant i.op = true → j.operands = i.operands) : FitInst g j where
  shape := by
    refine Structure.shapeIff.mpr ?_
    obtain ⟨arity, fits, successors⟩ := Structure.shapeIff.mp fit.shape
    rw [op, operands.length, targets]
    exact ⟨arity, fits.same op ty result, successors⟩
  types := (Structure.typeMessagesSame operands op ty callee constant (by rw [x.signature])).trans
    fit.types
  lists := by
    rw [targets, args.length]
    exact fit.lists
  edges e inside := by
    rw [targets] at inside
    obtain ⟨before, listed, same⟩ := args.zipFrom inside
    exact x.edgeFits same (fit.edges _ listed)

theorem fitSame (ok : WellFormed f) {i j : Inst} (sound : SoundInst f i) (op : j.op = i.op)
    (ty : j.ty = i.ty) (callee : j.callee = i.callee) (result : j.result.isSome = i.result.isSome)
    (targets : j.targets = i.targets) (operands : j.operands = i.operands)
    (args : j.targetArgs = i.targetArgs) : FitInst g j := by
  refine x.fit sound.toFitInst op ty callee result targets ?_ ?_ fun _ => operands
  · rw [operands]
    exact x.sameTypes fun id listed => ok.idBelow (sound.defined id (Inst.operandUsed listed))
  · have mapped : Structure.SameTypeLists f g i.targetArgs (i.targetArgs.map id) :=
      .ofMap fun vs listed => x.sameTypes fun id inside =>
        ok.idBelow (sound.defined id (Inst.argUsed listed inside))
    rw [args]
    rwa [List.map_id] at mapped

theorem fitSelf (ok : WellFormed f) {i : Inst} (sound : SoundInst f i) : FitInst g i :=
  x.fitSame ok sound rfl rfl rfl rfl rfl rfl rfl

theorem argsSame (ok : WellFormed f) {i : Inst} (sound : SoundInst f i) {vs : List Value}
    (listed : vs ∈ i.targetArgs) : SameTypes f g vs vs :=
  x.sameTypes fun _ arg => ok.idBelow (sound.defined _ (Inst.argUsed listed arg))

theorem fitEdges (ok : WellFormed f) {i : Inst} (sound : SoundInst f i) {targets : List String}
    {args : List (List Value)} (count : targets.length = i.targets.length)
    (lists : targets ≠ [] → args.length = targets.length)
    (edges : ∀ e ∈ targets.zip args, EdgeFits g e.1 e.2) :
    FitInst g { i with targets := targets, targetArgs := args } where
  shape := by
    obtain ⟨arity, fits, successors⟩ := Structure.shapeIff.mp sound.shape
    exact Structure.shapeIff.mpr ⟨arity, fits, count.trans successors⟩
  types := by
    refine (Structure.typeMessagesSame (f := f) (i := i) ?_ rfl rfl rfl (fun _ => rfl)
      (by rw [x.signature])).trans sound.types
    exact x.sameTypes fun id operand => ok.idBelow (sound.defined id (Inst.operandUsed operand))
  lists := lists
  edges := edges

end Extends

def Block.head (bb : Block) : String × List Param := (bb.label, bb.params)

theorem headsModify (blocks : List Block) (k : Nat) {h : Block → Block}
    (same : ∀ bb, (h bb).head = bb.head) :
    (blocks.modify k h).map Block.head = blocks.map Block.head := by
  refine List.ext_getElem? fun m => ?_
  rw [List.getElem?_map, List.getElem?_map, List.getElem?_modify]
  cases blocks[m]? with
  | none => simp
  | some bb =>
    by_cases own : k = m
    · simp [own, same]
    · simp [own]

structure Rewrites (f g : Func) : Prop where
  signature : g.signature = f.signature
  types : f.valueTypes <+: g.valueTypes
  heads : g.blocks.map Block.head = f.blocks.map Block.head

def Paired (f g : Func) (a b : Block) : Prop :=
  ∃ k : Nat, f.blocks[k]? = some a ∧ g.blocks[k]? = some b

theorem Paired.left {f g : Func} {a b : Block} (pair : Paired f g a b) : a ∈ f.blocks := by
  obtain ⟨k, there, -⟩ := pair
  exact List.mem_of_getElem? there

theorem Paired.right {f g : Func} {a b : Block} (pair : Paired f g a b) : b ∈ g.blocks := by
  obtain ⟨k, -, there⟩ := pair
  exact List.mem_of_getElem? there

theorem Rewrites.refl (f : Func) : Rewrites f f := ⟨rfl, List.prefix_refl _, rfl⟩

namespace Rewrites
variable {f g : Func} (r : Rewrites f g)
include r

theorem headAt (k : Nat) : g.blocks[k]?.map Block.head = f.blocks[k]?.map Block.head := by
  rw [← List.getElem?_map, r.heads, List.getElem?_map]

theorem pairOf {b : Block} (inside : b ∈ g.blocks) : ∃ a ∈ f.blocks, Paired f g a b := by
  obtain ⟨k, located⟩ := List.getElem?_of_mem inside
  have head := r.headAt k
  rw [located, Option.map_some] at head
  obtain ⟨a, there, -⟩ := Option.map_eq_some_iff.mp head.symm
  exact ⟨a, List.mem_of_getElem? there, k, there, located⟩

theorem pairFrom {a : Block} (inside : a ∈ f.blocks) : ∃ b ∈ g.blocks, Paired f g a b := by
  obtain ⟨k, located⟩ := List.getElem?_of_mem inside
  have head := r.headAt k
  rw [located, Option.map_some] at head
  obtain ⟨b, there, -⟩ := Option.map_eq_some_iff.mp head
  exact ⟨b, List.mem_of_getElem? there, k, located, there⟩

theorem sameHead {a b : Block} (pair : Paired f g a b) : b.label = a.label ∧ b.params = a.params := by
  obtain ⟨k, left, right⟩ := pair
  have head := r.headAt k
  rw [left, right, Option.map_some, Option.map_some] at head
  exact Prod.mk.inj (Option.some.inj head)

theorem sameParamIds {a b : Block} (pair : Paired f g a b) : b.paramIds = a.paramIds := by
  rw [Block.paramIds, (r.sameHead pair).2, Block.paramIds]

theorem blockParams (b : Nat) : (g.block b).params = (f.block b).params := by
  have heads := r.headAt b
  rw [Func.block, Func.block, List.getD_eq_getElem?_getD, List.getD_eq_getElem?_getD]
  cases was : f.blocks[b]? with
  | none =>
    rw [was, Option.map_none, Option.map_eq_none_iff] at heads
    rw [heads]
  | some bb =>
    rw [was, Option.map_some] at heads
    obtain ⟨now, there, same⟩ := Option.map_eq_some_iff.mp heads
    rw [there]
    exact congrArg Prod.snd same

theorem labels : g.labels = f.labels := by
  have heads := congrArg (List.map Prod.fst) r.heads
  rwa [List.map_map, List.map_map] at heads

theorem toExtends : Extends f g where
  signature := r.signature
  types := r.types
  homes a inside := by
    obtain ⟨k, located⟩ := List.getElem?_of_mem inside
    rw [List.getElem?_tail] at located
    have head := r.headAt (k + 1)
    rw [located, Option.map_some] at head
    obtain ⟨b, there, same⟩ := Option.map_eq_some_iff.mp head
    obtain ⟨label, params⟩ := Prod.mk.inj same
    rw [← List.getElem?_tail] at there
    exact ⟨b, List.mem_of_getElem? there, label, params⟩

theorem opens {b : Block} {others : List Block} (blocks : g.blocks = b :: others) :
    ∃ a rest, f.blocks = a :: rest ∧ Paired f g a b ∧
      ∀ c ∈ others, ∃ a' ∈ rest, Paired f g a' c := by
  have pairAt (k : Nat) (c : Block) (located : g.blocks[k]? = some c) :
      ∃ a, f.blocks[k]? = some a ∧ Paired f g a c := by
    have head := r.headAt k
    rw [located, Option.map_some] at head
    obtain ⟨a, there, -⟩ := Option.map_eq_some_iff.mp head.symm
    exact ⟨a, there, k, there, located⟩
  obtain ⟨a, first, pair⟩ := pairAt 0 b (by simp [blocks])
  cases shape : f.blocks with
  | nil => simp [shape] at first
  | cons a' rest =>
    rw [shape, List.getElem?_cons_zero] at first
    cases Option.some.inj first
    refine ⟨_, rest, rfl, pair, fun c inside => ?_⟩
    obtain ⟨k, located⟩ := List.getElem?_of_mem inside
    obtain ⟨a', there, pair⟩ := pairAt (k + 1) c (by rw [blocks]; exact located)
    rw [shape, List.getElem?_cons_succ] at there
    exact ⟨a', List.mem_of_getElem? there, pair⟩

theorem definedSublist (part : ∀ a b, Paired f g a b →
    (b.insts.filterMap Inst.result).Sublist (a.insts.filterMap Inst.result)) :
    g.definedIds.Sublist f.definedIds := by
  have go (as bs : List Block) (heads : bs.map Block.head = as.map Block.head)
      (each : ∀ (k : Nat) a b, as[k]? = some a → bs[k]? = some b →
        (b.insts.filterMap Inst.result).Sublist (a.insts.filterMap Inst.result)) :
      (bs.flatMap Block.definedIds).Sublist (as.flatMap Block.definedIds) := by
    induction as generalizing bs with
    | nil =>
      cases List.map_eq_nil_iff.mp heads
      exact .refl _
    | cons a rest ih =>
      cases bs with
      | nil => cases heads
      | cons b later =>
        obtain ⟨head, tail⟩ := List.cons.inj heads
        have params : b.paramIds = a.paramIds := congrArg (List.map Param.id) (Prod.mk.inj head).2
        rw [List.flatMap_cons, List.flatMap_cons, Block.definedIds, Block.definedIds, params]
        exact ((List.Sublist.refl _).append (each 0 a b rfl rfl)).append
          (ih later tail fun k c d left right => each (k + 1) c d left right)
  exact go f.blocks g.blocks r.heads fun k a b left right => part a b ⟨k, left, right⟩

theorem flows {lets pass : Block → Prop}
    (follows : ∀ a b, Paired f g a b → pass b → lets a ∧ ∀ l ∈ b.targets, l ∈ a.targets)
    {label : String} (flows : Flows g pass label) : Flows f lets label := by
  refine flows.transfer (fun b others blocks => ?_) fun b inside passed => ?_
  · obtain ⟨a, rest, first, pair, -⟩ := r.opens blocks
    exact ⟨a, rest, first, (r.sameHead pair).1.symm⟩
  · obtain ⟨a, there, pair⟩ := r.pairOf inside
    exact ⟨a, there, (r.sameHead pair).1.symm, follows a b pair passed⟩

end Rewrites

structure BlockRewrites (g : Func) (a b : Block) : Prop where
  ended : Ended b.insts
  targets : ∀ l ∈ b.targets, l ∈ a.targets
  opening : ∀ j ∈ b.insts.tail, j.op = .prologue → ∃ i ∈ a.insts.tail, i.op = .prologue
  others : ∀ j ∈ b.insts, j.op = .prologue → ∃ i ∈ a.insts, i.op = .prologue
  declared : ∀ j ∈ b.insts, ∀ id, j.result = some id → g.valueTypes[id]? = some j.ty
  sound : ∀ j ∈ b.insts, SoundInst g j

structure Rewriting (f g : Func) : Prop extends Rewrites f g where
  once : g.definedIds.Nodup
  blocks : ∀ a b, Paired f g a b → BlockRewrites g a b

namespace Rewriting
variable {f g : Func} (w : Rewriting f g)
include w

theorem reaches {label : String} (reaches : Reaches g label) : Reaches f label :=
  w.flows (fun a b pair _ => ⟨trivial, (w.blocks a b pair).targets⟩) reaches

theorem knownAt (ok : WellFormed f) {v : Nat}
    (ids : ∀ a b, Paired f g a b → v ∈ b.definedIds → v ∈ a.definedIds) {a b : Block}
    (pair : Paired f g a b) (new : v ∈ g.definedIds) (known : KnownAt f a v) : KnownAt g b v := by
  refine known.imp (fun found missing => found ?_) fun param => w.sameParamIds pair ▸ param
  rw [← (w.sameHead pair).1]
  refine w.flows (fun a' b' pair' absent => ⟨fun defines => absent ?_, (w.blocks _ _ pair').targets⟩)
    missing
  obtain ⟨home, inside, present⟩ := Func.memDefinedIds.mp new
  obtain ⟨k, located⟩ := List.getElem?_of_mem inside
  obtain ⟨_, there, pairHome⟩ := w.pairOf inside
  obtain ⟨m, left, right⟩ := pairHome
  obtain ⟨n, left', right'⟩ := pair'
  have same := Func.definedInOneBlock ok.once left left' (ids _ _ ⟨m, left, right⟩ present) defines
  subst same
  rw [right] at right'
  exact Option.some.inj right' ▸ present

theorem wellFormed (ok : WellFormed f) (available : ∀ a b, Paired f g a b → Reaches f a.label →
    Available (KnownAt g b) b.insts) : WellFormed g where
  entry := by
    obtain ⟨entry, rest, fits⟩ := ok.entry
    have length : g.blocks.length = f.blocks.length := by
      rw [← List.length_map Block.head, w.heads, List.length_map]
    obtain ⟨b, others, blocks⟩ := List.exists_cons_of_ne_nil (l := g.blocks)
      (List.ne_nil_of_length_pos (by rw [length, fits.blocks]; exact Nat.succ_pos _))
    obtain ⟨a, rest', start, pair, later⟩ := w.opens blocks
    cases fits.blocks.symm.trans start
    refine ⟨b, others, blocks, ?_, fun j inside opens => ?_, fun c listed j inside opens => ?_⟩
    · rw [(w.sameHead pair).2, w.signature]
      exact fits.params
    · obtain ⟨i, there, same⟩ := (w.blocks _ _ pair).opening j inside opens
      exact fits.opening i there same
    · obtain ⟨a', there, pair⟩ := later c listed
      obtain ⟨i, within, same⟩ := (w.blocks _ _ pair).others j inside opens
      exact fits.others a' there i within same
  labels := w.labels ▸ ok.labels
  once := w.once
  declared b inside := by
    obtain ⟨a, there, pair⟩ := w.pairOf inside
    refine ⟨fun p listed => w.toExtends.typeAt ((ok.declared a there).params p ?_),
      (w.blocks a b pair).declared⟩
    rwa [← (w.sameHead pair).2]
  ended b inside := by
    obtain ⟨a, there, pair⟩ := w.pairOf inside
    exact (w.blocks a b pair).ended
  sound b inside := by
    obtain ⟨a, there, pair⟩ := w.pairOf inside
    exact (w.blocks a b pair).sound
  available b inside reaches := by
    obtain ⟨a, there, pair⟩ := w.pairOf inside
    exact available a b pair ((w.sameHead pair).1 ▸ w.reaches reaches)

end Rewriting
end SsaCodegen
