import SsaCodegen.Opt.LoopInvariant
import SsaCodegen.Proofs.Ir.Reshape
/-! Preheaders are detours. All that is known at the header is known in the preheader, which
takes the arguments of the edges sent to it and passes them on. -/
namespace SsaCodegen
namespace LoopInvariant
open Structure

theorem insertIdxSplit {α : Type} {xs : List α} {k : Nat} (le : k ≤ xs.length) (x : α) :
    xs.insertIdx k x = xs.take k ++ x :: xs.drop k := by
  induction k generalizing xs with
  | zero => rfl
  | succ k ih =>
    cases xs with
    | nil => cases le
    | cons y ys =>
      rw [List.insertIdx_succ_cons, ih (Nat.le_of_succ_le_succ le)]
      rfl

section Retarget
variable {old new : String}

def sentTo (old new : String) (last : Inst) : Inst :=
  { last with targets := last.targets.map fun label => if label = old then new else label }

theorem retargetEnds {bb : Block} {body : List Inst} {last : Inst} (same : bb.insts = body ++ [last])
    (ends : last.isTerminator = true) :
    retarget old new bb = { bb with insts := body ++ [sentTo old new last] } := by
  have terminator : bb.terminator? = some last := by
    simp [Block.terminator?, same, Option.filter, ends]
  simp only [retarget, terminator, same, List.dropLast_concat, sentTo]

theorem retargetHead (bb : Block) : (retarget old new bb).head = bb.head := by
  unfold retarget
  split <;> rfl

theorem retargetTwice (other : new ≠ old) {bb : Block} (ended : Ended bb.insts) :
    retarget old new (retarget old new bb) = retarget old new bb := by
  obtain ⟨body, last, same, ends, -⟩ := ended
  have again {b : Block} (same : b.insts = body ++ [sentTo old new last]) :
      retarget old new b = { b with insts := body ++ [sentTo old new (sentTo old new last)] } :=
    retargetEnds same ends
  have twice (label : String) : (if (if label = old then new else label) = old then new
      else if label = old then new else label) = if label = old then new else label := by
    by_cases was : label = old
    · simp [was, other]
    · simp [was]
  have sent : sentTo old new (sentTo old new last) = sentTo old new last := by
    simp [sentTo, Function.comp_def, twice]
  rw [retargetEnds same ends, again rfl, sent]

end Retarget

structure Turned (old new : String) (types : List Ty) (f g : Func) : Prop where
  rewrites : Rewrites f g
  types : g.valueTypes = types
  pairs : ∀ a b, Paired f g a b → b = a ∨ b = retarget old new a

theorem Turned.length {old new : String} {types : List Ty} {f g : Func}
    (turned : Turned old new types f g) : g.blocks.length = f.blocks.length := by
  have length := congrArg List.length turned.rewrites.heads
  rwa [List.length_map, List.length_map] at length

section Turn
variable {old new : String}

def turn (old new : String) (sources : List String) (bb : Block) : Block :=
  if bb.label ∈ sources then retarget old new bb else bb

theorem turnHead (sources : List String) (bb : Block) : (turn old new sources bb).head = bb.head := by
  unfold turn
  split
  · exact retargetHead bb
  · rfl

theorem turnLater (other : new ≠ old) {bb : Block} (ended : Ended bb.insts) (sources : List String)
    (source : String) : turn old new (sources ++ [source]) bb =
      if bb.label = source then retarget old new (turn old new sources bb) else turn old new sources bb := by
  simp only [turn, List.mem_append, List.mem_singleton]
  by_cases was : bb.label ∈ sources
  · simp [was, retargetTwice other ended]
  · simp [was]

section Sources
variable (other : new ≠ old) {f : Func} (labels : f.labels.Nodup) (ended : ∀ bb ∈ f.blocks, Ended bb.insts)
include other labels ended

theorem turnedSource (source : String) {done : List String} {g : Func}
    (turned : g.blocks = f.blocks.map (turn old new done)) :
    (match g.findBlock? source with
      | some b => g.modifyBlock b (retarget old new)
      | none => g) = { g with blocks := f.blocks.map (turn old new (done ++ [source])) } := by
  have label (bb : Block) : (turn old new done bb).label = bb.label := congrArg Prod.fst (turnHead done bb)
  split
  · rename_i b found
    obtain ⟨own, there, rfl⟩ := Func.findBlockSound found
    have named : g.labels = f.labels := by
      rw [Func.labels, turned, List.map_map]
      exact List.map_congr_left fun bb _ => label bb
    refine congrArg (fun blocks => { g with blocks := blocks }) (List.ext_getElem? fun k => ?_)
    rw [List.getElem?_modify, List.getElem?_map]
    have located : g.blocks[k]? = f.blocks[k]?.map (turn old new done) := by rw [turned, List.getElem?_map]
    cases origin : f.blocks[k]? with
    | none =>
      rw [located, origin]
      rfl
    | some a =>
      rw [origin, Option.map_some] at located
      rw [located, Option.map_some, turnLater other (ended a (List.mem_of_getElem? origin))]
      by_cases same : b = k
      · subst same
        cases Option.some.inj (located.symm.trans there)
        simp [label]
      · have apart : a.label ≠ own.label := fun same' =>
          same (Func.indexUnique (named ▸ labels) there located ((label a).trans same').symm)
        simp [same, apart]
  · rename_i missing
    have stays : g.blocks = f.blocks.map (turn old new (done ++ [source])) := by
      refine turned.trans (List.map_congr_left fun a inside => ?_)
      rw [turnLater other (ended a inside), if_neg fun same => ?_]
      have absent := List.findIdx?_eq_none_iff.mp missing (turn old new done a)
        (turned ▸ List.mem_map_of_mem inside)
      simp [label, same] at absent
    rw [← stays]

theorem turnedSources (sources : List String) {done : List String} {g : Func}
    (turned : g.blocks = f.blocks.map (turn old new done)) :
    sources.foldl (fun f source =>
      match f.findBlock? source with
      | some b => f.modifyBlock b (retarget old new)
      | none => f) g = { g with blocks := f.blocks.map (turn old new (done ++ sources)) } := by
  induction sources generalizing g done with
  | nil => rw [List.append_nil, ← turned]; rfl
  | cons source rest ih =>
    rw [List.foldl_cons, turnedSource other labels ended source turned, ih rfl, List.append_assoc]
    rfl

end Sources

end Turn

theorem zipTypes {ps qs : List Param} (same : qs.map Param.ty = ps.map Param.ty) {vs : List Value}
    {e : Value × Param} (inside : e ∈ vs.zip qs) : ∃ p, (e.1, p) ∈ vs.zip ps ∧ p.ty = e.2.ty := by
  obtain ⟨k, located⟩ := List.getElem?_of_mem inside
  obtain ⟨left, right⟩ := List.getElem?_zip_eq_some.mp located
  have types := congrArg (·[k]?) same
  simp only [List.getElem?_map, right, Option.map_some] at types
  obtain ⟨p, there, ty⟩ := Option.map_eq_some_iff.mp types.symm
  exact ⟨p, List.mem_of_getElem? (List.getElem?_zip_eq_some.mpr ⟨left, there⟩), ty⟩

def freshParams (next : Nat) (types : List Ty) : List Param :=
  types.mapIdx fun k ty => { id := next + k, ty := ty }

theorem freshParamsTypes (next : Nat) (types : List Ty) :
    (freshParams next types).map Param.ty = types := by
  refine List.ext_getElem? fun k => ?_
  rw [freshParams, List.getElem?_map, List.getElem?_mapIdx]
  cases types[k]? <;> rfl

theorem memFreshParams {next : Nat} {types : List Ty} {p : Param} (inside : p ∈ freshParams next types) :
    ∃ k, p.id = next + k ∧ types[k]? = some p.ty := by
  obtain ⟨k, below, rfl⟩ := List.mem_mapIdx.mp inside
  exact ⟨k, rfl, List.getElem?_eq_getElem below⟩

theorem freshParamsOnce (next : Nat) (types : List Ty) :
    ((freshParams next types).map Param.id).Nodup := by
  refine List.pairwise_iff_getElem.mpr fun i j below above before same => ?_
  simp only [freshParams, List.getElem_map, List.getElem_mapIdx] at same
  omega

theorem typeDeclared {g : Func} {id : Nat} {ty : Ty} (declared : g.valueTypes[id]? = some ty)
    (hint : Ty) : typeOf g (.temp id) hint = ty := by
  simp [typeOf, Func.valueType, declared]

section Preheader
variable {f g F : Func} {header : Nat} {home : Block} {label : String} {enc : Encoding}
  (clean : Clean f) (located : f.blocks[header]? = some home) (later : 0 < header)
  (unused : label ∉ f.labels)
  (turned : Turned home.label label (f.valueTypes ++ home.params.map Param.ty) f F)

def preheader (f : Func) (home : Block) (label : String) (enc : Encoding) : Block :=
  let params := freshParams f.numValues (home.params.map Param.ty)
  ⟨label, params, [{ jumpTo home.label (params.map fun p => .temp p.id) {} with enc := enc }]⟩

theorem preheaderDeclared {g : Func} (types : g.valueTypes = f.valueTypes ++ home.params.map Param.ty) :
    ∀ p ∈ freshParams f.numValues (home.params.map Param.ty), g.valueTypes[p.id]? = some p.ty := by
  intro p listed
  obtain ⟨k, id, ty⟩ := memFreshParams listed
  rw [types, id, Func.numValues, List.getElem?_append_right (Nat.le_add_right ..),
    Nat.add_sub_cancel_left, ty]

include clean in
theorem redirectedTo {g : Func} (x : Extends f g) (inside : home ∈ f.blocks)
    (way : preheader f home label enc ∈ g.blocks.tail) {a : Block} (there : a ∈ f.blocks) :
    Redirected g label a (retarget home.label label a) := by
  have ok := clean.wellFormed
  obtain ⟨body, last, same, ends, -⟩ := ok.ended a there
  have listed : last ∈ a.insts := same ▸ List.mem_append_right _ List.mem_cons_self
  have sound := ok.sound a there last listed
  have passes {vs : List Value} (same : SameTypes f g vs vs) (fits : EdgeFits f home.label vs) :
      EdgeFits g label vs := by
    obtain ⟨bb, there, named, length, typed⟩ := fits
    cases Func.sameOfLabel ok.labels (List.mem_of_mem_tail there) inside named
    have count := congrArg List.length (freshParamsTypes f.numValues (home.params.map Param.ty))
    rw [List.length_map, List.length_map] at count
    refine ⟨_, way, rfl, length.trans count.symm, fun e within => ?_⟩
    obtain ⟨p, listed, ty⟩ :=
      zipTypes (freshParamsTypes f.numValues (home.params.map Param.ty)) within
    exact ty ▸ same.typed typed (e.1, p) listed
  rw [retargetEnds same ends]
  refine ⟨rfl, rfl, body, last, (sentTo home.label label last).targets, last.targetArgs, same, rfl,
    fun l target => ?_, fun vs within id arg => Inst.argUsed within arg,
    x.fitEdges ok sound (List.length_map ..) (fun present => ?_) fun e within => ?_, fun absent => ?_⟩
  · obtain ⟨was, led, rfl⟩ := List.mem_map.mp target
    split
    · exact .inl rfl
    · exact .inr led
  · exact (sound.lists fun absent => present (by simp [sentTo, absent])).trans (List.length_map ..).symm
  · simp only [sentTo, List.zip_map_left] at within
    obtain ⟨⟨l, vs⟩, was, rfl⟩ := List.mem_map.mp within
    have arg := x.argsSame ok sound (List.of_mem_zip was).2
    dsimp only [Prod.map, id]
    split
    · rename_i same
      exact passes arg (same ▸ sound.edges _ was)
    · exact x.edgeFits arg (sound.edges _ was)
  · exact clean.tidy a there last listed (List.map_eq_nil_iff.mp absent)

include clean unused in
theorem ledToHeader {a : Block} (there : a ∈ f.blocks)
    (target : label ∈ (retarget home.label label a).targets) : home.label ∈ a.targets := by
  have ok := clean.wellFormed
  obtain ⟨body, last, same, ends, -⟩ := ok.ended a there
  have changed : (retarget home.label label a).insts = body ++ [sentTo home.label label last] := by
    rw [retargetEnds same ends]
  rw [Ended.targets changed ends] at target
  obtain ⟨l, led, edgeTo⟩ := List.mem_map.mp target
  rw [Ended.targets same ends]
  split at edgeTo
  · rename_i same
    exact same ▸ led
  · refine absurd (ok.targetUsed there ?_) unused
    rw [Ended.targets same ends, ← edgeTo]
    exact led

theorem preheaderFits {g : Func} (x : Extends f g) (tail : home ∈ f.blocks.tail)
    (types : g.valueTypes = f.valueTypes ++ home.params.map Param.ty) :
    FitInst g { jumpTo home.label
      ((freshParams f.numValues (home.params.map Param.ty)).map fun p => .temp p.id) {} with
      enc := enc } := by
  refine ⟨rfl, rfl, fun _ => by simp [jumpTo], fun e within => ?_⟩
  rw [List.mem_singleton.mp within]
  obtain ⟨b, there, named, params⟩ := x.homes home tail
  refine ⟨b, there, named, by simp [freshParams, params], fun e within => ?_⟩
  rw [params] at within
  obtain ⟨k, located⟩ := List.getElem?_of_mem within
  obtain ⟨left, right⟩ := List.getElem?_zip_eq_some.mp located
  rw [List.getElem?_map] at left
  obtain ⟨p, fresh, same⟩ := Option.map_eq_some_iff.mp left
  have ty : p.ty = e.2.ty := by
    rw [freshParams, List.getElem?_mapIdx, List.getElem?_map, right] at fresh
    cases fresh
    rfl
  rw [← same, ← ty]
  exact typeDeclared (preheaderDeclared types p (List.mem_of_getElem? fresh)) _

theorem preheaderReads {id : Nat} (used : id ∈ Inst.usedTemps { jumpTo home.label
      ((freshParams f.numValues (home.params.map Param.ty)).map fun p => .temp p.id) {} with
      enc := enc }) : id ∈ (preheader f home label enc).paramIds := by
  rcases Inst.memUsedTemps.mp used with absent | ⟨vs, within, arg⟩
  · cases absent
  · cases List.mem_singleton.mp within
    obtain ⟨p, listed, same⟩ := List.mem_map.mp arg
    cases same
    exact List.mem_map_of_mem listed

variable (enc) in
include clean located later unused turned in
theorem preheaderDetour : Detour f (F.insertBlock header (preheader f home label enc))
    (preheader f home label enc) { jumpTo home.label
      ((freshParams f.numValues (home.params.map Param.ty)).map fun p => .temp p.id) {} with enc := enc }
    (Reaches f home.label) (fun v => ¬ Missing f v home.label) ∧
    home ∈ f.blocks.tail := by
  have ok := clean.wellFormed
  have inside := List.mem_of_getElem? located
  have below : header < F.blocks.length := turned.length ▸ (List.getElem?_eq_some_iff.mp located).1
  have apart : (F.insertBlock header (preheader f home label enc)).blocks =
      F.blocks.take header ++ preheader f home label enc :: F.blocks.drop header :=
    insertIdxSplit (Nat.le_of_lt below) _
  generalize made : F.insertBlock header (preheader f home label enc) = g at apart
  have signature : g.signature = f.signature := by rw [← made]; exact turned.rewrites.signature
  have types : g.valueTypes = f.valueTypes ++ home.params.map Param.ty := by
    rw [← made]
    exact turned.types
  have nonempty : F.blocks.take header ≠ [] := by
    refine List.ne_nil_of_length_pos ?_
    rw [List.length_take]
    omega
  have r : Rewrites f { g with blocks := F.blocks.take header ++ F.blocks.drop header } := by
    rw [List.take_append_drop]
    exact ⟨signature, types ▸ List.prefix_append _ _, turned.rewrites.heads⟩
  have x : Extends f g := .ofWay ok.labels nonempty apart r
  have homeTail : home ∈ f.blocks.tail := by
    refine List.mem_of_getElem? (i := header - 1) ?_
    rwa [List.getElem?_tail, Nat.sub_add_cancel later]
  have wayTail : preheader f home label enc ∈ g.blocks.tail := by
    obtain ⟨first, more, start⟩ := List.exists_cons_of_ne_nil nonempty
    rw [apart, start]
    exact List.mem_append_right _ List.mem_cons_self
  have pairs (a b : Block) (pair : Paired f F a b) : Redirected g label a b ∧
      (label ∈ b.targets → (Reaches f a.label → Reaches f home.label) ∧
        ∀ v, ¬ Missing f v home.label → ¬ Missing f v a.label ∨ v ∈ a.definedIds) := by
    have there := pair.left
    rcases turned.pairs a b pair with rfl | rfl
    · exact ⟨.self x clean there label, fun target => absurd (ok.targetUsed there target) unused⟩
    · refine ⟨redirectedTo clean x inside wayTail there, fun target => ?_⟩
      have leads := ledToHeader clean unused there target
      exact ⟨fun reaches => .edge there reaches trivial leads,
        fun v known => knownAlong there leads known⟩
  exact ⟨{
    signature := signature
    types := types ▸ List.prefix_append _ _
    unused := unused
    blocks := by
      refine ⟨_, _, nonempty, apart, r, fun a b pair => pairs a b ?_⟩
      obtain ⟨k, left, right⟩ := pair
      have right : (F.blocks.take header ++ F.blocks.drop header)[k]? = some b := right
      rw [List.take_append_drop] at right
      exact ⟨k, left, right⟩
    insts := rfl
    jumps := ⟨rfl, (fun opens => by cases opens), rfl⟩
    fits := preheaderFits x homeTail types
    tidy := fun absent => by cases absent
    params := ⟨freshParamsOnce _ _, fun id listed => by
      obtain ⟨p, fresh, rfl⟩ := List.mem_map.mp listed
      obtain ⟨k, same, -⟩ := memFreshParams fresh
      omega⟩
    declared := preheaderDeclared types
    onward := fun l onward => by
      cases List.mem_singleton.mp onward
      refine ⟨fun same => ?_, fun reached => ⟨reached, fun v known => .inl known⟩⟩
      have same : home.label = label := same
      exact unused (same ▸ List.mem_map_of_mem inside)
    used := fun id used => ⟨.inr (preheaderReads used), fun _ => .inr (preheaderReads used)⟩ },
    homeTail⟩

include clean located later unused turned in
theorem preheaderClean : Clean (F.insertBlock header (preheader f home label enc)) :=
  (preheaderDetour enc clean located later unused turned).1.clean clean

end Preheader

structure Preheaded (f : Func) (done : Func × Bool) : Prop where
  lowered : Lowered done.1
  entry : ∀ bb, done.1.blocks[0]? = some bb → ∃ a, f.blocks[0]? = some a ∧ a.label = bb.label
  same : done.2 = false → done.1 = f

inductive PreheaderStep (f : Func) : Func → Prop where
  | typed (types : List Ty) : PreheaderStep f { f with valueTypes := f.valueTypes ++ types }
  | inserted {F : Func} {header : Nat} {home : Block} {label : String} {enc : Encoding}
    (located : f.blocks[header]? = some home) (later : 0 < header) (unused : label ∉ f.labels)
    (turned : Turned home.label label (f.valueTypes ++ home.params.map Param.ty) f F) :
    PreheaderStep f (F.insertBlock header (preheader f home label enc))

section Insert
variable {encode : Func → Inst → Option Encoding}

def sentThrough (f : Func) (home : Block) (label : String) (sources : List String) : Func :=
  { f with
    blocks := f.blocks.map (turn home.label label sources)
    valueTypes := f.valueTypes ++ home.params.map Param.ty }

theorem sentThroughTurned (f : Func) (home : Block) (label : String) (sources : List String) :
    Turned home.label label (f.valueTypes ++ home.params.map Param.ty) f (sentThrough f home label sources) := by
  refine ⟨⟨rfl, List.prefix_append _ _, ?_⟩, rfl, fun a b pair => ?_⟩
  · rw [sentThrough, List.map_map]
    exact List.map_congr_left fun a _ => turnHead sources a
  · obtain ⟨k, left, right⟩ := pair
    rw [sentThrough, List.getElem?_map, left] at right
    cases right
    unfold turn
    split
    · exact .inr rfl
    · exact .inl rfl

variable (encode) in
theorem insertPreheaderFound {f : Func} (ok : WellFormed f) {e : Entry} {header : Nat} {home : Block}
    (located : f.blocks[header]? = some home) (named : home.label = e.header) :
    ∃ label ∉ f.labels, ∃ G, insertPreheader encode f e =
      match encode G (jumpTo home.label
        ((freshParams f.numValues (home.params.map Param.ty)).map fun p => .temp p.id) {}) with
      | none => ({ f with valueTypes := f.valueTypes ++ home.params.map Param.ty }, false)
      | some enc => ((sentThrough f home label e.sources).insertBlock header (preheader f home label enc), true) := by
  obtain ⟨target, sources⟩ := e
  have named : target = home.label := named.symm
  subst named
  have unused := freshLabelUnused f.labels (home.label ++ ".preheader")
  rw [← Func.newLabel] at unused
  refine ⟨_, unused, { f with valueTypes := f.valueTypes ++ home.params.map Param.ty }, ?_⟩
  unfold insertPreheader
  simp only [Func.findBlockAt ok.labels located]
  generalize f.newLabel (home.label ++ ".preheader") = label at unused ⊢
  have away : label ≠ home.label := fun same =>
    unused (same ▸ List.mem_map_of_mem (List.mem_of_getElem? located))
  rw [Func.blockAt located, Func.newParams, ← freshParams]
  dsimp only
  cases encode _ _ with
  | none => rfl
  | some enc =>
    have start : f.blocks = f.blocks.map (turn home.label label []) :=
      (List.map_id'' (fun _ => if_neg List.not_mem_nil) _).symm
    have sent := turnedSources away ok.labels ok.ended sources
      (g := { f with valueTypes := f.valueTypes ++ home.params.map Param.ty }) start
    exact congrArg (fun F : Func => (F.insertBlock header (preheader f home label enc), true)) sent

variable (encode) in
theorem insertPreheaderCases {f : Func} (ok : WellFormed f) {e : Entry}
    (other : ∀ bb, f.blocks[0]? = some bb → bb.label ≠ e.header) :
    (∃ types, insertPreheader encode f e = ({ f with valueTypes := f.valueTypes ++ types }, false) ∧
      (types = [] ∨ ∃ F label, ∃ params : List Param,
        encode F (jumpTo label (params.map fun p => .temp p.id) {}) = none)) ∨
    ∃ F header home label enc, f.blocks[header]? = some home ∧ 0 < header ∧ label ∉ f.labels ∧
      Turned home.label label (f.valueTypes ++ home.params.map Param.ty) f F ∧
      (∃ G jump, encode G jump = some enc) ∧
      insertPreheader encode f e = (F.insertBlock header (preheader f home label enc), true) := by
  cases found : f.findBlock? e.header with
  | none =>
    refine .inl ⟨[], ?_, .inl rfl⟩
    rw [insertPreheader, found, List.append_nil]
  | some header =>
    obtain ⟨home, located, named⟩ := Func.findBlockSound found
    have later : 0 < header := by
      rcases Nat.eq_zero_or_pos header with rfl | later
      · exact absurd named (other home located)
      · exact later
    obtain ⟨label, unused, G, same⟩ := insertPreheaderFound encode ok located named
    cases encoded : encode G _ with
    | none => exact .inl ⟨_, by rw [same, encoded], .inr ⟨G, _, _, encoded⟩⟩
    | some enc =>
      exact .inr ⟨_, header, home, label, enc, located, later, unused, sentThroughTurned .., ⟨G, _, encoded⟩,
        by rw [same, encoded]⟩

theorem turnedEntry {f F : Func} {old new : String} {types : List Ty} (turned : Turned old new types f F)
    {header : Nat} (later : 0 < header) (way : Block) {bb : Block}
    (first : (F.insertBlock header way).blocks[0]? = some bb) :
    ∃ a, f.blocks[0]? = some a ∧ a.label = bb.label := by
  have opening : F.blocks[0]? = some bb := (List.getElem?_insertIdx_of_lt later).symm.trans first
  have head := turned.rewrites.headAt 0
  rw [opening, Option.map_some] at head
  obtain ⟨a, there, same⟩ := Option.map_eq_some_iff.mp head.symm
  exact ⟨a, there, (Prod.mk.inj same).1⟩

variable (legal : ∀ f inst enc, encode f inst = some enc → enc.isLegal = true)
  (jumps : ∀ f label (params : List Param),
    (encode f (jumpTo label (params.map fun p => .temp p.id) {})).isSome = true)
include legal jumps

theorem insertPreheaderSound {f : Func} (ok : Lowered f) {e : Entry}
    (other : ∀ bb, f.blocks[0]? = some bb → bb.label ≠ e.header) :
    Preheaded f (insertPreheader encode f e) := by
  rcases insertPreheaderCases encode ok.clean.wellFormed other with
    ⟨types, same, rfl | ⟨F, label, params, fails⟩⟩ |
      ⟨F, header, home, label, enc, located, later, unused, turned, ⟨G, jump, encoded⟩, same⟩
  · rw [List.append_nil] at same
    exact same ▸ ⟨ok, fun bb located => ⟨bb, located, rfl⟩, fun _ => rfl⟩
  · have present := jumps F label params
    rw [fails] at present
    cases present
  · rw [same]
    have below : header < F.blocks.length := turned.length ▸ (List.getElem?_eq_some_iff.mp located).1
    refine ⟨⟨preheaderClean ok.clean located later unused turned, fun j inside => ?_⟩,
      fun bb first => turnedEntry turned later _ first, (fun no => nomatch no)⟩
    obtain ⟨b, there, listed⟩ := List.mem_flatMap.mp inside
    rcases (List.mem_insertIdx (Nat.le_of_lt below)).mp there with rfl | old
    · cases List.mem_singleton.mp listed
      exact legal G jump enc encoded
    · obtain ⟨a, origin, pair⟩ := turned.rewrites.pairOf old
      rcases turned.pairs a b pair with rfl | rfl
      · exact ok.encoded j (Func.memInsts origin listed)
      · obtain ⟨body, last, same, ends, -⟩ := ok.clean.wellFormed.ended a origin
        rw [retargetEnds same ends] at listed
        rcases List.mem_append.mp listed with early | final
        · exact ok.encoded j (Func.memInsts origin (same ▸ List.mem_append_left _ early))
        · rw [List.mem_singleton.mp final]
          exact ok.encoded last
            (Func.memInsts origin (same ▸ List.mem_append_right _ List.mem_cons_self))

theorem insertPreheadersSound (entries : List Entry) {f : Func} (ok : Lowered f)
    (other : ∀ e ∈ entries, ∀ bb, f.blocks[0]? = some bb → bb.label ≠ e.header) :
    Preheaded f (insertPreheaders encode f entries) := by
  induction entries generalizing f with
  | nil => exact ⟨ok, fun bb located => ⟨bb, located, rfl⟩, fun _ => rfl⟩
  | cons e rest ih =>
    have now := insertPreheaderSound legal jumps ok (other e List.mem_cons_self)
    have later := ih now.lowered fun e' listed bb located => by
      obtain ⟨a, first, same⟩ := now.entry bb located
      exact same ▸ other e' (List.mem_cons_of_mem _ listed) a first
    unfold insertPreheaders
    refine ⟨later.lowered, fun bb located => ?_, fun no => ?_⟩
    · obtain ⟨b, middle, same⟩ := later.entry bb located
      obtain ⟨a, first, same'⟩ := now.entry b middle
      exact ⟨a, first, same'.trans same⟩
    · obtain ⟨first, second⟩ := Bool.or_eq_false_iff.mp no
      exact (later.same second).trans (now.same first)

end Insert

end LoopInvariant
end SsaCodegen
