import SsaCodegen.Proofs.Execution.Equations
import SsaCodegen.Proofs.Execution.Stutter
import SsaCodegen.Proofs.Ir.Quiet
import SsaCodegen.Proofs.Ir.Reshape
/-! Edges that go another way. Where an edge leads through a block that only jumps on, a run
comes to the same block with the same words as before, one block later. -/
namespace SsaCodegen.Semantics
variable {World : Type} {o : Surroundings World} {f g : Func}

def taken (params : List Param) (words : List Word) : List Word :=
  List.zipWith (fun p w => p.ty.canonical w) params words

theorem takenTwice {params others : List Param} (types : others.map Param.ty = params.map Param.ty)
    (words : List Word) : taken params (taken others words) = taken params words := by
  unfold taken
  induction params generalizing others words with
  | nil => rfl
  | cons p params ih =>
    cases others with
    | nil => cases types
    | cons q others =>
      obtain ⟨ty, types⟩ := List.cons.inj types
      cases words with
      | nil => rfl
      | cons w words =>
        simp only [List.zipWith_cons_cons, ty, Ty.canonicalTwice, ih types]

structure SameWords (params : List Param) (args words : List Word) : Prop where
  length : words.length = args.length
  values : taken params words = taken params args

theorem SameWords.refl (params : List Param) (args : List Word) : SameWords params args args := ⟨rfl, rfl⟩

theorem bindWords {params : List Param} {args words : List Word} (same : SameWords params args words)
    {regs other : Registers} {v : Nat} (held : other v = regs v) :
    bind params words other v = bind params args regs v := by
  obtain ⟨length, values⟩ := same
  unfold taken at values
  unfold bind
  induction params generalizing args words with
  | nil => exact held
  | cons p params ih =>
    cases args with
    | nil =>
      cases List.eq_nil_of_length_eq_zero length
      exact held
    | cons a args =>
      cases words with
      | nil => cases length
      | cons w words =>
        obtain ⟨first, rest⟩ := List.cons.inj values
        rw [List.zip_cons_cons, List.zip_cons_cons, List.find?_cons, List.find?_cons]
        cases own : p.id == v with
        | true => exact congrArg some first
        | false => exact ih (Nat.succ.inj length) rest

theorem bindAt {params : List Param} (once : (params.map Param.id).Nodup) {words : List Word}
    {regs : Registers} {k : Nat} {p : Param} {w : Word} (param : params[k]? = some p)
    (word : words[k]? = some w) : bind params words regs p.id = some (p.ty.canonical w) := by
  unfold bind
  induction params generalizing words k with
  | nil => cases param
  | cons q params ih =>
    obtain ⟨other, once⟩ := List.nodup_cons.mp once
    cases words with
    | nil => cases word
    | cons u words =>
      rw [List.zip_cons_cons, List.find?_cons]
      cases k with
      | zero =>
        cases param
        cases word
        rw [beq_self_eq_true]
      | succ k =>
        have apart : (q.id == p.id) = false := by
          refine beq_false_of_ne fun same => other ?_
          exact same ▸ List.mem_map_of_mem (List.mem_of_getElem? param)
        rw [apart]
        exact ih once param word

structure Below (n : Nat) (s t : State World) : Prop extends Beside s t where
  regs : ∀ v < n, t.regs v = s.regs v

structure Alongside (f g : Func) (b : Nat) (args : List Word) (s : State World) (c : Nat)
    (words : List Word) (t : State World) : Prop extends Below f.numValues s t where
  was : f.blocks[b]? = some (f.block b)
  now : g.blocks[c]? = some (g.block c)
  label : (g.block c).label = (f.block b).label
  args : SameWords (f.block b).params args words

def Meet (o : Surroundings World) (f g : Func) (x y : Exit World) : Prop :=
  ∃ k, ExitsMeet (Alongside f g) x (after o g k y)

theorem Meet.later {x : Exit World} {c : Nat} {words : List Word} {t : State World}
    (meet : Meet o f g x (runBlock o g c words t)) : Meet o f g x (.jumps c words t) := by
  obtain ⟨k, exits⟩ := meet
  exact ⟨k + 1, exits⟩

theorem Meet.ends {ending : Ending} {s t : State World} (beside : Beside s t) :
    Meet o f g (.ends ending s) (.ends ending t) := ⟨0, .ends beside⟩

theorem Alongside.enter {b c : Nat} {args words : List Word} {s t : State World}
    (alongside : Alongside f g b args s c words t) (params : (g.block c).params = (f.block b).params)
    (meets : args.length = (f.block b).params.length →
      Below f.numValues { s with regs := bind (f.block b).params args s.regs }
        { t with regs := bind (f.block b).params words t.regs } →
      Meet o f g (runInsts o f (f.block b).insts { s with regs := bind (f.block b).params args s.regs })
        (runInsts o g (g.block c).insts { t with regs := bind (f.block b).params words t.regs })) :
    Meet o f g (runBlock o f b args s) (runBlock o g c words t) := by
  unfold runBlock
  dsimp only
  rw [params, alongside.args.length]
  split
  · rename_i enough
    exact meets enough ⟨⟨alongside.world, alongside.trace⟩, fun v small =>
      bindWords alongside.args (alongside.regs v small)⟩
  · exact .ends alongside.toBeside

def goTo (f : Func) (label : Option String) (args : List Value) (s : State World) : Exit World :=
  match label.bind f.findBlock? with
  | none => .ends .stuck s
  | some b =>
    match readArgs (f.block b).params args s.regs with
    | none => .ends .stuck s
    | some words => .jumps b words s

theorem goToFound {label : String} {b : Nat} (found : f.findBlock? label = some b) (args : List Value)
    (s : State World) : goTo f (some label) args s =
      ((readArgs (f.block b).params args s.regs).map fun words => .jumps b words s).getD (.ends .stuck s) := by
  unfold goTo
  rw [Option.bind_some, found]
  dsimp only
  cases readArgs (f.block b).params args s.regs <;> rfl

theorem takeEdgeGoes (inst : Inst) (edge : Nat) (s : State World) :
    takeEdge f inst edge s = goTo f inst.targets[edge]? (inst.argsOf edge) s := rfl

theorem readArgsBelow {n : Nat} {args : List Value} (old : ∀ id, .temp id ∈ args → id < n)
    {regs other : Registers} (same : ∀ v < n, other v = regs v) {params others : List Param}
    (types : others.map Param.ty = params.map Param.ty) :
    readArgs others args other = readArgs params args regs := by
  have length : others.length = params.length := by
    rw [← List.length_map Param.ty, types, List.length_map]
  refine mapMSame (by simp [length]) fun k a b left right => ?_
  obtain ⟨v, p⟩ := a
  obtain ⟨w, q⟩ := b
  obtain ⟨arg, param⟩ := List.getElem?_zip_eq_some.mp left
  obtain ⟨arg', param'⟩ := List.getElem?_zip_eq_some.mp right
  cases arg.symm.trans arg'
  have ty := congrArg (·[k]?) types
  simp only [List.getElem?_map, param, param', Option.map_some, Option.some.injEq] at ty
  dsimp only
  rw [ty]
  cases v with
  | temp id => exact same id (old id (List.mem_of_getElem? arg))
  | _ => rfl

theorem readArgsLength {params : List Param} {args : List Value} {regs : Registers} {words : List Word}
    (reads : readArgs params args regs = some words) (enough : args.length = params.length) :
    words.length = params.length := by
  have length := (mapMIff.mp reads).1
  rwa [List.length_zip, enough, Nat.min_self] at length

theorem readBound {params others : List Param} (once : (params.map Param.id).Nodup) {words : List Word}
    (enough : words.length = params.length) (length : params.length = others.length) (regs : Registers) :
    readArgs others (params.map fun p => .temp p.id) (bind params words regs) = some (taken params words) := by
  refine mapMIff.mpr ⟨by simp [taken, enough, length], fun k a located => ?_⟩
  obtain ⟨v, p⟩ := a
  obtain ⟨temp, -⟩ := List.getElem?_zip_eq_some.mp located
  rw [List.getElem?_map] at temp
  obtain ⟨q, param, rfl⟩ := Option.map_eq_some_iff.mp temp
  have below : k < words.length := enough ▸ (List.getElem?_eq_some_iff.mp param).1
  have word := List.getElem?_eq_getElem below
  refine (bindAt once param word).trans ?_
  rw [taken, List.getElem?_zipWith, param, word]

section Homes
variable (labels : f.labels.Nodup) (unique : g.labels.Nodup) (x : Extends f g)
include labels unique x

theorem homeIndex {a : Block} (inside : a ∈ f.blocks.tail) : ∃ b c, f.findBlock? a.label = some b ∧
    g.findBlock? a.label = some c ∧ f.block b = a ∧ (g.block c).params = a.params ∧
    f.blocks[b]? = some (f.block b) ∧ g.blocks[c]? = some (g.block c) ∧
    (g.block c).label = (f.block b).label := by
  obtain ⟨a', there, named, params⟩ := x.homes a inside
  obtain ⟨b, was⟩ := List.getElem?_of_mem (List.mem_of_mem_tail inside)
  obtain ⟨c, now⟩ := List.getElem?_of_mem (List.mem_of_mem_tail there)
  have old := Func.blockAt was
  have new := Func.blockAt now
  refine ⟨b, c, Func.findBlockAt labels was, named ▸ Func.findBlockAt unique now, old, ?_, ?_, ?_, ?_⟩
  · rw [new, params]
  · rw [was, old]
  · rw [now, new]
  · rw [new, old, named]

theorem goAlike {a : Block} (inside : a ∈ f.blocks.tail) {args others : List Value} {s t : State World}
    (below : Below f.numValues s t)
    (reads : readArgs a.params others t.regs = readArgs a.params args s.regs) :
    Meet o f g (goTo f (some a.label) args s) (goTo g (some a.label) others t) := by
  obtain ⟨b, c, found, found', located, params, was, now, label⟩ := homeIndex labels unique x inside
  rw [goToFound found, goToFound found', located, params, reads]
  cases readArgs a.params args s.regs with
  | none => exact .ends below.toBeside
  | some words => exact ⟨0, .jumps ⟨below, was, now, label, .refl _ _⟩⟩

theorem goStraight {a : Block} (inside : a ∈ f.blocks.tail) {args : List Value}
    (old : ∀ id, .temp id ∈ args → id < f.numValues) {s t : State World} (below : Below f.numValues s t) :
    Meet o f g (goTo f (some a.label) args s) (goTo g (some a.label) args t) :=
  goAlike labels unique x inside below (readArgsBelow old below.regs rfl)

end Homes

theorem runWay {c : Nat} {jump : Inst} (insts : (g.block c).insts = [jump]) (op : jump.op = .jump)
    (empty : jump.operands = []) {words : List Word} (enough : words.length = (g.block c).params.length)
    (t : State World) : runBlock o g c words t =
      goTo g jump.targets[0]? (jump.argsOf 0)
        { t with regs := bind (g.block c).params words t.regs } := by
  have reads (regs : Registers) : readOperands g jump regs = some [] := by rw [readOperands, empty]; rfl
  have last : jump.isTerminator = true := by rw [Inst.isTerminator, op]; rfl
  have departs : depart g jump [] = .takes 0 := by unfold depart; rw [op]
  unfold runBlock
  dsimp only
  rw [if_pos enough, insts, runInsts, stepTakes o last (reads _) departs]
  rfl

section Ways
variable (labels : f.labels.Nodup) (unique : g.labels.Nodup) (x : Extends f g) {a way : Block}
  (inside : a ∈ f.blocks.tail) (there : way ∈ g.blocks) {jump : Inst} (insts : way.insts = [jump])
  (op : jump.op = .jump) (empty : jump.operands = []) (target : jump.targets = [a.label])
  {args : List Value} (old : ∀ id, .temp id ∈ args → id < f.numValues) {s t : State World}
  (below : Below f.numValues s t)
include labels unique x inside there insts op empty target old below

theorem goAround (params : way.params = []) (passed : jump.targetArgs = [args]) :
    Meet o f g (goTo f (some a.label) args s) (goTo g (some way.label) [] t) := by
  obtain ⟨c, located⟩ := List.getElem?_of_mem there
  have wayBlock := Func.blockAt located
  have goes : goTo g (some way.label) [] t = .jumps c [] t := by
    rw [goToFound (Func.findBlockAt unique located)]
    rfl
  rw [goes]
  refine .later ?_
  rw [runWay (wayBlock ▸ insts) op empty (by rw [wayBlock, params]; rfl), wayBlock, params, target]
  have passes : jump.argsOf 0 = args := by rw [Inst.argsOf, passed]; rfl
  rw [passes]
  exact goStraight labels unique x inside old below

theorem goThrough (fresh : ∀ id ∈ way.paramIds, f.numValues ≤ id) (once : way.paramIds.Nodup)
    (types : way.params.map Param.ty = a.params.map Param.ty)
    (passed : jump.targetArgs = [way.params.map fun p => .temp p.id]) (count : args.length = a.params.length) :
    Meet o f g (goTo f (some a.label) args s) (goTo g (some way.label) args t) := by
  obtain ⟨b, h, found, found', located, params, was, now, label⟩ := homeIndex labels unique x inside
  obtain ⟨c, located'⟩ := List.getElem?_of_mem there
  have wayBlock := Func.blockAt located'
  have length : way.params.length = a.params.length := by
    rw [← List.length_map Param.ty, types, List.length_map]
  have reads : readArgs way.params args t.regs = readArgs a.params args s.regs :=
    readArgsBelow old below.regs types
  rw [goToFound found, goToFound (Func.findBlockAt unique located'), located, wayBlock, reads]
  cases given : readArgs a.params args s.regs with
  | none => exact .ends below.toBeside
  | some words =>
    have enough : words.length = way.params.length := (readArgsLength given count).trans length.symm
    refine .later ?_
    rw [runWay (wayBlock ▸ insts) op empty (by rw [wayBlock, enough]), wayBlock, target]
    have passes : jump.argsOf 0 = way.params.map fun p => .temp p.id := by rw [Inst.argsOf, passed]; rfl
    have again := readBound once enough length t.regs
    have goes (u : State World) (regs : u.regs = bind way.params words t.regs) :
        goTo g ([a.label] : List String)[0]? (jump.argsOf 0) u =
          .jumps h (taken way.params words) u := by
      rw [List.getElem?_cons_zero, goToFound found', params, passes, regs, again]
      rfl
    rw [goes _ rfl]
    refine ⟨0, .jumps ⟨⟨⟨below.world, below.trace⟩, fun v small => ?_⟩, was, now, label, ?_⟩⟩
    · refine (bindOther fun param => ?_).trans (below.regs v small)
      have large := fresh v param
      omega
    · exact located ▸ ⟨by simp [taken, enough], takenTwice types words⟩

end Ways

theorem compareTySame {i j : Inst} (operands : j.operands = i.operands)
    (typed : ∀ id, .temp id ∈ i.operands → g.valueType id = f.valueType id) :
    compareTy g j = compareTy f i := by
  have inside {k id : Nat} (temp : i.operand k = .temp id) : .temp id ∈ i.operands := by
    rw [Inst.operand, List.getD_eq_getElem?_getD] at temp
    cases located : i.operands[k]? with
    | none => simp [located] at temp
    | some v =>
      rw [located, Option.getD_some] at temp
      exact temp ▸ List.mem_of_getElem? located
  have same (k : Nat) : j.operand k = i.operand k := by rw [Inst.operand, operands, Inst.operand]
  unfold compareTy
  rw [same, same]
  cases first : i.operand 0 with
  | temp id => exact typed id (inside first)
  | _ =>
    cases second : i.operand 1 with
    | temp id => exact typed id (inside second)
    | _ => rfl

theorem Alike.ofExtends (x : Extends f g) {i j : Inst} (old : ∀ id ∈ i.usedTemps, id < f.numValues)
    (same : ∃ targets args, j = { i with targets := targets, targetArgs := args }) : Alike f g i j := by
  obtain ⟨targets, args, rfl⟩ := same
  have typed (id : Nat) (operand : .temp id ∈ i.operands) : g.valueType id = f.valueType id :=
    x.valueType (old id (Inst.operandUsed operand))
  refine ⟨rfl, rfl, rfl, fun _ => rfl, rfl, rfl, rfl, rfl, fun _ => compareTySame rfl typed, ?_⟩
  exact List.map_congr_left fun v operand =>
    Structure.typeOfSame (fun id temp => typed id (temp ▸ operand)) _

structure Rerouted (f g : Func) (a b : Block) : Prop where
  params : b.params = a.params
  exit : ∃ body last targets args, a.insts = body ++ [last] ∧
    b.insts = body ++ [{ last with targets := targets, targetArgs := args }] ∧
    ∀ (World : Type) (o : Surroundings World) (edge : Nat) (s t : State World), Below f.numValues s t →
      Meet o f g (takeEdge f last edge s)
        (takeEdge g { last with targets := targets, targetArgs := args } edge t)

theorem Below.wrote {n : Nat} {i : Inst} {s t u v : State World} {word : Word} (below : Below n s t)
    (beside : Beside u v) (left : u.regs = write i s.regs word) (right : v.regs = write i t.regs word) :
    Below n u v := by
  refine ⟨beside, fun w small => ?_⟩
  rw [left, right]
  by_cases own : i.result = some w
  · simp [write, own, assign]
  · rw [writeOther own, writeOther own, below.regs w small]

theorem plainMeets {i j : Inst} {rest others : List Inst} (alike : Alike f g i j)
    (plain : i.isTerminator = false) {s t : State World} (below : Below f.numValues s t)
    (reads : readOperands g j t.regs = readOperands f i s.regs)
    (meets : ∀ u v : State World, Below f.numValues u v →
      (∀ w, IsDefined u.regs w ↔ IsDefined s.regs w ∨ i.result = some w) →
      Meet o f g (runInsts o f rest u) (runInsts o g others v)) :
    Meet o f g (runInsts o f (i :: rest) s) (runInsts o g (j :: others) t) := by
  rw [runInsts, runInsts]
  rcases plainStep (o := o) alike plain below.toBeside reads with
    ⟨word, u, v, goes, goes', beside, left, right⟩ | ⟨ending, u, v, ends, ends', beside⟩
  · rw [goes, goes']
    exact meets u v (below.wrote beside left right) fun w => stepDefines goes
  · rw [ends, ends']
    exact .ends beside

theorem lastMeets {i j : Inst} {rest others : List Inst} (alike : Alike f g i j)
    (ends : i.isTerminator = true) {s t : State World} (beside : Beside s t)
    (reads : readOperands g j t.regs = readOperands f i s.regs)
    (edges : ∀ edge, Meet o f g (takeEdge f i edge s) (takeEdge g j edge t)) :
    Meet o f g (runInsts o f (i :: rest) s) (runInsts o g (j :: others) t) := by
  rw [runInsts, runInsts]
  rcases lastStep (o := o) alike ends beside reads with
    ⟨words, edge, -, -, takes, takes'⟩ | ⟨ending, u, v, ends, ends', beside⟩
  · rw [takes, takes']
    exact edges edge
  · rw [ends, ends']
    exact .ends beside

section Blocks
variable (ok : WellFormed f) (x : Extends f g)
include x

theorem readsBelow {i j : Inst} (old : ∀ id ∈ i.usedTemps, id < f.numValues)
    (same : ∃ targets args, j = { i with targets := targets, targetArgs := args }) {s t : State World}
    (below : Below f.numValues s t) : readOperands g j t.regs = readOperands f i s.regs := by
  have alike : Alike f g i j := .ofExtends x old same
  obtain ⟨targets, args, rfl⟩ := same
  have operands : readOperands f i t.regs = readOperands f i s.regs :=
    readSame fun id used => below.regs id (old id used)
  rw [← operands]
  unfold readOperands
  rw [alike.operandTy x.signature]

theorem frontMeets {front rest others : List Inst} (plain : ∀ i ∈ front, i.isTerminator = false)
    (old : ∀ i ∈ front, ∀ id ∈ i.usedTemps, id < f.numValues) {s t : State World}
    (below : Below f.numValues s t)
    (meets : ∀ u v : State World, Below f.numValues u v →
      (∀ w, IsDefined u.regs w ↔ IsDefined s.regs w ∨ ∃ i ∈ front, i.result = some w) →
      Meet o f g (runInsts o f rest u) (runInsts o g others v)) :
    Meet o f g (runInsts o f (front ++ rest) s) (runInsts o g (front ++ others) t) := by
  induction front generalizing s t with
  | nil => exact meets s t below fun w => by simp
  | cons i front ih =>
    have self : ∃ targets args, i = { i with targets := targets, targetArgs := args } := ⟨_, _, rfl⟩
    have first := old i List.mem_cons_self
    refine plainMeets (.ofExtends x first self) (plain i List.mem_cons_self) below
      (readsBelow x first self below) fun u v below defined => ?_
    refine ih (fun j later => plain j (List.mem_cons_of_mem _ later))
      (fun j later => old j (List.mem_cons_of_mem _ later)) below fun u' v' below' defined' => ?_
    exact meets u' v' below' fun w => by simp [defined' w, defined w, or_assoc]

theorem instsMeet {body : List Inst} {last last' : Inst} (plain : ∀ i ∈ body, i.isTerminator = false)
    (ends : last.isTerminator = true)
    (old : ∀ i ∈ body ++ [last], ∀ id ∈ i.usedTemps, id < f.numValues)
    (same : ∃ targets args, last' = { last with targets := targets, targetArgs := args })
    (edges : ∀ edge (s t : State World), Below f.numValues s t →
      Meet o f g (takeEdge f last edge s) (takeEdge g last' edge t)) {s t : State World}
    (below : Below f.numValues s t) :
    Meet o f g (runInsts o f (body ++ [last]) s) (runInsts o g (body ++ [last']) t) := by
  have final := old last (List.mem_append_right _ List.mem_cons_self)
  refine frontMeets x plain (fun i listed => old i (List.mem_append_left _ listed)) below
    fun u v below _ => ?_
  exact lastMeets (.ofExtends x final same) ends below.toBeside (readsBelow x final same below)
    fun edge => edges edge u v below

include ok

theorem Rerouted.meets {b c : Nat} {args words : List Word} {s t : State World}
    (alongside : Alongside f g b args s c words t) (rerouted : Rerouted f g (f.block b) (g.block c)) :
    Meet o f g (runBlock o f b args s) (runBlock o g c words t) := by
  obtain ⟨params, body, last, targets, args', old, new, edges⟩ := rerouted
  have inside := List.mem_of_getElem? alongside.was
  obtain ⟨body', last', same, ends, plain⟩ := ok.ended _ inside
  obtain ⟨rfl, single⟩ := List.append_inj' (old.symm.trans same) rfl
  cases List.singleton_inj.mp single
  refine alongside.enter params fun enough bound => ?_
  rw [old, new]
  refine instsMeet x plain ends (fun i listed id used => ?_) ⟨_, _, rfl⟩ (edges World o) bound
  exact ok.idBelow ((ok.sound _ inside i (old ▸ listed)).defined id used)

end Blocks

section Edges
variable (ok : WellFormed f)
include ok

theorem edgeAt {last : Inst} (inside : last ∈ f.insts) {edge : Nat} {l : String}
    (named : last.targets[edge]? = some l) : ∃ a ∈ f.blocks.tail, a.label = l ∧
      (last.argsOf edge).length = a.params.length ∧ ∀ id, .temp id ∈ last.argsOf edge → id < f.numValues := by
  obtain ⟨bb, there, listed⟩ := List.mem_flatMap.mp inside
  have sound := ok.sound bb there last listed
  have lengths := sound.lists (List.ne_nil_of_mem (List.mem_of_getElem? named))
  have below : edge < last.targetArgs.length := lengths ▸ (List.getElem?_eq_some_iff.mp named).1
  have located := List.getElem?_eq_getElem below
  have args : last.argsOf edge = last.targetArgs[edge] := by
    rw [Inst.argsOf, List.getD_eq_getElem?_getD, located, Option.getD_some]
  obtain ⟨a, home, same, length, -⟩ : EdgeFits f l last.targetArgs[edge] := sound.edges (l, last.targetArgs[edge])
    (List.mem_of_getElem? (List.getElem?_zip_eq_some.mpr ⟨named, located⟩))
  rw [args]
  exact ⟨a, home, same, length, fun id arg =>
    ok.idBelow (sound.defined id (Inst.argUsed (List.getElem_mem below) arg))⟩

variable (unique : g.labels.Nodup) (x : Extends f g)
include unique x

theorem edgeStays {last : Inst} (inside : last ∈ f.insts) {targets : List String}
    {args : List (List Value)} {edge : Nat} (target : targets[edge]? = last.targets[edge]?)
    (passed : args.getD edge [] = last.argsOf edge) {s t : State World} (below : Below f.numValues s t) :
    Meet o f g (takeEdge f last edge s)
      (takeEdge g { last with targets := targets, targetArgs := args } edge t) := by
  change Meet o f g (goTo f last.targets[edge]? (last.argsOf edge) s)
    (goTo g targets[edge]? (args.getD edge []) t)
  rw [target, passed]
  cases named : last.targets[edge]? with
  | none => exact .ends below.toBeside
  | some l =>
    obtain ⟨a, home, rfl, -, old⟩ := edgeAt ok inside named
    exact goStraight ok.labels unique x home old below

theorem Rerouted.self {a : Block} (inside : a ∈ f.blocks) : Rerouted f g a a := by
  obtain ⟨body, last, same, -⟩ := ok.ended a inside
  have listed : last ∈ f.insts :=
    Func.memInsts inside (same ▸ List.mem_append_right _ List.mem_cons_self)
  exact ⟨rfl, body, last, last.targets, last.targetArgs, same, same, fun _ _ _ _ _ below =>
    edgeStays ok unique x listed rfl rfl below⟩

end Edges
end SsaCodegen.Semantics

namespace SsaCodegen
open Semantics

theorem SameRuns.ofMeets {f g : Func} (ok : WellFormed f) (entry : g.labels.head? = f.labels.head?)
    (meets : ∀ (World : Type) (o : Surroundings World) b args (s : State World) c words t,
      Alongside f g b args s c words t → Arrived f b s.regs →
      Meet o f g (runBlock o f b args s) (runBlock o g c words t)) : SameRuns f g := by
  intro World o args world n
  obtain ⟨a, rest, opens⟩ := ok.entry
  have first : f.blocks[0]? = some a := by simp [opens.blocks]
  rw [Func.labels, Func.labels, opens.blocks, List.map_cons, List.head?_cons, List.head?_map,
    List.head?_eq_getElem?, Option.map_eq_some_iff] at entry
  obtain ⟨b, first', named⟩ := entry
  refine runBlocksMeet
    (fun b args s c words t => Alongside f g b args s c words t ∧ Arrived f b s.regs)
    (fun _ _ _ _ _ _ related => related.1.toBeside) (fun b args s c words t related => ?_) n
    ⟨?_, Arrived.start ok _⟩
  · obtain ⟨k, exits⟩ := meets World o b args s c words t related.1 related.2
    refine ⟨k, ?_⟩
    cases leaves : runBlock o f b args s with
    | ends ending u =>
      rw [leaves] at exits
      generalize after o g k _ = y at exits ⊢
      cases exits with
      | ends beside => exact .ends beside
    | jumps b' args' u =>
      have next := related.2.next ok leaves
      rw [leaves] at exits
      generalize after o g k _ = y at exits ⊢
      cases exits with
      | jumps alongside => exact .jumps ⟨alongside, next⟩
  · have left := Func.blockAt first
    have right := Func.blockAt first'
    exact ⟨⟨⟨rfl, rfl⟩, fun v small => rfl⟩, by rw [first, left], by rw [first', right],
      by rw [left, right, named], .refl _ _⟩

theorem SameRuns.ofRoutes {f g : Func} (ok : WellFormed f) (x : Extends f g)
    (entry : g.labels.head? = f.labels.head?)
    (blocks : ∀ a ∈ f.blocks, ∀ b ∈ g.blocks, b.label = a.label → Rerouted f g a b) : SameRuns f g :=
  .ofMeets ok entry fun _ _ _ _ _ _ _ _ alongside _ => Rerouted.meets ok x alongside
    (blocks _ (List.mem_of_getElem? alongside.was) _ (List.mem_of_getElem? alongside.now) alongside.label)

structure Remade (f g : Func) : Prop where
  clean : Clean g
  quiet : Quiet f → Quiet g
  runs : SameRuns f g

theorem Remade.refl {f : Func} (clean : Clean f) : Remade f f := ⟨clean, id, .refl f⟩

theorem Remade.trans {f g h : Func} (first : Remade f g) (second : Remade g h) : Remade f h :=
  ⟨second.clean, fun quiet => second.quiet (first.quiet quiet), first.runs.trans second.runs⟩

structure Ready (f : Func) (used : List String) (blocks : List Block) : Prop where
  made : Remade f { f with blocks := blocks }
  used : ∀ l ∈ blocks.map Block.label, l ∈ used

theorem Ready.start {f : Func} (clean : Clean f) : Ready f f.labels ([] ++ f.blocks) :=
  ⟨.refl clean, fun _ listed => listed⟩

end SsaCodegen
