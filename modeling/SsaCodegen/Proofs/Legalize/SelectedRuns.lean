import SsaCodegen.Proofs.Execution.Routes
import SsaCodegen.Proofs.Legalize.Selects
/-! Selects made diamonds keep runs. One run chooses a word and writes it; the other takes the
edge to the arm that reads the same word, and finds it bound at the join. -/
namespace SsaCodegen.X64.Legalize
open Semantics

theorem readDefined {regs : Registers} {v : Value} (defined : ∀ id, v = .temp id → IsDefined regs id)
    (ty : Ty) : ∃ word, readAs regs ty v = some word := by
  cases v with
  | temp id => exact Option.isSome_iff_exists.mp (defined id rfl)
  | _ => exact ⟨_, rfl⟩

theorem readBelow {n : Nat} {regs other : Registers} (same : ∀ v < n, other v = regs v) {v : Value}
    (old : ∀ id, v = .temp id → id < n) (ty : Ty) : readAs other ty v = readAs regs ty v := by
  cases v with
  | temp id => exact same id (old id rfl)
  | _ => rfl

theorem readCondition {f : Func} {c : Value} (ty : Structure.typeOf f c .b1 = .b1) (regs : Registers)
    (ty : Ty) : readAs regs ty c = readAs regs .b1 c := by
  cases c with
  | int word => simp [Structure.typeOf, Ty.isInt, Ty.isRef] at ty
  | _ => rfl

section Select
variable {World : Type} {o : Surroundings World} {f g : Func} {sel : Inst} {id : Nat} {c x y : Value}
  (parts : Select f sel id c x y)
include parts

theorem Select.reads {regs : Registers} {test left right : Word} (condition : readAs regs .b1 c = some test)
    (first : readAs regs sel.ty x = some left) (second : readAs regs sel.ty y = some right) :
    readOperands f sel regs = some [test, left, right] := by
  simp [readOperands, parts.operands, Semantics.operandTy, parts.op, condition, first, second]

theorem Select.goes {s : State World} {test left right : Word}
    (reads : readOperands f sel s.regs = some [test, left, right]) : step o f sel s =
      .next { s with regs := write sel s.regs (if test ≠ 0 then left else right) } := by
  have plain : sel.isTerminator = false := by rw [Inst.isTerminator, parts.op]; rfl
  have computes : compute o f sel [test, left, right] = some (if test ≠ 0 then left else right) := by
    unfold compute
    rw [parts.op]
  exact stepComputes reads plain computes

theorem Select.branches {onTrue onFalse : String} {s : State World} {test : Word}
    (condition : readAs s.regs .b1 c = some test) :
    step o g (selectBranch sel onTrue onFalse) s = .exits
      (goTo g (some (if test ≠ 0 then onTrue else onFalse)) [] s) := by
  have first : sel.operand 0 = c := by simp [Inst.operand, parts.operands]
  have reads : readOperands g (selectBranch sel onTrue onFalse) s.regs = some [test] := by
    have same := (readCondition parts.condition s.regs .i64).trans condition
    simp [readOperands, selectBranch, Semantics.operandTy, first, same]
  have departs : depart g (selectBranch sel onTrue onFalse) [test] =
      .takes (if test ≠ 0 then 0 else 1) := rfl
  rw [stepTakes o rfl reads departs, takeEdgeGoes]
  split <;> rfl

end Select

section
variable {f g : Func} {before after : List Block} {cur : Block} {pre post : List Inst} {sel : Inst}
  {join onFalse onTrue : String} (clean : Clean f) (blocks : f.blocks = before ++ cur :: after)
  (insts : cur.insts = pre ++ sel :: post) (op : sel.op = .select)
  (newBlocks : g.blocks = before ++ diamond cur pre post sel join onFalse onTrue ++ after)
  (signature : g.signature = f.signature) (types : g.valueTypes = f.valueTypes)
  (apart : [join, onFalse, onTrue].Nodup) (unused : ∀ l ∈ [join, onFalse, onTrue], l ∉ f.labels)
include clean blocks insts op newBlocks signature types apart unused

theorem joinMeets {World : Type} {o : Surroundings World} {id : Nat} (result : sel.result = some id)
    {word : Word} {u v : State World} (below : Below f.numValues u v) :
    Meet o f g (runInsts o f post { u with regs := write sel u.regs word }) (.jumps
      ((g.findBlock? join).getD 0) [word] v) := by
  have ok := clean.wellFormed
  have unique := (diamondClean clean blocks insts op newBlocks signature types apart unused).wellFormed.labels
  have ext := diamondExtends clean blocks newBlocks signature types
  have inside : cur ∈ f.blocks := blocks ▸ List.mem_append_right _ List.mem_cons_self
  obtain ⟨body, last, same, whole, ends, -, plain⟩ := postEnded insts op (ok.ended cur inside)
  have there : (⟨join, sel.result.toList.map fun id => ⟨id, sel.ty⟩, post⟩ : Block) ∈ g.blocks := by
    simp [newBlocks, diamond]
  obtain ⟨k, located⟩ := List.getElem?_of_mem there
  have found : g.findBlock? join = some k := Func.findBlockAt unique located
  have home := Func.blockAt located
  have listed {i : Inst} (later : i ∈ post) : i ∈ f.insts :=
    Func.memInsts inside (insts ▸ List.mem_append_right _ (List.mem_cons_of_mem _ later))
  rw [found, Option.getD_some]
  refine .later ?_
  have enters : runBlock o g k [word] v = runInsts o g post
      { v with regs := bind [⟨id, sel.ty⟩] [word] v.regs } := by
    unfold runBlock
    simp only [home, result, Option.toList_some, List.map_cons, List.map_nil, List.length_cons,
      List.length_nil, if_true]
  rw [enters, same]
  refine instsMeet ext plain ends (fun i later w used => ok.idBelow
    ((clean.inst (listed (same ▸ later))).1.defined w used)) ⟨_, _, rfl⟩
    (fun edge s t below => edgeStays ok unique ext
      (listed (same ▸ List.mem_append_right _ List.mem_cons_self)) rfl rfl below)
    ⟨⟨below.world, below.trace⟩, fun w small => ?_⟩
  change bind [⟨id, sel.ty⟩] [word] v.regs w = write sel u.regs word w
  rw [write, result]
  by_cases own : id = w
  · subst own
    simp [Semantics.bind, assign]
  · have other : w ≠ id := Ne.symm own
    simp [Semantics.bind, assign, own, other, below.regs w small]

theorem armMeets {World : Type} {o : Surroundings World} {id : Nat} (result : sel.result = some id)
    {k : Nat} {arm : String}
    (there : (⟨arm, [], [jumpTo join [sel.operand k] sel.pos]⟩ : Block) ∈ g.blocks) {word : Word}
    {u v : State World} (below : Below f.numValues u v)
    (reads : readAs v.regs sel.ty (sel.operand k) = some word) :
    Meet o f g (runInsts o f post { u with regs := write sel u.regs word }) (goTo g (some arm) [] v) := by
  have unique := (diamondClean clean blocks insts op newBlocks signature types apart unused).wellFormed.labels
  obtain ⟨n, located⟩ := List.getElem?_of_mem there
  have home := Func.blockAt located
  have goes : goTo g (some arm) [] v = .jumps n [] v := by
    rw [goToFound (Func.findBlockAt unique located)]
    rfl
  have joined : (⟨join, sel.result.toList.map fun id => ⟨id, sel.ty⟩, post⟩ : Block) ∈ g.blocks := by
    simp [newBlocks, diamond]
  obtain ⟨m, located'⟩ := List.getElem?_of_mem joined
  have found : g.findBlock? join = some m := Func.findBlockAt unique located'
  rw [goes]
  refine .later ?_
  have onward : runBlock o g n [] v = .jumps ((g.findBlock? join).getD 0) [word] v := by
    have jumps : (g.block n).insts = [jumpTo join [sel.operand k] sel.pos] := by rw [home]
    rw [runWay jumps rfl rfl (by rw [home]; rfl)]
    have target : (jumpTo join [sel.operand k] sel.pos).targets[0]? = some join := rfl
    have passed : (jumpTo join [sel.operand k] sel.pos).argsOf 0 = [sel.operand k] := rfl
    have params : (g.block m).params = [⟨id, sel.ty⟩] := by rw [Func.blockAt located', result]; rfl
    rw [target, passed, goToFound found, found]
    have binds : bind (g.block n).params [] v.regs = v.regs := by rw [home]; rfl
    simp [params, binds, readArgs, reads]
  rw [onward]
  exact joinMeets clean blocks insts op newBlocks signature types apart unused result below

theorem diamondMeets {World : Type} {o : Surroundings World} {b c : Nat} {args words : List Word}
    {s t : State World} (alongside : Alongside f g b args s c words t) (arrived : Arrived f b s.regs)
    (home : f.block b = cur) : Meet o f g (runBlock o f b args s) (runBlock o g c words t) := by
  have ok := clean.wellFormed
  have unique := (diamondClean clean blocks insts op newBlocks signature types apart unused).wellFormed.labels
  have ext := diamondExtends clean blocks newBlocks signature types
  have inside : cur ∈ f.blocks := blocks ▸ List.mem_append_right _ List.mem_cons_self
  have listed : sel ∈ cur.insts := insts ▸ List.mem_append_right _ List.mem_cons_self
  have sound := ok.sound cur inside sel listed
  obtain ⟨id, cond, x, y, parts⟩ := selectParts sound (clean.tidy cur inside sel listed) op
  obtain ⟨-, -, -, -, -, plain, -⟩ := postEnded insts op (ok.ended cur inside)
  have first : g.block c = { cur with insts := pre ++ [selectBranch sel onTrue onFalse] } := by
    refine Func.sameOfLabel unique (List.mem_of_getElem? alongside.now) ?_ (alongside.label.trans ?_)
    · simp [newBlocks, diamond]
    · rw [home]
  have available := arrived.available ok
  rw [home, insts, Available.append] at available
  refine alongside.enter (by rw [first, home]) fun enough below => ?_
  rw [home] at enough below ⊢
  rw [first, insts]
  refine frontMeets ext plain (fun i early w used => ok.idBelow ((ok.sound cur inside i
    (insts ▸ List.mem_append_left _ early)).defined w used)) below fun u v below defined => ?_
  have read (w : Nat) (used : w ∈ sel.usedTemps) : IsDefined u.regs w :=
    (defined w).mpr ((available.2.1 w used).imp_left fun known =>
      home ▸ arrived.known (home.symm ▸ enough) (home.symm ▸ known))
  have old (w : Nat) (used : w ∈ sel.usedTemps) : w < f.numValues := ok.idBelow (sound.defined w used)
  have operand {z : Value} (listed : z ∈ sel.operands) (ty : Ty) : ∃ word, readAs u.regs ty z = some word ∧
      readAs v.regs ty z = some word := by
    have defined (w : Nat) (temp : z = .temp w) : IsDefined u.regs w :=
      read w (Inst.operandUsed (temp ▸ listed))
    obtain ⟨word, reads⟩ := readDefined defined ty
    exact ⟨word, reads, (readBelow below.regs
      (fun w temp => old w (Inst.operandUsed (temp ▸ listed))) ty).trans reads⟩
  obtain ⟨test, condition, condition'⟩ := operand (z := cond) (by simp [parts.operands]) .b1
  obtain ⟨left, chosen, chosen'⟩ := operand (z := x) (by simp [parts.operands]) sel.ty
  obtain ⟨right, other, other'⟩ := operand (z := y) (by simp [parts.operands]) sel.ty
  rw [runInsts, runInsts, parts.goes (parts.reads condition chosen other), parts.branches condition']
  dsimp only
  have arm (k : Nat) (there : (⟨if k = 1 then onTrue else onFalse, [],
      [jumpTo join [sel.operand k] sel.pos]⟩ : Block) ∈ g.blocks) {word : Word}
      (reads : readAs v.regs sel.ty (sel.operand k) = some word) := armMeets clean blocks insts op newBlocks
    signature types apart unused parts.result there (o := o) below reads
  split
  · exact arm 1 (by simp [newBlocks, diamond]) (by simpa [Inst.operand, parts.operands] using chosen')
  · exact arm 2 (by simp [newBlocks, diamond]) (by simpa [Inst.operand, parts.operands] using other')

theorem diamondRemade : Remade f g := by
  have ok := clean.wellFormed
  have cleanG := diamondClean clean blocks insts op newBlocks signature types apart unused
  have ext := diamondExtends clean blocks newBlocks signature types
  refine ⟨cleanG, fun quiet j inside => ?_, .ofMeets ok ?_ ?_⟩
  · obtain ⟨b, there, listed⟩ := List.mem_flatMap.mp inside
    rcases diamondPlaced blocks insts newBlocks there listed with old | rfl | ⟨k, -, rfl⟩
    · exact quiet j old
    · exact ⟨(fun absent => nomatch absent), fun _ => rfl, fun _ => rfl, fun _ => rfl, fun _ => rfl, fun _ => rfl⟩
    · exact jumpQuiet ..
  · rw [Func.labels, Func.labels, blocks, newBlocks]
    cases before <;> rfl
  · intro World o b args s c words t alongside arrived
    have was := List.mem_of_getElem? alongside.was
    rcases diamondCases blocks newBlocks (List.mem_of_getElem? alongside.now) with ⟨old, -⟩ | new
    · refine Rerouted.meets ok ext alongside ?_
      rw [Func.sameOfLabel ok.labels old was alongside.label]
      exact .self ok cleanG.wellFormed.labels ext was
    · refine diamondMeets clean blocks insts op newBlocks signature types apart unused alongside arrived ?_
      have inside : cur ∈ f.blocks := blocks ▸ List.mem_append_right _ List.mem_cons_self
      refine Func.sameOfLabel ok.labels was inside (alongside.label.symm.trans ?_)
      simp only [diamond, List.mem_cons, List.not_mem_nil, or_false] at new
      rcases new with same | same | same | same
      · rw [same]
      all_goals
        refine absurd (List.mem_map_of_mem was : (f.block b).label ∈ f.labels) (unused _ ?_)
        rw [← alongside.label, same]
        simp

end

theorem freshLabelsApart (used : List String) (stem : String) {join onFalse onTrue : String}
    (first : freshLabel used (stem ++ ".join") = join)
    (second : freshLabel (used ++ [join]) (stem ++ ".else") = onFalse)
    (third : freshLabel (used ++ [join] ++ [onFalse]) (stem ++ ".then") = onTrue) :
    [join, onFalse, onTrue].Nodup ∧ ∀ l ∈ [join, onFalse, onTrue], l ∉ used := by
  have a := freshLabelUnused used (stem ++ ".join")
  have b := freshLabelUnused (used ++ [join]) (stem ++ ".else")
  have c := freshLabelUnused (used ++ [join] ++ [onFalse]) (stem ++ ".then")
  rw [first] at a
  rw [second] at b
  rw [third] at c
  simp only [List.mem_append, List.mem_singleton, not_or] at b c
  refine ⟨?_, fun l listed => ?_⟩
  · simp only [List.nodup_cons, List.mem_cons, List.not_mem_nil, or_false, not_or, not_false_eq_true,
      List.nodup_nil, and_true]
    exact ⟨⟨Ne.symm b.2, Ne.symm c.1.2⟩, Ne.symm c.2⟩
  · simp only [List.mem_cons, List.not_mem_nil, or_false] at listed
    rcases listed with rfl | rfl | rfl
    · exact a
    · exact b.1
    · exact c.1.1

theorem diamondReady {f : Func} {before after : List Block} {current : Block} {rest : List Inst} {inst : Inst}
    (op : inst.op = .select) {used : List String} {join onFalse onTrue : String}
    (ready : Ready f used (before ++ { current with insts := current.insts ++ inst :: rest } :: after))
    (apart : [join, onFalse, onTrue].Nodup) (unused : ∀ l ∈ [join, onFalse, onTrue], l ∉ used) :
    Ready f (used ++ [join] ++ [onFalse] ++ [onTrue])
      (before ++ diamond current current.insts rest inst join onFalse onTrue ++ after) := by
  refine ⟨ready.made.trans (diamondRemade ready.made.clean rfl rfl op rfl rfl rfl apart
    fun l new old => unused l new (ready.used l old)), fun l listed => ?_⟩
  have noted := ready.used l
  simp only [diamond, List.map_append, List.map_cons, List.map_nil, List.mem_append,
    List.mem_cons, List.not_mem_nil, or_false] at listed noted ⊢
  rcases listed with (left | same | third | second | first) | right
  · exact .inl (.inl (.inl (noted (.inl left))))
  · exact .inl (.inl (.inl (noted (.inr (.inl same)))))
  · exact .inr third
  · exact .inl (.inr second)
  · exact .inl (.inl (.inr first))
  · exact .inl (.inl (.inl (noted (.inr (.inr right)))))

theorem splitAtSelectsReady {f : Func} {after : List Block} {insts : List Inst} :
    ∀ {before : List Block} {current : Block} {used : List String},
      Ready f used (before ++ { current with insts := current.insts ++ insts } :: after) →
      Ready f (splitAtSelects used current insts).2
        (before ++ ((splitAtSelects used current insts).1 ++ after)) := by
  induction insts with
  | nil =>
    intro before current used ready
    rw [List.append_nil] at ready
    exact ready
  | cons inst rest ih =>
    intro before current used ready
    unfold splitAtSelects
    split
    · rename_i select
      have op : inst.op = .select := by
        simp only [isFloatSelect, Bool.and_eq_true, beq_iff_eq] at select
        exact select.1
      dsimp only
      generalize first : freshLabel used (current.label ++ ".join") = join
      generalize second : freshLabel (used ++ [join]) (current.label ++ ".else") = onFalse
      generalize third : freshLabel (used ++ [join] ++ [onFalse]) (current.label ++ ".then") = onTrue
      obtain ⟨apart, unused⟩ := freshLabelsApart used current.label first second third
      have split := diamondReady op ready apart unused
      have parted : before ++ diamond current current.insts rest inst join onFalse onTrue ++ after =
          (before ++ [{ current with insts := current.insts ++ [selectBranch inst onTrue onFalse] },
            ⟨onTrue, [], [jumpTo join [inst.operand 1] inst.pos]⟩,
            ⟨onFalse, [], [jumpTo join [inst.operand 2] inst.pos]⟩]) ++
          ⟨join, inst.result.toList.map fun id => ⟨id, inst.ty⟩, [] ++ rest⟩ :: after := by
        simp [diamond]
      rw [parted] at split
      have done := @ih _ ⟨join, inst.result.toList.map fun id => ⟨id, inst.ty⟩, []⟩ _ split
      rw [List.append_assoc before] at done
      exact done
    · exact @ih before { current with insts := current.insts ++ [inst] } used (by simpa using ready)

theorem expandSelectsFromReady {f : Func} {blocks : List Block} :
    ∀ {before : List Block} {used : List String}, Ready f used (before ++ blocks) →
      ∃ used', Ready f used' (before ++ expandSelectsFrom used blocks) := by
  induction blocks with
  | nil => exact fun {before used} ready => ⟨used, ready⟩
  | cons bb rest ih =>
    intro before used ready
    have now : Ready f (splitAtSelects used { bb with insts := [] } bb.insts).2
        (before ++ ((splitAtSelects used { bb with insts := [] } bb.insts).1 ++ rest)) :=
      splitAtSelectsReady ready
    rw [← List.append_assoc] at now
    obtain ⟨used', done⟩ := ih now
    rw [List.append_assoc] at done
    exact ⟨used', done⟩

theorem expandFloatSelectsRemade {f : Func} (clean : Clean f) : Remade f (expandFloatSelects f) := by
  obtain ⟨used, ready⟩ := expandSelectsFromReady (.start clean)
  exact ready.made

end SsaCodegen.X64.Legalize
