import Mathlib.Data.List.Forall2
import Mathlib.Order.Bounds.Basic
import SsaCodegen.Proofs.Flow.Labels
import SsaCodegen.Proofs.Layout.Assignments
/-! The least layout. Near branches only ever move blocks apart, so a branch that is too short in one layout is too
short in every layout with more near branches. Relaxation makes near what has to be, and so it ends at the least
choice in which every short branch reaches its block. -/
namespace SsaCodegen
namespace X64
open Layout

section Places
variable {f : Func}

def startOf (f : Func) (blocks : List Block) (b : Nat) : Nat := codeSize f ((blocks.take b).flatMap Block.insts)

def displacement (f : Func) (blocks : List Block) (b : Nat) (insts : List Inst) (k behind t : Nat) : Int :=
  (startOf f blocks t : Int) - ((startOf f blocks b + codeSize f (insts.take (k + 1)) : Nat) - behind)

def Reaching (f : Func) (near : Choice) : Prop :=
  let blocks := chooseBlocks near f.blocks
  ∀ b bb k i, blocks[b]? = some bb → bb.insts[k]? = some i →
    ∀ edge label behind t, (edge, label, behind) ∈ branchEdges i → i.enc.form edge = .short →
      f.findBlock? label = some t → fitsInt8 (displacement f blocks b bb.insts k behind t) = true

theorem startOfLater {blocks : List Block} {t b : Nat} (later : t ≤ b) : startOf f blocks b =
    startOf f blocks t + codeSize f (((blocks.take b).drop t).flatMap Block.insts) := by
  rw [startOf, startOf, ← codeSizeAppend, ← List.flatMap_append]
  have first : (blocks.take b).take t = blocks.take t := by rw [List.take_take, Nat.min_eq_left later]
  rw [← first, List.take_append_drop]

theorem startOfNext {blocks : List Block} {b : Nat} {bb : Block} (there : blocks[b]? = some bb) :
    startOf f blocks (b + 1) = startOf f blocks b + codeSize f bb.insts := by
  rw [startOf, startOf, List.take_add_one, there, List.flatMap_append, codeSizeAppend]
  simp

theorem codeSizeNext {insts : List Inst} {k : Nat} {i : Inst} (there : insts[k]? = some i) :
    codeSize f (insts.take (k + 1)) = codeSize f (insts.take k) + instructionSize f i := by
  rw [List.take_add_one, there, codeSizeAppend]
  rfl

theorem codeSizeSplit (insts : List Inst) (k : Nat) :
    codeSize f insts = codeSize f (insts.take k) + codeSize f (insts.drop k) := by
  rw [← codeSizeAppend, List.take_append_drop]

theorem displacementAhead {blocks : List Block} {b k behind t : Nat} {bb : Block} (block : blocks[b]? = some bb)
    (later : b < t) : displacement f blocks b bb.insts k behind t =
      (codeSize f (bb.insts.drop (k + 1)) + codeSize f (((blocks.take t).drop (b + 1)).flatMap Block.insts) +
        behind : Nat) := by
  have start : startOf f blocks t = startOf f blocks (b + 1) + _ := startOfLater later
  have body := codeSizeSplit (f := f) bb.insts (k + 1)
  rw [startOfNext block] at start
  unfold displacement
  omega

theorem displacementBack {blocks : List Block} {insts : List Inst} {b k behind t : Nat} {i : Inst}
    (inst : insts[k]? = some i) (earlier : t ≤ b) : displacement f blocks b insts k behind t =
      behind - (codeSize f (((blocks.take b).drop t).flatMap Block.insts) + codeSize f (insts.take k) +
        instructionSize f i : Nat) := by
  have start : startOf f blocks b = startOf f blocks t + _ := startOfLater earlier
  have ends := codeSizeNext (f := f) inst
  unfold displacement
  omega

end Places

section Stretching
variable {f : Func} {next : Option String}

theorem chosenInstsStretched {near more : Nat → Edge → Bool} (le : near ≤ more) (insts : List Inst) :
    List.Forall₂ (Stretched f) (chooseInsts next near insts) (chooseInsts next more insts) := by
  induction insts generalizing near more with
  | nil => exact .nil
  | cons i rest ih => exact .cons (chosenStretched next i (le 0)) (ih fun k => le (k + 1))

theorem chosenBlocksStretched {near more : Choice} (le : near ≤ more) (blocks : List Block) :
    List.Forall₂ (fun bb cc => List.Forall₂ (Stretched f) bb.insts cc.insts)
      (chooseBlocks near blocks) (chooseBlocks more blocks) := by
  induction blocks generalizing near more with
  | nil => exact .nil
  | cons bb rest ih => exact .cons (chosenInstsStretched (le 0) bb.insts) (ih fun b => le (b + 1))

theorem codeSizeStretched {insts insts' : List Inst} (stretched : List.Forall₂ (Stretched f) insts insts') :
    codeSize f insts ≤ codeSize f insts' := by
  induction stretched with
  | nil => exact Nat.le_refl _
  | cons first _ ih => exact Nat.add_le_add first.size ih

theorem codeSizeBlocks {blocks blocks' : List Block}
    (stretched : List.Forall₂ (fun bb cc => List.Forall₂ (Stretched f) bb.insts cc.insts) blocks blocks') :
    codeSize f (blocks.flatMap Block.insts) ≤ codeSize f (blocks'.flatMap Block.insts) := by
  induction stretched with
  | nil => exact Nat.le_refl _
  | cons first _ ih =>
    rw [List.flatMap_cons, List.flatMap_cons, codeSizeAppend, codeSizeAppend]
    exact Nat.add_le_add (codeSizeStretched first) ih

theorem startsLater {near more : Choice} (le : near ≤ more) (blocks : List Block) (b : Nat) :
    startOf f (chooseBlocks near blocks) b ≤ startOf f (chooseBlocks more blocks) b :=
  codeSizeBlocks (List.forall₂_take b (chosenBlocksStretched le blocks))

theorem displacementGrows {blocks blocks' : List Block}
    (stretched : List.Forall₂ (fun bb cc => List.Forall₂ (Stretched f) bb.insts cc.insts) blocks blocks')
    {b k : Nat} {bb bb' : Block} {i i' : Inst} {behind behind' : Nat}
    (block : blocks[b]? = some bb) (block' : blocks'[b]? = some bb')
    (insts : List.Forall₂ (Stretched f) bb.insts bb'.insts)
    (inst : bb.insts[k]? = some i) (inst' : bb'.insts[k]? = some i')
    (inside : behind ≤ instructionSize f i) (after : behind ≤ behind')
    (ahead : instructionSize f i + behind' ≤ instructionSize f i' + behind) (t : Nat)
    (fits : fitsInt8 (displacement f blocks' b bb'.insts k behind' t) = true) :
    fitsInt8 (displacement f blocks b bb.insts k behind t) = true := by
  rcases Nat.lt_or_ge b t with later | earlier
  · have rest := codeSizeStretched (List.forall₂_drop (k + 1) insts)
    have between := codeSizeBlocks (List.forall₂_drop (b + 1) (List.forall₂_take t stretched))
    rw [displacementAhead block' later] at fits
    rw [displacementAhead block later]
    simp only [fitsInt8, Bool.and_eq_true, decide_eq_true_eq] at fits ⊢
    omega
  · have first := codeSizeStretched (List.forall₂_take k insts)
    have between := codeSizeBlocks (List.forall₂_drop t (List.forall₂_take b stretched))
    rw [displacementBack inst' earlier] at fits
    rw [displacementBack inst earlier]
    simp only [fitsInt8, Bool.and_eq_true, decide_eq_true_eq] at fits ⊢
    omega

end Stretching

section Rounds
variable {f : Func}

def laid (f : Func) (near : Choice) : Func :=
  { f with
    blocks := chooseBlocks near f.blocks
    blockOffsets := startsFrom 0 ((chooseBlocks near f.blocks).map (blockSize f)) }

theorem headersChosen (near : Choice) (old : List Nat) :
    SameHeaders f { f with blocks := chooseBlocks near f.blocks, blockOffsets := old } :=
  ⟨rfl, rfl, rfl, rfl, rfl, (chosenHeaders near f.blocks).1.symm, (chosenHeaders near f.blocks).2.symm⟩

theorem headersLaid (near : Choice) : SameHeaders f (laid f near) := headersChosen ..

theorem startsAt {blocks : List Block} {b : Nat} (inside : b < blocks.length) :
    (startsFrom 0 (blocks.map (blockSize f)))[b]? = some (startOf f blocks b) := by
  rw [startsFromTake ((List.length_map _).symm ▸ inside), ← List.map_take, endFromBlocks, Nat.zero_add]
  rfl

theorem beyondIff {near : Choice} {label : String} {branchEnd : Int} : beyond (laid f near) label branchEnd = true ↔
    ∃ t, f.findBlock? label = some t ∧
      fitsInt8 ((startOf f (chooseBlocks near f.blocks) t : Int) - branchEnd) = false := by
  unfold beyond
  rw [← (headersLaid near).findBlock? label]
  cases found : f.findBlock? label with
  | none => simp
  | some t =>
    obtain ⟨bb, there, -⟩ := Func.findBlockSound found
    have inside : t < (chooseBlocks near f.blocks).length :=
      (chosenLength near f.blocks).symm ▸ (List.getElem?_eq_some_iff.mp there).1
    have start : (laid f near).blockOffsets[t]? = some (startOf f (chooseBlocks near f.blocks) t) := startsAt inside
    simp [start]

theorem farInstsIff {g : Func} {offset k : Nat} {insts : List Inst} {edge : Edge} :
    farInsts g offset insts k edge = true ↔
      ∃ i, insts[k]? = some i ∧ offset + codeSize g (insts.take (k + 1)) ≤ lastOffset ∧
        far g (offset + codeSize g (insts.take (k + 1))) i edge = true := by
  induction insts generalizing offset k with
  | nil => simp [farInsts]
  | cons i rest ih =>
    cases k with
    | zero => simp [farInsts, codeSize]
    | succ k =>
      rw [farInsts, ih, List.getElem?_cons_succ, List.take_succ_cons, Nat.add_assoc]
      rfl

theorem farBlocksIff {g : Func} {offset b k : Nat} {blocks : List Block} {edge : Edge} :
    farBlocks g offset blocks b k edge = true ↔ ∃ bb i, blocks[b]? = some bb ∧ bb.insts[k]? = some i ∧
      offset + startOf g blocks b + codeSize g (bb.insts.take (k + 1)) ≤ lastOffset ∧
      far g (offset + startOf g blocks b + codeSize g (bb.insts.take (k + 1))) i edge = true := by
  induction blocks generalizing offset b with
  | nil => simp [farBlocks]
  | cons bb rest ih =>
    cases b with
    | zero => simp [farBlocks, farInstsIff, startOf, codeSize]
    | succ b =>
      have start : startOf g (bb :: rest) (b + 1) = blockSize g bb + startOf g rest b := by
        rw [startOf, List.take_succ_cons, List.flatMap_cons, codeSizeAppend]
        rfl
      rw [farBlocks, ih, List.getElem?_cons_succ, start, ← Nat.add_assoc]

def grow (f : Func) (near : Choice) : Choice :=
  fun b k edge => near b k edge || farBlocks (laid f near) 0 (chooseBlocks near f.blocks) b k edge

theorem growLater (near : Choice) : near ≤ grow f near := by
  intro b k edge
  unfold grow
  cases near b k edge <;> simp

theorem farIff {near : Choice} {b k : Nat} {edge : Edge} :
    farBlocks (laid f near) 0 (chooseBlocks near f.blocks) b k edge = true ↔
      ∃ bb i label behind t, (chooseBlocks near f.blocks)[b]? = some bb ∧ bb.insts[k]? = some i ∧
        startOf f (chooseBlocks near f.blocks) b + codeSize f (bb.insts.take (k + 1)) ≤ lastOffset ∧
        (edge, label, behind) ∈ branchEdges i ∧ i.enc.form edge = .short ∧ f.findBlock? label = some t ∧
        fitsInt8 (displacement f (chooseBlocks near f.blocks) b bb.insts k behind t) = false := by
  have sizes (insts : List Inst) : codeSize (laid f near) insts = codeSize f insts :=
    (codeSizeSame (headersLaid near) insts).symm
  simp only [farBlocksIff, far, List.any_eq_true, Bool.and_eq_true, beq_iff_eq, beyondIff, sizes, startOf,
    displacement, Nat.zero_add, Prod.exists]
  constructor
  · rintro ⟨bb, i, block, inst, addressed, edge', label, behind, listed, rfl, short, t, found, beyond⟩
    exact ⟨bb, i, label, behind, t, block, inst, addressed, listed, short, found, beyond⟩
  · rintro ⟨bb, i, label, behind, t, block, inst, addressed, listed, short, found, beyond⟩
    exact ⟨bb, i, block, inst, addressed, edge, label, behind, listed, rfl, short, t, found, beyond⟩

theorem widenLaid (near : Choice) :
    widenBlocks (laid f near) 0 (chooseBlocks near f.blocks) = chooseBlocks (grow f near) f.blocks :=
  widenBlocksChosen ..

theorem chosenPlace {near : Choice} {blocks : List Block} {b k : Nat} {bb : Block} {i : Inst}
    (block : (chooseBlocks near blocks)[b]? = some bb) (inst : bb.insts[k]? = some i) :
    ∃ next insts j, bb.insts = chooseInsts next (near b) insts ∧ i = chooseInst next (near b k) j ∧
      ∀ more : Choice, ∃ bb', (chooseBlocks more blocks)[b]? = some bb' ∧
        bb'.insts = chooseInsts next (more b) insts ∧ bb'.insts[k]? = some (chooseInst next (more b k) j) := by
  rw [chosenBlockAt] at block
  obtain ⟨source, there, rfl⟩ := Option.map_eq_some_iff.mp block
  rw [chosenInstAt] at inst
  obtain ⟨j, place, rfl⟩ := Option.map_eq_some_iff.mp inst
  refine ⟨_, source.insts, j, rfl, rfl, fun more => ⟨_, by rw [chosenBlockAt, there]; rfl, rfl, ?_⟩⟩
  rw [chosenInstAt, place]
  rfl

theorem reachesBelow {near more : Choice} (le : near ≤ more) (reaching : Reaching f more) {b k t : Nat} {edge : Edge}
    (kept : more b k edge = false) {bb : Block} {i : Inst} {label : String} {behind : Nat}
    (block : (chooseBlocks near f.blocks)[b]? = some bb) (inst : bb.insts[k]? = some i)
    (listed : (edge, label, behind) ∈ branchEdges i) (short : i.enc.form edge = .short)
    (found : f.findBlock? label = some t) :
    fitsInt8 (displacement f (chooseBlocks near f.blocks) b bb.insts k behind t) = true := by
  obtain ⟨next, insts, j, body, rfl, other⟩ := chosenPlace block inst
  obtain ⟨bb', block', body', inst'⟩ := other more
  have short' : (chooseInst next (more b k) j).enc.form edge = .short := by
    rw [chosenOpen listed short, kept]
    rfl
  obtain ⟨inside, behind', listed', after, ahead⟩ := (chosenStretched (f := f) next j (le b k)).edges _ _ _ listed
  have stretched : List.Forall₂ (Stretched f) bb.insts bb'.insts :=
    body ▸ body' ▸ chosenInstsStretched (le b) insts
  exact displacementGrows (chosenBlocksStretched le f.blocks) block block' stretched inst inst' inside after ahead t
    (reaching b bb' k _ block' inst' edge label behind' t listed' short' found)

theorem growBelow {near more : Choice} (le : near ≤ more) (reaching : Reaching f more) : grow f near ≤ more := by
  intro b k edge
  unfold grow
  cases widened : farBlocks (laid f near) 0 (chooseBlocks near f.blocks) b k edge with
  | false => exact (Bool.or_false _).symm ▸ le b k edge
  | true =>
    obtain ⟨bb, i, label, behind, t, block, inst, -, listed, short, found, beyond⟩ := farIff.mp widened
    cases wide : more b k edge with
    | true => exact Bool.le_true _
    | false =>
      have fits := reachesBelow le reaching wide block inst listed short found
      exact absurd fits (by simp [beyond])

theorem leastReaching (f : Func) : ∃ least, IsLeast {near | Reaching f near} least := by
  classical
  let least : Choice := fun b k edge => decide (∀ near, Reaching f near → near b k edge = true)
  have below {near : Choice} (reaching : Reaching f near) : least ≤ near := by
    intro b k edge
    cases always : least b k edge with
    | false => exact Bool.false_le _
    | true => exact (of_decide_eq_true always near reaching).symm ▸ le_rfl
  refine ⟨least, fun b bb k i block inst edge label behind t listed short found => ?_, fun _ => below⟩
  have kept : least b k edge = false := by
    obtain ⟨next, insts, j, -, rfl, -⟩ := chosenPlace block inst
    have form := chosenOpen listed short (least b k)
    rw [short] at form
    cases chosen : least b k edge with
    | false => rfl
    | true =>
      rw [chosen] at form
      cases form
  obtain ⟨near, reaching, kept'⟩ : ∃ near, Reaching f near ∧ near b k edge = false := by
    simpa only [least, decide_eq_false_iff_not, not_forall, Bool.not_eq_true, exists_prop] using kept
  exact reachesBelow (below reaching) reaching kept' block inst listed short found

def codeEnd (f : Func) (near : Choice) : Nat := codeSize f ((chooseBlocks near f.blocks).flatMap Block.insts)

theorem codeEndLater {near more : Choice} (le : near ≤ more) : codeEnd f near ≤ codeEnd f more :=
  codeSizeBlocks (chosenBlocksStretched le f.blocks)

theorem endsInside {blocks : List Block} {b k : Nat} {bb : Block} (there : blocks[b]? = some bb) :
    startOf f blocks b + codeSize f (bb.insts.take (k + 1)) ≤ codeSize f (blocks.flatMap Block.insts) := by
  have next := startOfNext (f := f) there
  have body := codeSizeSplit (f := f) bb.insts (k + 1)
  have whole : startOf f blocks blocks.length = startOf f blocks (b + 1) + _ :=
    startOfLater (List.getElem?_eq_some_iff.mp there).1
  rw [startOf, List.take_length] at whole
  omega

theorem settledReaching {near : Choice} (addressed : codeEnd f near ≤ lastOffset)
    (settled : chooseBlocks (grow f near) f.blocks = chooseBlocks near f.blocks) : Reaching f near := by
  intro b bb k i block inst edge label behind t listed short found
  by_contra beyond
  have grown : grow f near b k edge = true := by
    rw [grow, farIff.mpr ⟨bb, i, label, behind, t, block, inst, (endsInside block).trans addressed,
      listed, short, found,
      by simpa using beyond⟩, Bool.or_true]
  -- the branch is short, but widening makes it near
  obtain ⟨next, insts, j, -, rfl, other⟩ := chosenPlace block inst
  obtain ⟨bb', block', -, inst'⟩ := other (grow f near)
  rw [settled, block] at block'
  cases block'
  have same := Option.some.inj (inst.symm.trans inst')
  have form := chosenOpen listed short (grow f near b k)
  rw [← same, short, grown] at form
  cases form

def shortsLeft (f : Func) (near : Choice) : Nat := shorts ((chooseBlocks near f.blocks).flatMap Block.insts)

theorem growShorts {near : Choice} (unsettled : chooseBlocks (grow f near) f.blocks ≠ chooseBlocks near f.blocks) :
    shortsLeft f (grow f near) < shortsLeft f near := by
  obtain ⟨-, same⟩ := chosenBlocksShorts (growLater (f := f) near) f.blocks
  exact Nat.lt_of_not_le fun still => unsettled (same still)

def atRound (f : Func) (near : Choice) (old : List Nat) : Func :=
  { f with blocks := chooseBlocks near f.blocks, blockOffsets := old }

theorem startsIff {blocks : List Block} {start : Nat} : start ∈ startsFrom 0 (blocks.map (blockSize f)) ↔
    ∃ b < blocks.length, startOf f blocks b = start := by
  rw [List.mem_iff_getElem?]
  constructor
  · rintro ⟨b, there⟩
    have inside := (List.getElem?_eq_some_iff.mp there).1
    rw [lengthStarts, List.length_map] at inside
    exact ⟨b, inside, Option.some.inj ((startsAt inside).symm.trans there)⟩
  · rintro ⟨b, inside, rfl⟩
    exact ⟨b, startsAt inside⟩

def Within (limit : Nat) (f : Func) (near : Choice) : Prop :=
  ∀ b < f.blocks.length, startOf f (chooseBlocks near f.blocks) b ≤ limit

theorem Within.less {limit : Nat} {near more : Choice} (within : Within limit f more) (le : near ≤ more) :
    Within limit f near := fun b inside => (startsLater le f.blocks b).trans (within b inside)

theorem sizesAtRound (near : Choice) (old : List Nat) :
    (atRound f near old).blocks.map (blockSize (atRound f near old)) =
      (chooseBlocks near f.blocks).map (blockSize f) :=
  List.map_congr_left fun bb _ => (blockSizeSame (headersChosen near old) bb).symm

theorem relaxBeyond {limit : Nat} {near : Choice} (beyond : ¬ Within limit f near) (old : List Nat) :
    ∃ g, ∀ rounds, relax limit (rounds + 1) (atRound f near old) = (g, .error (.codeExceeds f.name limit)) := by
  simp only [Within, not_forall, Nat.not_le] at beyond
  obtain ⟨b, inside, beyond⟩ := beyond
  have listed : startOf f (chooseBlocks near f.blocks) b ∈
      startsFrom 0 ((chooseBlocks near f.blocks).map (blockSize f)) :=
    startsIff.mpr ⟨b, (chosenLength near f.blocks).symm ▸ inside, rfl⟩
  obtain ⟨offsets, placed⟩ := placeBeyond old listed beyond
  rw [← sizesAtRound near old] at placed
  refine ⟨atRound f near offsets, fun rounds => ?_⟩
  rw [relax, show (atRound f near old).blockOffsets = old from rfl, placed]
  rfl

theorem relaxWithin {limit : Nat} {near : Choice} (within : Within limit f near) (rounds : Nat) (old : List Nat) :
    relax limit (rounds + 1) (atRound f near old) =
      if chooseBlocks (grow f near) f.blocks = chooseBlocks near f.blocks then (laid f near, .ok (codeEnd f near))
      else relax limit rounds (atRound f (grow f near) (laid f near).blockOffsets) := by
  have placed : placeBlocks limit 0 ((chooseBlocks near f.blocks).map (blockSize f)) old =
      ((laid f near).blockOffsets, some (codeEnd f near)) := by
    rw [placeWithin, endFromBlocks, Nat.zero_add]
    · rfl
    · intro start listed
      obtain ⟨b, inside, rfl⟩ := startsIff.mp listed
      exact within b (chosenLength near f.blocks ▸ inside)
  rw [← sizesAtRound near old] at placed
  rw [relax, show (atRound f near old).blockOffsets = old from rfl, placed]
  change (if (widenBlocks (laid f near) 0 (chooseBlocks near f.blocks) == chooseBlocks near f.blocks) = true then
    (laid f near, .ok (codeEnd f near)) else relax limit rounds
      { laid f near with blocks := widenBlocks (laid f near) 0 (chooseBlocks near f.blocks) }) = _
  simp only [widenLaid, beq_iff_eq]
  rfl

theorem relaxTerminates {limit rounds : Nat} {near : Choice} (enough : shortsLeft f near < rounds) (extra : Nat)
    (old : List Nat) : relax limit (rounds + extra) (atRound f near old) = relax limit rounds (atRound f near old) := by
  induction rounds generalizing near old with
  | zero => cases enough
  | succ rounds ih =>
    rw [Nat.succ_add]
    by_cases within : Within limit f near
    · rw [relaxWithin within, relaxWithin within]
      by_cases settled : chooseBlocks (grow f near) f.blocks = chooseBlocks near f.blocks
      · rw [if_pos settled, if_pos settled]
      · rw [if_neg settled, if_neg settled]
        have fewer := growShorts settled
        exact ih (by omega) _
    · obtain ⟨g, failed⟩ := relaxBeyond within old
      rw [failed, failed]

theorem relaxLeast (limit : Nat) {rounds : Nat} {near least : Choice} (isLeast : IsLeast {near | Reaching f near} least)
    (below : near ≤ least) (enough : shortsLeft f near < rounds) (old : List Nat) :
    (Within limit f least ∧ codeEnd f least ≤ lastOffset →
      relax limit rounds (atRound f near old) = (laid f least, .ok (codeEnd f least))) ∧
    (¬ (Within limit f least ∧ codeEnd f least ≤ lastOffset) →
      (∃ g, relax limit rounds (atRound f near old) = (g, .error (.codeExceeds f.name limit))) ∨
      ∃ more, lastOffset < codeEnd f more ∧
        relax limit rounds (atRound f near old) = (laid f more, .ok (codeEnd f more))) := by
  induction rounds generalizing near old with
  | zero => cases enough
  | succ rounds ih =>
    by_cases within : Within limit f near
    · rw [relaxWithin within]
      by_cases settled : chooseBlocks (grow f near) f.blocks = chooseBlocks near f.blocks
      · rw [if_pos settled]
        rcases Nat.lt_or_ge lastOffset (codeEnd f near) with outgrown | addressed
        · have more := outgrown.trans_le (codeEndLater below)
          exact ⟨fun fits => absurd fits.2 (Nat.not_le.mpr more), fun _ => .inr ⟨near, outgrown, rfl⟩⟩
        · obtain rfl : near = least := le_antisymm below (isLeast.2 (settledReaching addressed settled))
          exact ⟨fun _ => rfl, fun beyond => absurd ⟨within, addressed⟩ beyond⟩
      · rw [if_neg settled]
        have fewer := growShorts settled
        exact ih (growBelow below isLeast.1) (by omega) _
    · obtain ⟨g, failed⟩ := relaxBeyond within old
      exact ⟨fun fits => absurd (fits.1.less below) within, fun _ => .inl ⟨g, failed rounds⟩⟩

end Rounds

def layoutSize (f : Func) (near : Choice) : Nat := poolOffset f.constants (codeEnd f near) + 8 * f.constants.length

def unrelaxed (f : Func) : Func :=
  { f with
    blocks := initBlocks f.blocks
    blockOffsets := List.replicate f.blocks.length 0 }

theorem unrelaxedRound (f : Func) :
    unrelaxed f = atRound f (fun _ _ _ => false) (List.replicate f.blocks.length 0) := by
  rw [unrelaxed, initialBlocks]
  rfl

theorem roundsEnough (f : Func) (near : Choice) : shortsLeft f near < roundsFor f := by
  have twice := shortsTwice ((chooseBlocks near f.blocks).flatMap Block.insts)
  rw [lengthFlat] at twice
  exact Nat.lt_succ_of_le twice

theorem poolOffsetLater {constants : List (BitVec 64)} {a b : Nat} (later : a ≤ b) :
    poolOffset constants a ≤ poolOffset constants b := by
  unfold poolOffset poolAlignment
  split <;> omega

theorem layoutSizeLater {f : Func} {near more : Choice} (le : near ≤ more) : layoutSize f near ≤ layoutSize f more :=
  Nat.add_le_add_right (poolOffsetLater (codeEndLater le)) _

theorem codeEndSize (f : Func) (near : Choice) : codeEnd f near ≤ layoutSize f near :=
  (poolOffsetBehind f.constants _).trans (Nat.le_add_right ..)

theorem withinSize {limit : Nat} {f : Func} {near : Choice} (small : layoutSize f near ≤ limit) :
    Within limit f near := by
  intro b inside
  have code : startOf f (chooseBlocks near f.blocks) b ≤ codeEnd f near := by
    have whole : startOf f (chooseBlocks near f.blocks) f.blocks.length =
      startOf f (chooseBlocks near f.blocks) b + _ := startOfLater (Nat.le_of_lt inside)
    have all : startOf f (chooseBlocks near f.blocks) f.blocks.length = codeEnd f near := by
      rw [startOf, List.take_of_length_le (Nat.le_of_eq (chosenLength ..))]
      rfl
    omega
  exact code.trans ((codeEndSize f near).trans small)

theorem relaxedAtLeast (limits : Limits) {f : Func} {least : Choice}
    (isLeast : IsLeast {near | Reaching f near} least) :
    (layoutSize f least ≤ limits.functionLimit →
      let pool := poolOffset f.constants (codeEnd f least)
      relaxBranches limits f = ({ laid f least with constantPoolOffset := pool },
        .ok ⟨pool, 0, 8 * f.constants.length, layoutSize f least⟩)) ∧
    (limits.functionLimit < layoutSize f least →
      ∃ g e, relaxBranches limits f = (g, .error e) ∧ e.kind = .codeTooLarge) := by
  have below : (fun _ _ _ => false) ≤ least := fun _ _ _ => Bool.false_le _
  have addressed : limits.functionLimit ≤ lastOffset := Nat.le_of_lt_succ (BitVec.isLt _)
  have relaxed := relaxLeast limits.functionLimit isLeast below (roundsEnough f _)
    (List.replicate f.blocks.length 0)
  rw [← unrelaxedRound] at relaxed
  unfold unrelaxed at relaxed
  constructor
  · intro small
    have fits := And.intro (withinSize small) ((codeEndSize f least).trans (small.trans addressed))
    simp only [relaxBranches, relaxed.1 fits]
    exact if_neg (Nat.not_lt.mpr small)
  · intro large
    by_cases fits : Within limits.functionLimit f least ∧ codeEnd f least ≤ lastOffset
    · simp only [relaxBranches, relaxed.1 fits]
      exact ⟨_, _, if_pos large, rfl⟩
    · rcases relaxed.2 fits with ⟨g, failed⟩ | ⟨more, outgrown, ended⟩
      · simp only [relaxBranches, failed]
        exact ⟨_, _, rfl, rfl⟩
      · have large : limits.functionLimit < layoutSize f more :=
          addressed.trans_lt (outgrown.trans_le (codeEndSize f more))
        simp only [relaxBranches, ended]
        exact ⟨_, _, if_pos large, rfl⟩

/-- Relaxation ends, with the least choice of near branches in which every short branch reaches its block, and so
with code no larger than in any other; only if that choice is too large for the limit does it fail. -/
theorem relaxationFindsLeast (limits : Limits) (f : Func) :
    (∀ extra, relax limits.functionLimit (roundsFor f + extra) (unrelaxed f) =
      relax limits.functionLimit (roundsFor f) (unrelaxed f)) ∧
    ∃ least, IsLeast {near | Reaching f near} least ∧
      (∀ near, Reaching f near → layoutSize f least ≤ layoutSize f near) ∧
      (layoutSize f least ≤ limits.functionLimit →
        let pool := poolOffset f.constants (codeEnd f least)
        relaxBranches limits f = ({ laid f least with constantPoolOffset := pool },
          .ok ⟨pool, 0, 8 * f.constants.length, layoutSize f least⟩)) ∧
      (limits.functionLimit < layoutSize f least →
        ∃ g e, relaxBranches limits f = (g, .error e) ∧ e.kind = .codeTooLarge) := by
  obtain ⟨least, isLeast⟩ := leastReaching f
  obtain ⟨fits, large⟩ := relaxedAtLeast limits isLeast
  refine ⟨fun extra => ?_, least, isLeast, fun near reaching => layoutSizeLater (isLeast.2 reaching), fits, large⟩
  rw [unrelaxedRound]
  exact relaxTerminates (roundsEnough f _) extra _

end X64
end SsaCodegen
