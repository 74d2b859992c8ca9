import SsaCodegen.Proofs.Layout.FrameLaid
import SsaCodegen.Proofs.Lowering.Calculations
import SsaCodegen.Proofs.Lowering.Confined
import SsaCodegen.Proofs.Verify.Locations
/-! The frame of a function while it runs. The prologue saves what the epilogue of a return restores. The slots
lie below the saved registers, so code that keeps to its own reaches nothing of what was saved. -/
namespace SsaCodegen.X64
open FrameLayout (savedRegs frameBytes layOutSlots prologueInst)

theorem allocatableGeneral {n : Nat} (allocatable : registerFile.isAllocatable n = true) :
    n < slotKeyBase ∧ (registerFile.class? n = some .gpr → n ∈ registerFile.allocatableGpr) := by
  have all : ∀ n ∈ registerFile.allocatableGpr ++ registerFile.allocatableFpr,
      n < slotKeyBase ∧ (registerFile.class? n = some .gpr → n ∈ registerFile.allocatableGpr) := by decide
  refine all n ?_
  simpa [RegisterFile.isAllocatable] using allocatable

structure Allocated (f : Func) : Prop where
  placed : ∀ v ∈ f.definedIds, SsaCodegen.Placed registerFile f v
  params : ∀ p ∈ (f.block 0).params, f.valueType p.id = p.ty

theorem allocatedOf {f : Func} (verified : verifyFunction f = []) (located : verifyLocations registerFile f = []) :
    Allocated f where
  placed := (locatedIff.mp located).placed
  params p listed := by
    have ok := verifiedIff.mp verified
    obtain ⟨entry, rest, fits⟩ := ok.entry
    rw [Func.block, fits.blocks] at listed
    have declared := (ok.declared entry (fits.blocks ▸ List.mem_cons_self)).params p listed
    rw [Func.valueType, List.getD_eq_getElem?_getD, declared, Option.getD_some]

section Prologue
variable {limits : Limits} {f g : Func} (laid : FrameLaid limits f g) (allocated : Allocated f)
include laid allocated

theorem entryCopiesWritable : ∀ c ∈ Lower.entryCopies g (g.block 0), Harmless.WritableKey g c.cls c.dst := by
  obtain ⟨entry, rest, blocks, blocks'⟩ := laid.blocks
  have params : (g.block 0).params = entry.params := by
    rw [Func.block, blocks']
    rfl
  intro c inside
  rw [Lower.entryCopies, params] at inside
  obtain ⟨⟨p, src⟩, paired, made⟩ := List.mem_filterMap.mp inside
  have listed : p ∈ entry.params := (List.of_mem_zip paired).1
  have there : entry ∈ f.blocks := blocks ▸ List.mem_cons_self
  have ty : f.valueType p.id = p.ty := allocated.params p (by rwa [Func.block, blocks])
  have defined : p.id ∈ f.definedIds := Func.memDefinedIds.mpr ⟨entry, there,
    List.mem_append_left _ (List.mem_map_of_mem listed)⟩
  have home := allocated.placed p.id defined
  have same : g.location p.id = f.location p.id := by rw [Func.location, laid.locations, Func.location]
  obtain ⟨-, copy⟩ := Option.ite_none_right_eq_some.mp made
  cases copy
  show Harmless.WritableKey g p.ty.regClass (locationKey (g.location p.id))
  unfold SsaCodegen.Placed at home
  rw [same]
  cases located : f.location p.id with
  | unassigned => rw [located] at home; exact home.elim
  | slot s =>
    rw [located] at home
    rw [locationKey, Harmless.WritableKey, if_pos (Nat.le_add_right ..), Nat.add_sub_cancel_left, laid.slotCount]
    exact home
  | reg n =>
    rw [located, ty] at home
    obtain ⟨register, general⟩ := allocatableGeneral home.1
    rw [locationKey, Harmless.WritableKey, if_neg (Nat.not_le.mpr register)]
    exact fun cls => placeFree (same.trans located) (general (cls ▸ home.2))

end Prologue

theorem assignedInteger {α : Type} {ty : α → Ty} {xs : List α} {ints floats : List Nat} {x : α} {r : Nat}
    (paired : (x, r) ∈ xs.zip (assignByClass ints floats (xs.map ty))) (plain : (ty x).isFloat = false) :
    r ∈ ints ∨ r = 0 := by
  have head (ints : List Nat) : ints.headD 0 ∈ ints ∨ ints.headD 0 = 0 := by
    cases ints with
    | nil => exact .inr rfl
    | cons n rest => exact .inl List.mem_cons_self
  induction xs generalizing ints floats with
  | nil => cases paired
  | cons y rest ih =>
    rw [List.map_cons, assignByClass] at paired
    split at paired
    · next float =>
      rcases List.mem_cons.mp paired with same | later
      · cases same
        exact absurd (plain.symm.trans float) Bool.false_ne_true
      · exact ih later
    · rcases List.mem_cons.mp paired with same | later
      · cases same
        exact head ints
      · exact (ih later).imp_left List.mem_of_mem_tail

theorem returnsHarmless (f : Func) (inst : Inst) : Harmless f ((inst.operands.zip
    (returnRegs (inst.operands.map (operandTy f)))).flatMap fun (v, r) =>
      if (operandTy f v).isFloat then Lower.loadXmm f r v else Lower.loadGpr f r v (operandTy f v).isWide) := by
  refine Harmless.flatMap fun (v, r) paired => ?_
  dsimp only
  split
  · exact Harmless.loadLocation (fun same => RegClass.noConfusion same) _
  · next plain =>
    refine Harmless.loadGpr (callerFree ?_) v _
    have known : ∀ r ∈ [rax, rdx, 0], gprOf r ≠ gprOf rsp ∧ gprOf r ≠ gprOf rbp ∧
        registerFile.isCalleeSaved (gprOf r).val = false := by decide
    refine known r ?_
    rcases assignedInteger paired (Bool.not_eq_true _ ▸ plain) with given | absent
    · exact List.mem_append_left [0] given
    · exact absent ▸ List.mem_append_right [rax, rdx] List.mem_cons_self

structure Entered (g : Func) (p q : Processor) : Prop where
  stack : q.regs (gprOf rsp) = p.regs (gprOf rsp) -
    BitVec.ofNat 64 (8 * (g.frame.savedRegs.length + 1) + g.frame.spillAreaSize)
  base : q.regs (gprOf rbp) = p.regs (gprOf rsp) - 8
  saved : Saved q.toMachine p.regs (p.regs (gprOf rsp)) (gprOf rbp :: g.frame.savedRegs.map gprOf)
  kept : ∀ r : Gpr, registerFile.isCalleeSaved r.val = true → r.val ∉ g.frame.savedRegs → q.regs r = p.regs r
  address : q.word (p.regs (gprOf rsp)) = p.word (p.regs (gprOf rsp))

theorem calleePlain {r : Gpr} (saved : registerFile.isCalleeSaved r.val = true) : r ≠ gprOf rsp ∧ r ≠ gprOf rbp := by
  revert r
  decide

section Running
variable {limits : Limits} {f g : Func} (laid : FrameLaid limits f g) (small : limits.frameLimit < 2 ^ 31)
include laid

theorem savedSmall : g.frame.savedRegs.length ≤ 5 := by
  have listed : g.frame.savedRegs ⊆ registerFile.calleeSaved := fun r inside => by
    have saved := ((laid.savedIff r).mp inside).1
    simpa [RegisterFile.isCalleeSaved] using saved
  exact laid.savedNodup.length_le_of_subset listed

include small

theorem frameSmall : slotBytes * (g.frame.savedRegs.length + g.stackSlots.length) < 2 ^ 31 := by
  have fill := laid.slotsFill
  have limit := laid.small
  simp only [frameBytes, slotBytes] at fill limit ⊢
  omega

theorem slotDistance {p : Processor} {s : Nat} (below : s < g.stackSlots.length) : p.slotAddress g s =
    p.regs (gprOf rbp) - BitVec.ofNat 64 (8 * (g.frame.savedRegs.length + s + 1)) := by
  have fits := frameSmall laid small
  simp only [slotBytes] at fits
  have slots : g.stackSlots = layOutSlots (savedRegs f.locations).length f.stackSlots := laid.slots
  have saved : (savedRegs f.locations).length = g.frame.savedRegs.length := by rw [laid.frame]
  have apart : SlotsApart g := laidOutApart slots (by rw [saved, ← laid.slotCount, slotBytes]; omega)
  have reach := Machine.dispReach apart below
  rw [laid.slotOffset small below] at reach
  rw [Machine.slotAddress, Machine.address]
  generalize (Lower.slotDisp g s).signExtend 64 = x at *
  generalize hk : 8 * (g.frame.savedRegs.length + s + 1) = k at *
  have far : k < 2 ^ 31 := by omega
  rw [BitVec.toInt_eq_toNat_cond] at reach
  have word : x.toNat = (2 ^ 64 - k) % 2 ^ 64 := by
    split at reach <;> omega
  refine BitVec.eq_of_toNat_eq ?_
  rw [BitVec.toNat_add, BitVec.toNat_sub, word, BitVec.toNat_ofNat]
  omega

theorem aboveSlots {p : Processor} {a : BitVec 64}
    (high : depth (p.regs (gprOf rbp) + 16) a < 8 * (g.frame.savedRegs.length + 2)) :
    (∀ s < g.stackSlots.length, slotBytes ≤ (a - p.slotAddress g s).toNat) ∧
      0 ≤ (a - slotsBottom g p.toMachine).toInt := by
  have fits := frameSmall laid small
  simp only [slotBytes] at fits
  unfold depth at high
  generalize here : p.regs (gprOf rbp) + 16 - 1 - a = x at high
  have located : a = p.regs (gprOf rbp) + 15 - x := by
    rw [← here]
    bv_omega
  refine ⟨fun s below => ?_, ?_⟩
  · rw [slotDistance laid small below, located]
    have distance : p.regs (gprOf rbp) + 15 - x -
        (p.regs (gprOf rbp) - BitVec.ofNat 64 (8 * (g.frame.savedRegs.length + s + 1))) =
        15 + BitVec.ofNat 64 (8 * (g.frame.savedRegs.length + s + 1)) - x := by bv_omega
    rw [distance, slotBytes]
    bv_omega
  · have distance : a - slotsBottom g p.toMachine =
        15 + BitVec.ofNat 64 (slotBytes * (g.frame.savedRegs.length + g.stackSlots.length)) - x := by
      rw [slotsBottom, located]
      bv_omega
    rw [distance, slotBytes, BitVec.toInt_eq_toNat_cond]
    bv_omega

theorem enteredStays {p q t : Processor} (entered : Entered g p q) (confined : Confined g q t) : Entered g p t := by
  have few := savedSmall laid
  have memory (a : BitVec 64) (high : depth (p.regs (gprOf rsp) + 8) a < 8 * (g.frame.savedRegs.length + 2)) :
      t.memory a = q.memory a := by
    have base : q.regs (gprOf rbp) + 16 = p.regs (gprOf rsp) + 8 := by
      rw [entered.base]
      bv_omega
    obtain ⟨slots, above⟩ := aboveSlots laid small (p := q) (base.symm ▸ high)
    exact confined.memory a slots above
  refine ⟨?_, confined.frame.trans entered.base, savedKept ?_ (fun a low => memory a ?_) entered.saved,
    fun r saved unused => ?_, (wordAgrees fun k below => memory _ ?_).trans entered.address⟩
  · exact (confined.regs _ (.inl rfl)).trans entered.stack
  · simp only [List.length_cons, List.length_map]
    omega
  · simp only [List.length_cons, List.length_map] at low
    have lower := depthLower (p.regs (gprOf rsp) + 8) (a := a) (n := g.frame.savedRegs.length + 1) (by omega)
    rw [BitVec.add_sub_cancel] at lower
    have := lower low
    omega
  · refine (confined.regs r (.inr (.inr ⟨saved, fun v home => unused ?_⟩))).trans (entered.kept r saved unused)
    exact (laid.savedIff r.val).mpr ⟨saved, v, home⟩
  · have upper := depthUpper (p.regs (gprOf rsp) + 8) below
    rw [BitVec.add_sub_cancel] at upper
    omega

omit small in
theorem savedNumber {n : Nat} (inside : n ∈ g.frame.savedRegs) :
    gprOf n ≠ gprOf rsp ∧ gprOf n ≠ gprOf rbp ∧ (gprOf n).val = n := by
  have kept : ∀ n ∈ registerFile.calleeSaved, gprOf n ≠ gprOf rsp ∧ gprOf n ≠ gprOf rbp ∧ (gprOf n).val = n := by
    decide
  have saved := ((laid.savedIff n).mp inside).1
  exact kept n (by simpa [RegisterFile.isCalleeSaved] using saved)

omit small in
theorem savedPlain {r : Gpr} (listed : r ∈ g.frame.savedRegs.map gprOf) :
    r ≠ gprOf rsp ∧ r ≠ gprOf rbp ∧ r.val ∈ g.frame.savedRegs := by
  obtain ⟨n, inside, rfl⟩ := List.mem_map.mp listed
  obtain ⟨top, base, same⟩ := savedNumber laid inside
  exact ⟨top, base, same.symm ▸ inside⟩

omit small in
theorem savedApart : (gprOf rbp :: g.frame.savedRegs.map gprOf).Nodup := by
  refine List.nodup_cons.mpr ⟨fun inside => (savedPlain laid inside).2.1 rfl, List.pairwise_map.mpr ?_⟩
  refine laid.savedNodup.imp_of_mem fun {m n} left right differ same => differ ?_
  rw [← (savedNumber laid left).2.2, same, (savedNumber laid right).2.2]

theorem spillSubtracted {u : Undefined} {p : Processor} : ∃ q,
    pass u (if 0 < g.frame.spillAreaSize then
      let size := BitVec.ofNat 32 g.frame.spillAreaSize
      [.inst (.aluImm .sub (gprOf rsp) size true (fitsInt8 size.toInt))]
    else []) p = some (.goes q) ∧ q.memory = p.memory ∧ (∀ r ≠ gprOf rsp, q.regs r = p.regs r) ∧
      q.regs (gprOf rsp) = p.regs (gprOf rsp) - BitVec.ofNat 64 g.frame.spillAreaSize := by
  have limit := laid.small
  simp only [frameBytes, slotBytes] at limit
  generalize g.frame.spillAreaSize = bytes at *
  split
  · let imm := BitVec.ofNat 32 bytes
    refine ⟨p.after (p.operate .sub (gprOf rsp) ((extendedImm imm (fitsInt8 imm.toInt)).setWidth (widthOf true))),
      passInst rfl [], rfl, fun r other => Machine.getOther _ _ _ _ other, ?_⟩
    have extended : (BitVec.ofNat 32 bytes).signExtend 64 = BitVec.ofNat 64 bytes := by
      refine BitVec.eq_of_toInt_eq ?_
      rw [BitVec.toInt_signExtend_of_le (by decide), BitVec.toInt_eq_toNat_bmod, BitVec.toInt_eq_toNat_bmod,
        BitVec.toNat_ofNat, BitVec.toNat_ofNat]
      simp only [Int.bmod]
      omega
    refine (Machine.getSame ..).trans ?_
    rw [extendedFits id, extended]
    show BitVec.setWidth 64 (BitVec.setWidth 64 _ - BitVec.setWidth 64 _) = _
    simp only [BitVec.setWidth_eq]
  · next absent =>
    cases Nat.eq_zero_of_not_pos absent
    exact ⟨p, rfl, rfl, fun _ _ => rfl, (BitVec.sub_zero _).symm⟩

omit small in
theorem spillDropped {p q : Processor} (entered : Entered g p q) (u : Undefined) : ∃ t,
    pass u (if 0 < g.frame.savedRegs.length then
      [Asm.inst (.lea (gprOf rsp) (gprOf rbp) (BitVec.ofInt 32 (-(8 * g.frame.savedRegs.length : Nat))))]
    else if 0 < g.frame.spillAreaSize then [.inst (.movRR (gprOf rsp) (gprOf rbp) true)]
    else []) q = some (.goes t) ∧ t.memory = q.memory ∧ (∀ r ≠ gprOf rsp, t.regs r = q.regs r) ∧
      t.regs (gprOf rsp) = p.regs (gprOf rsp) - BitVec.ofNat 64 (8 * (g.frame.savedRegs.length + 1)) := by
  have few := savedSmall laid
  have stack := entered.stack
  have base := entered.base
  generalize g.frame.savedRegs.length = count at *
  split
  · refine ⟨q.after (q.set (gprOf rsp) _), passInst rfl [], rfl, fun r other => Machine.getOther _ _ _ _ other, ?_⟩
    have back : ∀ n ≤ 5, (BitVec.ofInt 32 (-(8 * n : Nat))).signExtend 64 = -BitVec.ofNat 64 (8 * n) := by decide
    refine (Machine.getSame ..).trans ?_
    rw [Machine.address, back count few, base]
    bv_omega
  · next absent =>
    cases Nat.eq_zero_of_not_pos absent
    split
    · exact ⟨q.after (q.set (gprOf rsp) (q.regs (gprOf rbp))), passInst rfl [], rfl,
        fun r other => Machine.getOther _ _ _ _ other, (Machine.getSame ..).trans base⟩
    · next empty =>
      rw [Nat.eq_zero_of_not_pos empty] at stack
      exact ⟨q, rfl, rfl, fun _ _ => rfl, stack⟩

structure Restored (p q : Processor) : Prop where
  stack : q.regs (gprOf rsp) = p.regs (gprOf rsp)
  base : q.regs (gprOf rbp) = p.regs (gprOf rbp)
  saved : ∀ r : Gpr, registerFile.isCalleeSaved r.val = true → q.regs r = p.regs r
  address : q.word (p.regs (gprOf rsp)) = p.word (p.regs (gprOf rsp))

omit small in
theorem epilogueRestores {p q : Processor} (entered : Entered g p q) (u : Undefined) :
    ∃ t, pass u (Lower.epilogue g) q = some (.returns t) ∧ Restored p t := by
  have plain := fun r => savedPlain laid (r := r)
  obtain ⟨q₁, goes₁, memory₁, regs₁, stack₁⟩ := spillDropped laid entered u
  obtain ⟨t, goes, popped⟩ := popsGo (gprOf rbp :: g.frame.savedRegs.map gprOf) (u := u) (p := q₁)
    (by
      rw [List.mem_cons, not_or]
      exact ⟨by decide, fun inside => (plain _ inside).1 rfl⟩)
    (savedApart laid)
    (savedKept (by simp only [List.length_cons, List.length_map]; have := savedSmall laid; omega)
      (fun a _ => congrFun memory₁ a) entered.saved)
    (by rw [stack₁, List.length_cons, List.length_map])
  refine ⟨t, ?_, popped.top, popped.held _ List.mem_cons_self, fun r saved => ?_, ?_⟩
  · have popping : g.frame.savedRegs.reverse.map (fun r => Asm.inst (.pop (gprOf r))) ++ [.inst (.pop (gprOf rbp))] =
        (gprOf rbp :: g.frame.savedRegs.map gprOf).reverse.map fun r => .inst (.pop r) := by
      rw [List.reverse_cons, List.map_append, ← List.map_reverse, List.map_map]
      rfl
    have laidOut : g.frame.laidOut = true := by rw [laid.frame]
    rw [Lower.epilogue, if_pos laidOut, List.append_assoc _ (g.frame.savedRegs.reverse.map _), popping]
    exact (passAppend ((passAppend goes₁ _).trans goes) _).trans rfl
  · by_cases used : r.val ∈ g.frame.savedRegs
    · refine popped.held r (List.mem_cons_of_mem _ (List.mem_map.mpr ⟨r.val, used, ?_⟩))
      exact Fin.ext (savedNumber laid used).2.2
    · obtain ⟨top, base⟩ := calleePlain saved
      refine (popped.regs r ?_ top).trans ((regs₁ r top).trans (entered.kept r saved used))
      rw [List.mem_cons, not_or]
      exact ⟨base, fun inside => used (plain r inside).2.2⟩
  · exact (wordAgrees fun k _ => congrFun (popped.memory.trans memory₁) _).trans entered.address

variable (allocated : Allocated f)
include allocated

theorem prologueEnters (u : Undefined) (p : Processor) :
    ∃ q, pass u (Lower.prologue g) p = some (.goes q) ∧ Entered g p q := by
  have few := savedSmall laid
  have plain := fun r => savedPlain laid (r := r)
  obtain ⟨p₁, goes₁, pushed⟩ := pushesGo [gprOf rbp] p.regs (u := u) (p := p) (by decide)
    (by decide) fun _ _ => rfl
  let p₂ := p₁.after (p₁.set (gprOf rbp) (p₁.regs (gprOf rsp)))
  have stack₂ : p₂.regs (gprOf rsp) = p.regs (gprOf rsp) - 8 := pushed.top
  have regs₂ (r : Gpr) (top : r ≠ gprOf rsp) (base : r ≠ gprOf rbp) : p₂.regs r = p.regs r :=
    (Machine.getOther _ _ _ _ base).trans (pushed.regs r top)
  obtain ⟨p₃, goes₃, saves⟩ := pushesGo (g.frame.savedRegs.map gprOf) p.regs (u := u) (p := p₂)
    (fun inside => (plain _ inside).1 rfl) (by rw [List.length_map]; omega)
    fun r inside => regs₂ r (plain r inside).1 (plain r inside).2.1
  obtain ⟨p₄, goes₄, memory₄, regs₄, stack₄⟩ := spillSubtracted laid small (u := u) (p := p₃)
  have count : (g.frame.savedRegs.map gprOf).length = g.frame.savedRegs.length := List.length_map ..
  have top₃ := saves.top
  have kept₃ := saves.memory
  have saved₃ := saves.saved
  rw [stack₂, count] at top₃ kept₃
  rw [stack₂] at saved₃
  have entered : Entered g p p₄ := by
    refine ⟨?_, ?_, ⟨?_, ?_⟩, ?_, ?_⟩
    · rw [stack₄, top₃]
      bv_omega
    · refine (regs₄ _ (by decide)).trans ((saves.regs _ (by decide)).trans ((Machine.getSame ..).trans ?_))
      exact pushed.top
    · refine (wordAgrees fun k below => ?_).trans pushed.saved.1
      have wraps := depthOver (p.regs (gprOf rsp) - 8) below
      exact (congrFun memory₄ _).trans (kept₃ _ (by omega))
    · refine savedKept ?_ (fun a _ => congrFun memory₄ a) saved₃
      rw [count]
      omega
    · intro r saved unused
      obtain ⟨top, base⟩ := calleePlain saved
      exact (regs₄ r top).trans ((saves.regs r top).trans (regs₂ r top base))
    · refine wordAgrees fun k below => (congrFun memory₄ _).trans ((kept₃ _ ?_).trans (pushed.memory _ ?_))
      · have wraps := depthOver (p.regs (gprOf rsp)) below
        have higher := depthHigher (p.regs (gprOf rsp)) (a := p.regs (gprOf rsp) + BitVec.ofNat 64 k) (by omega)
        omega
      · have wraps := depthOver (p.regs (gprOf rsp)) below
        simp only [List.length_singleton]
        omega
  obtain ⟨q, goes, confined⟩ := Harmless.lowerMoves (entryCopiesWritable laid allocated) u p₄
  refine ⟨q, ?_, enteredStays laid small entered confined⟩
  have saving : g.frame.savedRegs.map (fun r => Asm.inst (.push (gprOf r))) =
      (g.frame.savedRegs.map gprOf).map fun r => .inst (.push r) := by
    rw [List.map_map]
    rfl
  rw [Lower.prologue, saving]
  have opening := (passAppend goes₁ [.inst (.movRR (gprOf rbp) (gprOf rsp) true)]).trans (passInst (q := p₂) rfl [])
  exact (passAppend ((passAppend ((passAppend opening _).trans goes₃) _).trans goes₄) _).trans goes

end Running

/-- The frame of an allocated function. Its slots lie apart below the registers it saves, which are the
registers of the caller that hold a value of its own; its size keeps the stack aligned and stays in the
limit. After the prologue, and after whatever writes only to places of values, to registers that the caller
does not need again and to slots or below them, each return restores what the prologue saved. Laid out
again, the frame is the same. -/
theorem framedReturnsRestore {limits : Limits} {f g : Func} (allocated : Allocated f)
    (small : limits.frameLimit < 2 ^ 31) (done : layOutFrame limits f = (g, .ok ())) :
    FrameFits limits g ∧ (g.block 0).insts.head? = some prologueInst ∧
    (∀ (u : Undefined) (p : Processor), ∃ q, pass u (lowerInst g prologueInst) p = some (.goes q) ∧
      ∀ r, Confined g q r → ∀ inst, inst.enc.recipe? = some .ret →
        ∃ t, pass u (lowerInst g inst) r = some (.returns t) ∧ Restored p t) ∧
    layOutFrame limits g = (g, .ok ()) := by
  have laid := frameLaidOf done
  refine ⟨laid.fits small, ?_, fun u p => ?_, laid.again⟩
  · obtain ⟨entry, rest, -, blocks⟩ := laid.blocks
    rw [Func.block, blocks]
    rfl
  · obtain ⟨q, goes, entered⟩ := prologueEnters laid small allocated u p
    refine ⟨q, goes, fun r confined inst encoded => ?_⟩
    have entered := enteredStays laid small entered confined
    obtain ⟨s, loads, harmless⟩ := returnsHarmless g inst u r
    obtain ⟨t, leaves, restored⟩ := epilogueRestores laid (enteredStays laid small entered harmless) u
    refine ⟨t, ?_, restored⟩
    rw [lowerInst, encoded]
    exact (passAppend loads _).trans leaves

section Spilled

def spilledReturn : Inst := { op := .ret, operands := [.temp 1], enc := .ofRecipe .ret }

def spilledFunc : Func :=
  { signature := { params := [.i64, .i64], returns := [.i64] }
    valueTypes := [.i64, .i64]
    locations := [.reg rbx, .slot 0]
    stackSlots := [{}]
    blocks := [{ label := "entry", params := [⟨0, .i64⟩, ⟨1, .i64⟩], insts := [spilledReturn] }] }

def spilledFrame : Func := (layOutFrame {} spilledFunc).1

def spilledCaller : Processor where
  regs r := if r = gprOf rbx then 7 else 0x1000
  memory _ := 0x11
  flags := .ofSub (0 : Word) 0
  xmms _ := 0

theorem spilledReturns : Allocated spilledFunc ∧ ({} : Limits).frameLimit < 2 ^ 31 ∧
    layOutFrame {} spilledFunc = (spilledFrame, .ok ()) ∧ FrameFits {} spilledFrame ∧
    ∃ q t, pass (fun _ m => m.flags) (lowerInst spilledFrame prologueInst) spilledCaller = some (.goes q) ∧
      pass (fun _ m => m.flags) (lowerInst spilledFrame spilledReturn) (q.after (q.set (gprOf rbx) 9)) = some
        (.returns t) ∧
      t.regs (gprOf rbx) = 7 ∧ t.regs (gprOf rsp) = 0x1000 := by
  have allocated : Allocated spilledFunc := allocatedOf (by decide) (by decide)
  have small : ({} : Limits).frameLimit < 2 ^ 31 := by decide
  have done : layOutFrame {} spilledFunc = (spilledFrame, .ok ()) := Prod.ext rfl (by decide +kernel)
  obtain ⟨fits, -, runs, -⟩ := framedReturnsRestore allocated small done
  obtain ⟨q, goes, returns⟩ := runs (fun _ m => m.flags) spilledCaller
  have free : ¬ Reserved spilledFrame (gprOf rbx) := placeFree (v := 0) (by decide +kernel) (by decide)
  obtain ⟨t, leaves, restored⟩ := returns _ (.set free 9) spilledReturn (by decide)
  exact ⟨allocated, small, done, fits, q, t, goes, leaves, restored.saved _ (by decide), restored.stack⟩

end Spilled

end SsaCodegen.X64
