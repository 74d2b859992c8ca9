import SsaCodegen.Proofs.Execution.Semantics
import SsaCodegen.Proofs.Flow.Labels
import SsaCodegen.Proofs.Ir.Rewrite
/-! Runs of well-formed functions. Wherever a run arrives, the values that no path misses are
defined, and the instructions it passes read only these. What holds of two functions block by
block holds of their runs. -/
namespace SsaCodegen.Semantics
variable {World : Type} {o : Surroundings World} {f g : Func}

def IsDefined (regs : Registers) (v : Nat) : Prop := (regs v).isSome = true

theorem assignDefined {regs : Registers} {id : Nat} {word : Word} {v : Nat} :
    IsDefined (assign regs id word) v ↔ v = id ∨ IsDefined regs v := by
  unfold IsDefined assign
  split <;> simp [*]

theorem bindDefined {params : List Param} {words : List Word} {regs : Registers} {v : Nat}
    (enough : words.length = params.length)
    (known : v ∈ params.map Param.id ∨ IsDefined regs v) : IsDefined (bind params words regs) v := by
  unfold IsDefined bind
  cases found : (params.zip words).find? (·.1.id == v) with
  | some pair => rfl
  | none =>
    refine known.resolve_left fun param => ?_
    rw [← List.map_fst_zip (Nat.le_of_eq enough.symm), List.map_map] at param
    obtain ⟨pair, listed, same⟩ := List.mem_map.mp param
    exact List.find?_eq_none.mp found pair listed (beq_iff_eq.mpr same)

theorem bindOther {params : List Param} {words : List Word} {regs : Registers} {v : Nat}
    (other : v ∉ params.map Param.id) : bind params words regs v = regs v := by
  have absent : (params.zip words).find? (·.1.id == v) = none := by
    refine List.find?_eq_none.mpr fun pair listed same => other ?_
    exact List.mem_map.mpr ⟨pair.1, (List.of_mem_zip listed).1, beq_iff_eq.mp same⟩
  rw [bind, absent]

theorem bindSame {params : List Param} {words : List Word} {regs other : Registers} {v : Nat}
    (enough : words.length = params.length) (same : v ∉ params.map Param.id → other v = regs v) :
    bind params words other v = bind params words regs v := by
  by_cases param : v ∈ params.map Param.id
  · have defined : IsDefined (bind params words fun _ => none) v := bindDefined enough (.inl param)
    obtain ⟨word, held⟩ := Option.isSome_iff_exists.mp defined
    unfold bind at held ⊢
    split at held
    · rfl
    · cases held
  · rw [bindOther param, bindOther param, same param]

theorem writeOther {inst : Inst} {regs : Registers} {word : Word} {v : Nat}
    (other : inst.result ≠ some v) : write inst regs word v = regs v := by
  rw [write]
  cases result : inst.result with
  | none => rfl
  | some id =>
    have apart : v ≠ id := fun same => other (by rw [result, same])
    exact if_neg apart

theorem stepNext {inst : Inst} {s u : State World} (next : step o f inst s = .next u) :
    ∃ word, u.regs = write inst s.regs word := by
  unfold step at next
  split at next
  · cases next
  · split at next
    · split at next <;> cases next
    · split at next
      · rename_i word world _
        cases next
        exact ⟨word, rfl⟩
      · cases next

theorem stepDefines {inst : Inst} {s u : State World} (next : step o f inst s = .next u) {v : Nat} :
    IsDefined u.regs v ↔ IsDefined s.regs v ∨ inst.result = some v := by
  obtain ⟨word, regs⟩ := stepNext next
  rw [regs, write]
  cases inst.result with
  | none => simp
  | some id => simp [assignDefined, eq_comm, or_comm]

theorem stepTakes (o : Surroundings World) {inst : Inst} (last : inst.isTerminator = true) {s : State World}
    {words : List Word} {edge : Nat} (reads : readOperands f inst s.regs = some words)
    (departs : depart f inst words = .takes edge) : step o f inst s = .exits (takeEdge f inst edge s) := by
  rw [step, reads]
  dsimp only
  rw [if_pos last, departs]

theorem stepJumps {inst : Inst} {s u : State World} {t : Nat} {words : List Word}
    (jumps : step o f inst s = .exits (.jumps t words u)) : inst.isTerminator = true ∧ u = s ∧
      ∃ edge : Nat, inst.targets[edge]?.bind f.findBlock? = some t := by
  unfold step at jumps
  split at jumps
  · cases jumps
  · split at jumps
    · rename_i ends
      split at jumps
      · rename_i edge _
        have followed := (Step.exits.inj jumps)
        unfold takeEdge at followed
        split at followed
        · cases followed
        · rename_i named
          split at followed
          · cases followed
          · cases followed
            exact ⟨ends, rfl, edge, named⟩
      · cases jumps
    · split at jumps <;> cases jumps

theorem runInstsJumps {insts : List Inst} {s u : State World} {t : Nat} {words : List Word}
    (jumps : runInsts o f insts s = .jumps t words u) :
    ∃ before inst after, insts = before ++ inst :: after ∧ inst.isTerminator = true ∧
      (∃ edge : Nat, inst.targets[edge]?.bind f.findBlock? = some t) ∧
      ∀ v, IsDefined u.regs v ↔ IsDefined s.regs v ∨ ∃ i ∈ before, i.result = some v := by
  induction insts generalizing s with
  | nil => cases jumps
  | cons inst rest ih =>
    unfold runInsts at jumps
    split at jumps
    · rename_i middle next
      obtain ⟨before, last, after, split, ends, edge, defined⟩ := ih jumps
      refine ⟨inst :: before, last, after, by rw [split]; rfl, ends, edge, fun v => ?_⟩
      rw [defined v, stepDefines next]
      simp [or_assoc]
    · rename_i exit exits
      subst jumps
      obtain ⟨ends, rfl, edge⟩ := stepJumps exits
      exact ⟨[], inst, rest, rfl, ends, edge, fun v => by simp⟩

structure Arrived (f : Func) (b : Nat) (regs : Registers) : Prop where
  inside : f.blocks[b]? = some (f.block b)
  reached : Reaches f (f.block b).label
  defined : ∀ v, ¬ Missing f v (f.block b).label → IsDefined regs v

namespace Arrived
variable (ok : WellFormed f)
include ok

theorem nothingKnown (v : Nat) : Missing f v (f.block 0).label := by
  obtain ⟨entry, rest, opens⟩ := ok.entry
  have first : f.block 0 = entry := by simp [Func.block, opens.blocks]
  exact first ▸ .entry opens.blocks

theorem start (regs : Registers) : Arrived f 0 regs := by
  obtain ⟨entry, rest, opens⟩ := ok.entry
  have first : f.block 0 = entry := by simp [Func.block, opens.blocks]
  refine ⟨by simp [first, opens.blocks], ?_, fun v known => absurd (nothingKnown ok v) known⟩
  exact first ▸ .entry opens.blocks

theorem available {b : Nat} {regs : Registers} (arrived : Arrived f b regs) :
    Available (KnownAt f (f.block b)) (f.block b).insts :=
  ok.available _ (List.mem_of_getElem? arrived.inside) arrived.reached

omit ok in
theorem known {b : Nat} {regs : Registers} (arrived : Arrived f b regs) {words : List Word}
    (enough : words.length = (f.block b).params.length) {v : Nat} (known : KnownAt f (f.block b) v) :
    IsDefined (bind (f.block b).params words regs) v :=
  bindDefined enough (known.symm.imp_right (arrived.defined v))

theorem exits {b t : Nat} {words args : List Word} {s u : State World} (arrived : Arrived f b s.regs)
    (jumps : runBlock o f b words s = .jumps t args u) : (f.block t).label ∈ (f.block b).targets := by
  have home := List.mem_of_getElem? arrived.inside
  unfold runBlock at jumps
  dsimp only at jumps
  split at jumps
  · obtain ⟨before, inst, after, split, ends, ⟨edge, target⟩, -⟩ := runInstsJumps jumps
    cases terminatorLast (ok.ended _ home) split ends
    obtain ⟨label, named, found⟩ := Option.bind_eq_some_iff.mp target
    rw [Func.findBlockLabel found, Ended.targets split ends]
    exact List.mem_of_getElem? named
  · cases jumps

theorem next {b t : Nat} {words args : List Word} {s u : State World} (arrived : Arrived f b s.regs)
    (jumps : runBlock o f b words s = .jumps t args u) : Arrived f t u.regs := by
  have home := List.mem_of_getElem? arrived.inside
  have listed := arrived.exits ok jumps
  unfold runBlock at jumps
  dsimp only at jumps
  split at jumps
  · rename_i enough
    obtain ⟨before, inst, after, split, ends, ⟨edge, target⟩, defined⟩ := runInstsJumps jumps
    obtain ⟨label, -, found⟩ := Option.bind_eq_some_iff.mp target
    have quiet : inst.result = none := by
      refine resultOfTerminator (ok.sound _ home inst ?_).shape ends
      rw [split]
      exact List.mem_append_right _ List.mem_cons_self
    obtain ⟨bb, located, -⟩ := Func.findBlockSound found
    refine ⟨by rw [located, Func.blockAt located], .edge home arrived.reached trivial listed, fun v known => ?_⟩
    refine (defined v).mpr ?_
    rcases knownAlong home listed known with before | here
    · exact .inl (arrived.known enough (.inl before))
    · rcases Block.memDefinedIds.mp here with param | ⟨i, inside, result⟩
      · exact .inl (arrived.known enough (.inr param))
      · cases terminatorLast (ok.ended _ home) split ends
        rw [split] at inside
        rcases List.mem_append.mp inside with earlier | last
        · exact .inr ⟨i, earlier, result⟩
        · rw [List.mem_singleton.mp last, quiet] at result
          cases result
  · cases jumps

end Arrived

theorem Kin.ofRewrites (r : Rewrites f g) (types : g.valueTypes = f.valueTypes) : Kin f g where
  signature := r.signature
  types := types
  labels := r.labels
  params := r.blockParams

theorem runBlocksAlike (holds : Nat → State World → Prop)
    (alike : ∀ b words s, holds b s → runBlock o g b words s = runBlock o f b words s ∧
      ∀ t args u, runBlock o f b words s = .jumps t args u → holds t u)
    (n b : Nat) (words : List Word) {s : State World} (start : holds b s) :
    runBlocks o g n b words s = runBlocks o f n b words s := by
  induction n generalizing b words s with
  | zero => rfl
  | succ n ih =>
    obtain ⟨same, keeps⟩ := alike b words s start
    rw [runBlocks, runBlocks, same]
    cases ran : runBlock o f b words s with
    | ends ending u => rfl
    | jumps t args u => exact ih t args (keeps t args u ran)

end SsaCodegen.Semantics
