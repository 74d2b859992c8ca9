import SsaCodegen.Proofs.Layout.FrameLaid
import SsaCodegen.Proofs.Legalize.Fitted
import SsaCodegen.X64.Frame
/-! The layout of the frame. It exchanges what opens the entry block for a prologue, which
reads and defines no value, so nothing changes in what is live where. -/
namespace SsaCodegen

structure Inst.Silent (i : Inst) : Prop where
  result : i.result = none
  uses : i.usedTemps = []
  plain : i.isTerminator = false
  other : i.op ≠ .call

section Silent
variable {opening body : List Inst} (silent : ∀ i ∈ opening, i.Silent)
include silent

theorem silentResults : (opening ++ body).filterMap Inst.result = body.filterMap Inst.result := by
  have empty : opening.filterMap Inst.result = [] :=
    List.filterMap_eq_nil_iff.mpr fun i inside => (silent i inside).result
  rw [List.filterMap_append, empty, List.nil_append]

theorem silentNotes (size : Nat) (sets : Words × Words) :
    (opening ++ body).foldl (Liveness.noteInst size) sets = body.foldl (Liveness.noteInst size) sets := by
  induction opening with
  | nil => rfl
  | cons i rest ih =>
    have now := silent i List.mem_cons_self
    have skips : Liveness.noteInst size sets i = sets := by simp [Liveness.noteInst, now.uses, now.result]
    rw [List.cons_append, List.foldl_cons, skips, ih fun j later => silent j (List.mem_cons_of_mem _ later)]

theorem silentLive (size : Nat) (out : List Nat) :
    liveFrom size out (opening ++ body) = liveFrom size out body := by
  induction opening with
  | nil => rfl
  | cons i rest ih =>
    have now := silent i List.mem_cons_self
    have same := ih fun j later => silent j (List.mem_cons_of_mem _ later)
    simpa [liveFrom, Inst.liveBefore, now.uses, now.result] using same

theorem silentEnds (ended : Ended (opening ++ body)) : ∃ front last, body = front ++ [last] ∧
    last.isTerminator = true ∧ ∀ i ∈ front, i.isTerminator = false := by
  obtain ⟨before, last, split, ends, inner⟩ := ended
  rcases List.eq_nil_or_concat body with rfl | ⟨front, final, rfl⟩
  · have inside : last ∈ opening := by
      rw [List.append_nil] at split
      exact split ▸ List.mem_append_right _ List.mem_cons_self
    rw [(silent last inside).plain] at ends
    cases ends
  · rw [List.concat_eq_append, ← List.append_assoc] at split
    obtain ⟨rfl, same⟩ := List.append_inj' split rfl
    cases same
    exact ⟨front, last, List.concat_eq_append, ends,
      fun i inside => inner i (List.mem_append_right _ inside)⟩

end Silent

structure Reopened (f g : Func) (entry : Block) (rest : List Block) (old new : List Inst) : Prop where
  was : f.blocks = { entry with insts := old ++ entry.insts } :: rest
  now : g.blocks = { entry with insts := new ++ entry.insts } :: rest
  types : g.valueTypes = f.valueTypes
  signature : g.signature = f.signature
  silentOld : ∀ i ∈ old, i.Silent
  silentNew : ∀ i ∈ new, i.Silent

namespace Reopened
variable {f g : Func} {entry : Block} {rest : List Block} {old new : List Inst}
  (r : Reopened f g entry rest old new)
include r

theorem rewrites : Rewrites f g := by
  refine ⟨r.signature, r.types ▸ List.prefix_refl _, ?_⟩
  rw [r.was, r.now, List.map_cons, List.map_cons]
  rfl

theorem pairs {a b : Block} (pair : Paired f g a b) :
    (a = { entry with insts := old ++ entry.insts } ∧
      b = { entry with insts := new ++ entry.insts }) ∨ (b = a ∧ a ∈ rest) := by
  obtain ⟨k, left, right⟩ := pair
  rw [r.was] at left
  rw [r.now] at right
  cases k with
  | zero => exact .inl ⟨(Option.some.inj left).symm, (Option.some.inj right).symm⟩
  | succ k =>
    rw [List.getElem?_cons_succ] at left right
    exact .inr ⟨Option.some.inj (right.symm.trans left), List.mem_of_getElem? left⟩

theorem pairIds {a b : Block} (pair : Paired f g a b) : b.definedIds = a.definedIds := by
  obtain ⟨rfl, rfl⟩ | ⟨rfl, -⟩ := r.pairs pair
  · simp only [Block.definedIds, silentResults r.silentOld, silentResults r.silentNew]
    rfl
  · rfl

theorem definedIds : g.definedIds = f.definedIds := by
  simp only [Func.definedIds, r.was, r.now, List.flatMap_cons, Block.definedIds,
    silentResults r.silentOld, silentResults r.silentNew]
  rfl

theorem pairEnds {a b : Block} (pair : Paired f g a b) (ended : Ended a.insts) :
    Ended b.insts ∧ b.targets = a.targets := by
  obtain ⟨rfl, rfl⟩ | ⟨rfl, -⟩ := r.pairs pair
  · obtain ⟨front, last, split, ends, inner⟩ := silentEnds r.silentOld ended
    simp only [split, ← List.append_assoc]
    refine ⟨⟨new ++ front, last, rfl, ends, fun i inside => ?_⟩, ?_⟩
    · exact (List.mem_append.mp inside).elim (fun here => (r.silentNew i here).plain) (inner i)
    · exact (Ended.targets rfl ends).trans (Ended.targets rfl ends).symm
  · exact ⟨ended, rfl⟩

theorem edges (ok : WellFormed f) : g.blocks.map Block.edges = f.blocks.map Block.edges := by
  have first := r.pairEnds (a := { entry with insts := old ++ entry.insts })
    (b := { entry with insts := new ++ entry.insts }) ⟨0, by rw [r.was]; rfl, by rw [r.now]; rfl⟩
    (ok.ended _ (r.was ▸ List.mem_cons_self))
  rw [r.was, r.now, List.map_cons, List.map_cons]
  refine List.cons_eq_cons.mpr ⟨?_, rfl⟩
  exact Prod.ext rfl first.2

theorem wellFormed (ok : WellFormed f) (opens : ∀ i ∈ (new ++ entry.insts).tail, i.op ≠ .prologue)
    (fits : ∀ i ∈ new, FitInst g i) : WellFormed g where
  entry := by
    obtain ⟨first, others, entryFits⟩ := ok.entry
    cases entryFits.blocks.symm.trans r.was
    exact ⟨_, rest, r.now, r.signature ▸ entryFits.params, opens, entryFits.others⟩
  labels := r.rewrites.labels ▸ ok.labels
  once := r.definedIds ▸ ok.once
  declared b inside := by
    obtain ⟨a, there, pair⟩ := r.rewrites.pairOf inside
    have declared := ok.declared a there
    refine ⟨r.types ▸ (r.rewrites.sameHead pair).2 ▸ declared.params, fun j listed id result => ?_⟩
    rw [r.types]
    obtain ⟨rfl, rfl⟩ | ⟨rfl, -⟩ := r.pairs pair
    · rcases List.mem_append.mp listed with here | later
      · rw [(r.silentNew j here).result] at result
        cases result
      · exact declared.results j (List.mem_append_right _ later) id result
    · exact declared.results j listed id result
  ended b inside := by
    obtain ⟨a, there, pair⟩ := r.rewrites.pairOf inside
    exact (r.pairEnds pair (ok.ended a there)).1
  sound b inside j listed := by
    obtain ⟨a, there, pair⟩ := r.rewrites.pairOf inside
    have stays (held : j ∈ a.insts) : SoundInst g j := by
      have sound := ok.sound a there j held
      exact ⟨r.rewrites.toExtends.fitSelf ok sound, r.definedIds ▸ sound.defined⟩
    obtain ⟨rfl, rfl⟩ | ⟨rfl, -⟩ := r.pairs pair
    · rcases List.mem_append.mp listed with here | later
      · refine ⟨fits j here, fun id used => ?_⟩
        rw [(r.silentNew j here).uses] at used
        cases used
      · exact stays (List.mem_append_right _ later)
    · exact stays listed
  available b inside reaches := by
    obtain ⟨a, there, pair⟩ := r.rewrites.pairOf inside
    have label := (r.rewrites.sameHead pair).1
    have back {lets pass : Block → Prop} (same : ∀ a b, Paired f g a b → pass b → lets a)
        {label : String} (flows : Flows g pass label) : Flows f lets label :=
      r.rewrites.flows (fun a b pair passed => ⟨same a b pair passed, fun l target => by
        obtain ⟨k, left, -⟩ := id pair
        exact (r.pairEnds pair (ok.ended a (List.mem_of_getElem? left))).2 ▸ target⟩) flows
    have reached : Reaches f a.label := label ▸ back (fun _ _ _ _ => trivial) reaches
    have known : Available (KnownAt g b) a.insts := (ok.available a there reached).mono fun v =>
      .imp (fun found missing => found (label ▸ back (fun _ _ pair absent =>
        r.pairIds pair ▸ absent) missing)) fun param => r.rewrites.sameParamIds pair ▸ param
    obtain ⟨rfl, rfl⟩ | ⟨rfl, -⟩ := r.pairs pair
    · refine Available.append.mpr ⟨.ofUnused fun i here => (r.silentNew i here).uses, ?_⟩
      refine (Available.append.mp known).2.mono fun v held => held.imp_right ?_
      rintro ⟨i, listed, result⟩
      rw [(r.silentOld i listed).result] at result
      cases result
    · exact known

theorem liveness (g' : FlowGraph) : Liveness.ofFunc g g' = Liveness.ofFunc f g' := by
  refine Liveness.ofFuncSame (congrArg List.length r.types) ?_ g'
  rw [r.was, r.now]
  refine .cons (fun sets => ?_) (List.forall₂_same.mpr fun _ _ _ => rfl)
  rw [Liveness.noteBlock, Liveness.noteBlock, silentNotes r.silentNew, silentNotes r.silentOld]
  rfl

theorem graph (ok : WellFormed f) : FlowGraph.ofFunc g = FlowGraph.ofFunc f :=
  FlowGraph.ofSame (r.edges ok)

theorem entries : f.block 0 = { entry with insts := old ++ entry.insts } ∧
    g.block 0 = { entry with insts := new ++ entry.insts } := by
  rw [Func.block, Func.block, r.was, r.now]
  exact ⟨rfl, rfl⟩

theorem laterBlock (b : Nat) : g.block (b + 1) = f.block (b + 1) := by
  rw [Func.block, Func.block, r.was, r.now]
  rfl

theorem liveInEntry (ok : WellFormed f) (k : Nat) :
    g.liveAt 0 (new.length + k) = f.liveAt 0 (old.length + k) := by
  have size : g.numValues = f.numValues := congrArg List.length r.types
  rw [Func.liveAt, Func.liveAt, r.graph ok, r.liveness, size, r.entries.1, r.entries.2]
  simp only [List.drop_append, List.drop_eq_nil_of_le (Nat.le_add_right _ _), List.nil_append,
    Nat.add_sub_cancel_left]

theorem liveAtEntry (ok : WellFormed f) : g.liveAt 0 0 = f.liveAt 0 0 := by
  have size : g.numValues = f.numValues := congrArg List.length r.types
  rw [Func.liveAt, Func.liveAt, r.graph ok, r.liveness, size, r.entries.1, r.entries.2]
  simp only [List.drop_zero, silentLive r.silentNew, silentLive r.silentOld]

theorem liveLater (ok : WellFormed f) (b i : Nat) : g.liveAt (b + 1) i = f.liveAt (b + 1) i := by
  have size : g.numValues = f.numValues := congrArg List.length r.types
  rw [Func.liveAt, Func.liveAt, r.graph ok, r.liveness, size, r.laterBlock]

theorem located {regs : RegisterFile} (ok : WellFormed f) (fits : Located regs f)
    (locations : g.locations = f.locations) (slots : g.stackSlots.length = f.stackSlots.length)
    (legal : ∀ i ∈ new, i.enc.isLegal = true)
    (framed : g.frame.laidOut = true → (new ++ entry.insts).head?.map Inst.op = some .prologue) :
    Located regs g := by
  have same : SamePlaces f g := .ofFields locations r.types slots
  have count : g.blocks.length = f.blocks.length := by rw [r.was, r.now]; rfl
  constructor
  case sized => rw [locations, fits.sized, Func.numValues, Func.numValues, r.types]
  case framed =>
    intro laid first others blocks
    cases blocks.symm.trans r.now
    exact framed laid
  case encoded =>
    intro b inside i listed
    obtain ⟨a, there, pair⟩ := r.rewrites.pairOf inside
    obtain ⟨rfl, rfl⟩ | ⟨rfl, -⟩ := r.pairs pair
    · exact (List.mem_append.mp listed).elim (legal i)
        fun later => fits.encoded _ there i (List.mem_append_right _ later)
    · exact fits.encoded _ there i listed
  case placed => exact fun id defined => same.placed (fits.placed id (r.definedIds ▸ defined))
  case keeps =>
    intro b i inst there below
    cases b with
    | succ b =>
      rw [r.laterBlock] at there
      rw [r.liveLater ok]
      exact same.keepsLive (fits.keeps (b + 1) i inst there (count ▸ below)) rfl rfl rfl
    | zero =>
      rw [r.entries.2] at there
      rcases Nat.lt_or_ge i new.length with front | later
      · rw [List.getElem?_append_left front] at there
        have quiet := r.silentNew inst (List.mem_of_getElem? there)
        refine ⟨fun id result => ?_, fun call => absurd call quiet.other⟩
        cases quiet.result.symm.trans result
      · obtain ⟨k, rfl⟩ := Nat.exists_eq_add_of_le later
        rw [List.getElem?_append_right later, Nat.add_sub_cancel_left] at there
        rw [Nat.add_assoc, r.liveInEntry ok]
        refine same.keepsLive (fits.keeps 0 (old.length + k) inst ?_ (count ▸ below)) rfl rfl rfl
        rw [r.entries.1, List.getElem?_append_right (Nat.le_add_right _ _), Nat.add_sub_cancel_left]
        exact there
  case params =>
    intro b below
    have old := fits.params b (count ▸ below)
    cases b with
    | succ b =>
      rw [r.laterBlock, r.liveLater ok]
      exact same.paramsKeepLive old rfl
    | zero =>
      rw [r.liveAtEntry ok]
      refine same.paramsKeepLive old ?_
      rw [r.entries.1, r.entries.2]
      rfl

end Reopened

namespace X64
open FrameLayout

theorem silentPrologue {i : Inst} (shape : Structure.shapeMessages i = []) (tidy : i.Tidy)
    (op : i.op = .prologue) : i.Silent := by
  have plain : i.isTerminator = false := by rw [Inst.isTerminator, op]; rfl
  obtain ⟨count, result, -⟩ := Structure.shapeIff.mp shape
  have operands : i.operands = [] := by
    rw [op] at count
    refine List.eq_nil_of_length_eq_zero (Nat.le_zero.mp ?_)
    exact count.2.resolve_left (by decide)
  have args := tidy (Structure.plainTargets shape plain)
  refine ⟨?_, ?_, plain, by rw [op]; decide⟩
  · cases found : i.result with
    | none => rfl
    | some id =>
      rw [Structure.ResultFits, op, found] at result
      exact result.elim
  · simp [Inst.usedTemps, Inst.uses, operands, args]

theorem dropPrologueSplit {insts : List Inst} (later : ∀ i ∈ insts.tail, i.op ≠ .prologue) :
    ∃ old, insts = old ++ dropPrologue insts ∧ (∀ i ∈ old, i.op = .prologue) ∧
      ∀ i ∈ dropPrologue insts, i.op ≠ .prologue := by
  cases insts with
  | nil =>
    exact ⟨[], rfl, fun i absent => absurd absent List.not_mem_nil,
      fun i absent => absurd absent List.not_mem_nil⟩
  | cons first rest =>
    by_cases opens : first.op = .prologue
    · have dropped : dropPrologue (first :: rest) = rest := by simp [dropPrologue, opens]
      rw [dropped]
      exact ⟨[first], rfl, fun i listed => List.mem_singleton.mp listed ▸ opens, later⟩
    · have kept : dropPrologue (first :: rest) = first :: rest := by simp [dropPrologue, opens]
      rw [kept]
      refine ⟨[], rfl, fun i absent => absurd absent List.not_mem_nil, fun i listed => ?_⟩
      rcases List.mem_cons.mp listed with rfl | tail
      · exact opens
      · exact later i tail

structure Framed (f g : Func) : Prop where
  wellFormed : WellFormed g
  fitted : Fitted g
  located : Located registerFile g
  edges : g.blocks.map Block.edges = f.blocks.map Block.edges
  version : g.layoutVersion = f.layoutVersion
  laidOut : g.frame.laidOut = true

theorem layOutFrameFitted {limits : Limits} {f g : Func} (done : layOutFrame limits f = (g, .ok ()))
    (ok : Fitted f) : Fitted g := by
  obtain ⟨-, constants, -⟩ := layOutFrameKeeps limits f
  rw [done] at constants
  intro j inside
  rcases layOutFrameInsts done j inside with rfl | old
  · exact ⟨.ofRecipe .prologue, rfl, rfl⟩
  · exact (ok j old).stays (frameLaidOf done).types constants

theorem layOutFrameDone {limits : Limits} {f g : Func} (clean : Clean f) (fits : Fitted f)
    (located : Located registerFile f) (done : layOutFrame limits f = (g, .ok ())) : Framed f g := by
  obtain ⟨entry, rest, entryFits⟩ := clean.wellFormed.entry
  obtain ⟨old, split, opens, plain⟩ := dropPrologueSplit entryFits.opening
  have inside : entry ∈ f.blocks := entryFits.blocks ▸ List.mem_cons_self
  have fitted : Fitted g := layOutFrameFitted done fits
  simp only [layOutFrame, entryFits.blocks] at done
  split at done
  · cases done
  · simp only [Prod.mk.injEq, and_true] at done
    generalize dropPrologue entry.insts = body at *
    have opening : prologueInst.Silent := ⟨rfl, rfl, rfl, by decide⟩
    have reopened : Reopened f g { entry with insts := body } rest old [prologueInst] := by
      subst done
      refine ⟨by rw [entryFits.blocks, ← split], rfl, rfl, rfl, fun i listed => ?_, fun i listed =>
        List.mem_singleton.mp listed ▸ opening⟩
      have there : i ∈ entry.insts := split ▸ List.mem_append_left _ listed
      exact silentPrologue (clean.wellFormed.sound entry inside i there).shape
        (clean.tidy entry inside i there) (opens i listed)
    have wellFormed : WellFormed g := by
      refine reopened.wellFormed clean.wellFormed plain fun i listed => ?_
      rw [List.mem_singleton.mp listed]
      exact ⟨rfl, rfl, fun present => absurd rfl present, fun e absent => absurd absent List.not_mem_nil⟩
    refine ⟨wellFormed, fitted, ?_, reopened.edges clean.wellFormed, by subst done; rfl,
      by subst done; rfl⟩
    refine reopened.located clean.wellFormed located (by subst done; rfl)
      (by subst done; simp [layOutSlots]) (fun i listed => ?_) fun _ => rfl
    rw [List.mem_singleton.mp listed]
    rfl

theorem layOutFrameAfresh {limits : Limits} {f g : Func} (done : layOutFrame limits f = (g, .ok ())) :
    layOutFrame limits { f with frame := {} } = (g, .ok ()) := by
  unfold layOutFrame at done ⊢
  split at done
  · cases done
  · rename_i entry rest blocks
    simp only [blocks] at done ⊢
    split at done
    · cases done
    · rename_i small
      rw [if_neg small]
      exact done

theorem layOutFrameKind {limits : Limits} {f g : Func} {e : Failure} (ok : WellFormed f)
    (failed : layOutFrame limits f = (g, .error e)) : e.kind = .limitExceeded := by
  obtain ⟨entry, rest, entryFits⟩ := ok.entry
  simp only [layOutFrame, entryFits.blocks] at failed
  split at failed
  · cases failed
    rfl
  · cases failed

end X64
end SsaCodegen
