import SsaCodegen.RegAlloc.LinearScan
/-! The invariant of linear scan. Of the intervals visited, those in a register either hold
it or ended before the current position; holders have registers of their own, and a stack
slot belongs to one value for good. Eviction rewrites a decision, but only into a slot
that was never given out. -/
namespace SsaCodegen.Scan

def locationOf (s : Scan) (v : Nat) : Location := s.locations.getD v .unassigned

structure Consistent (regs : RegisterFile) : Prop where
  cls : ∀ cls, ∀ r ∈ regs.allocatable cls, regs.class? r = some cls
  named : regs.classes.length ≤ regs.names.length

structure Fits (regs : RegisterFile) (iv : Interval) (r : Nat) : Prop where
  allocatable : regs.isAllocatable r = true
  cls : regs.class? r = some iv.cls
  crosses : iv.crossesCall = true → regs.isCalleeSaved r = true
  free : mustSpill iv = false

def Decided (regs : RegisterFile) (slots : Nat) (iv : Interval) : Location → Prop
  | .unassigned => False
  | .slot k => k < slots
  | .reg r => Fits regs iv r

structure Scanned (regs : RegisterFile) (size : Nat) (done : Interval → Prop) (pos : Nat)
    (s : Scan) : Prop where
  length : s.locations.length = size
  once : ∀ a b, done a → done b → a.value = b.value → a = b
  decided : ∀ iv, done iv → Decided regs s.slots iv (s.locationOf iv.value)
  fresh : ∀ v, s.locationOf v ≠ .unassigned → ∃ iv, done iv ∧ iv.value = v
  holders : ∀ h ∈ s.holders, done h.interval ∧ s.locationOf h.interval.value = .reg h.reg
  regs : (s.holders.map Holder.reg).Nodup
  held : ∀ iv, done iv → ∀ r, s.locationOf iv.value = .reg r → ⟨iv, r⟩ ∈ s.holders ∨ iv.stop < pos
  apart : ∀ a b, done a → done b → a ≠ b → ∀ r, s.locationOf a.value = .reg r → s.locationOf b.value = .reg r →
    a.stop < b.start ∨ b.stop < a.start
  slots : ∀ k < s.slots, ∃ iv, done iv ∧ s.locationOf iv.value = .slot k
  own : ∀ a b k, done a → done b → s.locationOf a.value = .slot k → s.locationOf b.value = .slot k → a = b

theorem locationSet {locations : List Location} {v w : Nat} {l : Location}
    (below : v < locations.length) : (locations.set v l).getD w .unassigned =
      if w = v then l else locations.getD w .unassigned := by
  simp only [List.getD_eq_getElem?_getD, List.getElem?_set]
  by_cases same : w = v
  · subst same
    simp [below]
  · simp [same, Ne.symm same]

theorem isAllocatableOf {regs : RegisterFile} {cls : RegClass} {r : Nat}
    (listed : r ∈ regs.allocatable cls) : regs.isAllocatable r = true := by
  simp only [RegisterFile.isAllocatable, Bool.or_eq_true, List.contains_iff_mem]
  cases cls with
  | gpr => exact .inl listed
  | fpr => exact .inr listed

theorem Decided.mono {regs : RegisterFile} {fewer more : Nat} {iv : Interval} {l : Location}
    (decided : Decided regs fewer iv l) (le : fewer ≤ more) : Decided regs more iv l := by
  cases l with
  | unassigned => exact decided
  | slot k => exact Nat.lt_of_lt_of_le decided le
  | reg r => exact decided

structure Assigns (s t : Scan) (v : Nat) (l : Location) : Prop where
  length : t.locations.length = s.locations.length
  placed : ∀ w, t.locationOf w = if w = v then l else s.locationOf w

namespace Assigns

theorem set {s t : Scan} {v : Nat} {l : Location} (below : v < s.locations.length)
    (same : t.locations = s.locations.set v l) : Assigns s t v l where
  length := by rw [same, List.length_set]
  placed w := by rw [Scan.locationOf, same, locationSet below]; rfl

theorem doneCases {s t : Scan} {iv a : Interval} {l : Location} {done : Interval → Prop}
    (assigns : Assigns s t iv.value l) (only : ∀ a, done a → a.value = iv.value → a = iv)
    (here : done a ∨ a = iv) : a = iv ∧ t.locationOf a.value = l ∨
      a ≠ iv ∧ done a ∧ t.locationOf a.value = s.locationOf a.value := by
  by_cases same : a = iv
  · exact .inl ⟨same, (assigns.placed a.value).trans (if_pos (same ▸ rfl))⟩
  · have here := here.resolve_right same
    exact .inr ⟨same, here, (assigns.placed a.value).trans (if_neg fun value => same (only a here value))⟩

end Assigns

namespace Scanned
variable {regs : RegisterFile} {size pos : Nat} {done : Interval → Prop} {s : Scan}
  (inv : Scanned regs size done pos s)
include inv

theorem expire {later : Nat} (after : pos ≤ later) :
    Scanned regs size done later (s.expire later) where
  length := inv.length
  once := inv.once
  decided := inv.decided
  fresh := inv.fresh
  holders h inside := inv.holders h (memExpire.mp inside).1
  regs := inv.regs.sublist ((List.filter_sublist ..).map _)
  held iv here r resides := by
    rcases inv.held iv here r resides with holds | ended
    · by_cases lasts : later ≤ iv.stop
      · exact .inl (memExpire.mpr ⟨holds, lasts⟩)
      · exact .inr (Nat.lt_of_not_le lasts)
    · exact .inr (Nat.lt_of_lt_of_le ended after)
  apart := inv.apart
  slots := inv.slots
  own := inv.own

theorem sameHolder {h k : Holder} (left : h ∈ s.holders) (right : k ∈ s.holders)
    (same : h.reg = k.reg) : h = k := by
  obtain ⟨i, at_i⟩ := List.getElem?_of_mem left
  obtain ⟨j, at_j⟩ := List.getElem?_of_mem right
  have inside : i < (s.holders.map Holder.reg).length := by
    rw [List.length_map]
    exact (List.getElem?_eq_some_iff.mp at_i).1
  have index : i = j := by
    refine (List.getElem?_inj inside inv.regs).mp ?_
    rw [List.getElem?_map, List.getElem?_map, at_i, at_j, Option.map_some, Option.map_some, same]
  subst index
  exact Option.some.inj (at_i.symm.trans at_j)

theorem freshAt {iv : Interval} (new : ∀ a, done a → a.value ≠ iv.value) :
    s.locationOf iv.value = .unassigned := by
  by_cases assigned : s.locationOf iv.value = .unassigned
  · exact assigned
  · obtain ⟨a, here, value⟩ := inv.fresh _ assigned
    exact absurd value (new a here)

theorem assign {t : Scan} {iv : Interval} {l : Location} (assigns : Assigns s t iv.value l)
    (only : ∀ a, done a → a.value = iv.value → a = iv) (decided : Decided regs t.slots iv l)
    (slots : t.slots = s.slots ∧ (∀ k, l ≠ .slot k) ∨ t.slots = s.slots + 1 ∧ l = .slot s.slots)
    (never : ∀ k, s.locationOf iv.value ≠ .slot k)
    (kept : ∀ h, h ∈ t.holders ↔ h ∈ s.holders ∧ h.interval ≠ iv ∨ h.interval = iv ∧ l = .reg h.reg)
    (once : (t.holders.map Holder.reg).Nodup)
    (ended : ∀ a r, done a → a ≠ iv → s.locationOf a.value = .reg r → l = .reg r → a.stop < iv.start) :
    Scanned regs size (fun a => done a ∨ a = iv) pos t := by
  have either {a : Interval} (here : done a ∨ a = iv) := assigns.doneCases only here
  have mine : t.locationOf iv.value = l := (assigns.placed iv.value).trans (if_pos rfl)
  have old {a : Interval} (here : done a) (differ : a ≠ iv) : t.locationOf a.value = s.locationOf a.value :=
    (assigns.placed a.value).trans (if_neg fun same => differ (only a here same))
  -- a new slot lies beyond all that were given out
  have beyond {a : Interval} {k : Nat} (here : done a) (home : s.locationOf a.value = .slot k) :
      l ≠ .slot k := by
    have below := inv.decided a here
    rw [home] at below
    rcases slots with ⟨-, other⟩ | ⟨-, rfl⟩
    · exact other k
    · rintro ⟨⟩
      exact Nat.lt_irrefl _ below
  constructor
  case length => exact assigns.length.trans inv.length
  case once =>
    intro a b left right same
    rcases left with left | rfl <;> rcases right with right | rfl
    · exact inv.once a b left right same
    · exact only a left same
    · exact (only b right same.symm).symm
    · rfl
  case decided =>
    intro a here
    rcases either here with ⟨rfl, home⟩ | ⟨-, here, home⟩ <;> rw [home]
    · exact decided
    · refine (inv.decided a here).mono ?_
      rcases slots with ⟨same, -⟩ | ⟨more, -⟩ <;> omega
  case fresh =>
    intro v assigned
    by_cases same : v = iv.value
    · exact ⟨iv, .inr rfl, same.symm⟩
    · rw [assigns.placed, if_neg same] at assigned
      obtain ⟨a, here, value⟩ := inv.fresh v assigned
      exact ⟨a, .inl here, value⟩
  case holders =>
    intro h inside
    rcases (kept h).mp inside with ⟨holds, differ⟩ | ⟨same, reg⟩
    · obtain ⟨here, resides⟩ := inv.holders h holds
      exact ⟨.inl here, (old here differ).trans resides⟩
    · exact ⟨.inr same, same ▸ mine.trans reg⟩
  case regs => exact once
  case held =>
    intro a here r resides
    rcases either here with ⟨rfl, home⟩ | ⟨differ, here, home⟩
    · exact .inl ((kept _).mpr (.inr ⟨rfl, home.symm.trans resides⟩))
    · exact (inv.held a here r (home.symm.trans resides)).imp_left fun holds =>
        (kept _).mpr (.inl ⟨holds, differ⟩)
  case apart =>
    intro a b left right differ r ina inb
    rcases either left with ⟨rfl, homeA⟩ | ⟨differA, hereA, homeA⟩ <;>
      rcases either right with ⟨rfl, homeB⟩ | ⟨differB, hereB, homeB⟩
    · exact absurd rfl differ
    · exact .inr (ended b r hereB differB (homeB.symm.trans inb) (homeA.symm.trans ina))
    · exact .inl (ended a r hereA differA (homeA.symm.trans ina) (homeB.symm.trans inb))
    · exact inv.apart a b hereA hereB differ r (homeA.symm.trans ina) (homeB.symm.trans inb)
  case slots =>
    intro k inside
    have place : k < s.slots ∨ l = .slot k := by
      rcases slots with ⟨same, -⟩ | ⟨more, rfl⟩
      · exact .inl (same ▸ inside)
      · rw [more] at inside
        exact (Nat.lt_succ_iff_lt_or_eq.mp inside).imp_right fun same => by rw [same]
    rcases place with below | here
    · obtain ⟨a, here, home⟩ := inv.slots k below
      have differ : a ≠ iv := fun same => never k (same ▸ home)
      exact ⟨a, .inl here, (old here differ).trans home⟩
    · exact ⟨iv, .inr rfl, mine.trans here⟩
  case own =>
    intro a b k left right ina inb
    rcases either left with ⟨rfl, homeA⟩ | ⟨-, hereA, homeA⟩ <;>
      rcases either right with ⟨rfl, homeB⟩ | ⟨-, hereB, homeB⟩
    · rfl
    · exact absurd (homeA.symm.trans ina) (beyond hereB (homeB.symm.trans inb))
    · exact absurd (homeB.symm.trans inb) (beyond hereA (homeA.symm.trans ina))
    · exact inv.own a b k hereA hereB (homeA.symm.trans ina) (homeB.symm.trans inb)

theorem spill {iv : Interval} (below : iv.value < size) (never : ∀ k, s.locationOf iv.value ≠ .slot k)
    (only : ∀ a, done a → a.value = iv.value → a = iv) {holders : List Holder}
    (kept : ∀ h, h ∈ holders ↔ h ∈ s.holders ∧ h.interval ≠ iv)
    (once : (holders.map Holder.reg).Nodup) :
    Scanned regs size (fun a => done a ∨ a = iv) pos
      { s.spill iv.value with holders := holders } := by
  have assigns : Assigns s { s.spill iv.value with holders := holders } iv.value (.slot s.slots) :=
    .set (inv.length.symm ▸ below) rfl
  refine inv.assign assigns only (Nat.lt_succ_self _) (.inr ⟨rfl, rfl⟩) never (fun h => ?_) once
    fun _ _ _ _ _ slot => by cases slot
  exact (kept h).trans (or_iff_left fun held => by cases held.2).symm

theorem place {iv : Interval} {r : Nat} (below : iv.value < size)
    (new : ∀ a, done a → a.value ≠ iv.value) (starts : pos = iv.start) (fits : Fits regs iv r)
    (free : ∀ h ∈ s.holders, h.reg ≠ r) {holders : List Holder}
    (kept : ∀ h, h ∈ holders ↔ h ∈ s.holders ∨ h = ⟨iv, r⟩)
    (once : (holders.map Holder.reg).Nodup) (busy : List Bool) :
    Scanned regs size (fun a => done a ∨ a = iv) pos
      { s.place iv.value r with holders := holders, busy := busy } := by
  have assigns : Assigns s { s.place iv.value r with holders := holders, busy := busy } iv.value (.reg r) :=
    .set (inv.length.symm ▸ below) rfl
  refine inv.assign assigns (fun a here same => absurd same (new a here)) fits
    (.inl ⟨rfl, fun _ slot => by cases slot⟩) (by simp [inv.freshAt new]) (fun h => ?_) once ?_
  · have other (holds : h ∈ s.holders) : h.interval ≠ iv := fun same =>
      new _ (inv.holders h holds).1 (congrArg Interval.value same)
    have self : h = ⟨iv, r⟩ ↔ h.interval = iv ∧ Location.reg r = .reg h.reg := by
      rw [Location.reg.injEq, eq_comm (a := r)]
      exact Holder.mk.injEq .. ▸ Iff.rfl
    rw [kept, and_iff_left_of_imp other, self]
  · intro a q here _ resides same
    cases same
    rcases inv.held a here r resides with holds | ended
    · exact absurd rfl (free _ holds)
    · exact starts ▸ ended

theorem same {more : Interval → Prop} (iff : ∀ a, more a ↔ done a) :
    Scanned regs size more pos s := by
  have eq : more = done := funext fun a => propext (iff a)
  exact eq ▸ inv

theorem spillNew {iv : Interval} (below : iv.value < size)
    (new : ∀ a, done a → a.value ≠ iv.value) :
    Scanned regs size (fun a => done a ∨ a = iv) pos (s.spill iv.value) := by
  have unassigned := inv.freshAt new
  refine inv.spill below (by simp [unassigned]) (fun a here same => absurd same (new a here))
    (fun h => ⟨fun holds => ⟨holds, ?_⟩, fun holds => holds.1⟩) inv.regs
  rintro rfl
  exact new _ (inv.holders h holds).1 rfl

theorem evict {v : Holder} (holds : v ∈ s.holders) : Scanned regs size done pos
    { s.spill v.interval.value with holders := s.holders.filter (·.reg != v.reg) } := by
  obtain ⟨here, resides⟩ := inv.holders v holds
  have below : v.interval.value < size := by
    rw [← inv.length]
    refine Nat.lt_of_not_le fun beyond => ?_
    simp [locationOf, List.getElem?_eq_none beyond] at resides
  refine (inv.spill below (by simp [resides]) (fun a there same => inv.once a _ there here same)
    (fun h => ?_) (inv.regs.sublist ((List.filter_sublist ..).map _))).same
    fun a => ⟨.inl, fun or => or.elim id fun same => same ▸ here⟩
  rw [List.mem_filter, bne_iff_ne]
  refine and_congr_right fun holds' => not_congr ⟨fun same => ?_, fun same => ?_⟩
  · rw [inv.sameHolder holds' holds same]
  · obtain ⟨-, in'⟩ := inv.holders h holds'
    rw [same, resides] at in'
    exact (Location.reg.inj in').symm

theorem handOver {v : Holder} {cur : Interval} (holds : v ∈ s.holders) (below : cur.value < size)
    (new : ∀ a, done a → a.value ≠ cur.value) (starts : pos = cur.start)
    (fits : Fits regs cur v.reg) :
    Scanned regs size (fun a => done a ∨ a = cur) pos (s.handOver v cur) := by
  refine (inv.evict holds).place below new starts fits
    (fun h listed => by simpa using (List.mem_filter.mp listed).2) (fun h => ?_) ?_ _
  · rw [List.mem_map, List.mem_filter, bne_iff_ne]
    constructor
    · rintro ⟨k, listed, rfl⟩
      split
      · exact .inr rfl
      · rename_i differ
        exact .inl ⟨listed, by simpa using differ⟩
    · rintro (⟨listed, differ⟩ | rfl)
      · exact ⟨h, listed, by simp [differ]⟩
      · exact ⟨v, holds, by simp⟩
  · rw [List.map_map]
    have sameRegs : (Holder.reg ∘ fun h => if h.reg == v.reg then ⟨cur, v.reg⟩ else h) =
        Holder.reg := by
      funext h
      by_cases same : h.reg = v.reg <;> simp [same]
    rw [sameRegs]
    exact inv.regs

end Scanned

theorem victimSound {regs : RegisterFile} {s : Scan} {cur : Interval} {v : Holder}
    (found : victim? regs s cur = some v) :
    v ∈ s.holders ∧ regs.class? v.reg = some cur.cls ∧ acceptable regs cur v.reg = true := by
  revert v found
  refine List.foldlRecOn (motive := fun best => ∀ {v}, best = some v →
    v ∈ s.holders ∧ regs.class? v.reg = some cur.cls ∧ acceptable regs cur v.reg = true) s.holders _
    (fun absent => by cases absent) fun best good h holds v found => ?_
  split at found
  · rename_i suits
    rw [Bool.and_eq_true, beq_iff_eq] at suits
    have self := And.intro holds suits
    split at found
    · cases found
      exact self
    · split at found
      · cases found
        exact self
      · exact good found
  · exact good found

theorem acceptableIff {regs : RegisterFile} {cur : Interval} {r : Nat} :
    acceptable regs cur r = true ↔ (cur.crossesCall = true → regs.isCalleeSaved r = true) := by
  unfold acceptable
  cases cur.crossesCall <;> simp

structure Flagged (regs : RegisterFile) (s : Scan) : Prop where
  length : s.busy.length = regs.names.length
  marked : ∀ h ∈ s.holders, s.isBusy h.reg = true

namespace Flagged
variable {regs : RegisterFile} {size pos : Nat} {done : Interval → Prop} {s : Scan}
  (flags : Flagged regs s) (inv : Scanned regs size done pos s)
include flags inv

theorem expire (later : Nat) : Flagged regs (s.expire later) := by
  have cleared (ended : List Holder) (busy : List Bool) :
      (ended.foldl (fun busy h => busy.set h.reg false) busy).length = busy.length ∧
        ∀ r, (∀ h ∈ ended, h.reg ≠ r) →
          (ended.foldl (fun busy h => busy.set h.reg false) busy).getD r false = busy.getD r false := by
    induction ended generalizing busy with
    | nil => exact ⟨rfl, fun _ _ => rfl⟩
    | cons h rest ih =>
      obtain ⟨length, marks⟩ := ih (busy.set h.reg false)
      refine ⟨length.trans List.length_set, fun r free => ?_⟩
      obtain ⟨here, free⟩ := List.forall_mem_cons.mp free
      rw [List.foldl_cons, marks r free]
      simp [List.getD_eq_getElem?_getD, here]
  refine ⟨(cleared _ _).1.trans flags.length, fun h inside => ?_⟩
  obtain ⟨holds, lasts⟩ := memExpire.mp inside
  refine ((cleared _ _).2 h.reg fun k ended same => ?_).trans (flags.marked h holds)
  obtain ⟨held, gone⟩ := List.mem_filter.mp ended
  cases inv.sameHolder held holds same
  exact absurd lasts (Nat.not_le_of_lt (of_decide_eq_true gone))

theorem visit (consistent : Consistent regs) (cur : Interval) : Flagged regs (s.visit regs cur) := by
  have kept := flags.expire inv cur.start
  unfold Scan.visit
  dsimp only
  split
  · exact ⟨kept.length, kept.marked⟩
  · split
    · rename_i r found
      obtain ⟨listed, -⟩ := freeFound found
      have inside : r < (s.expire cur.start).busy.length := by
        rw [kept.length]
        exact Nat.lt_of_lt_of_le (List.getElem?_eq_some_iff.mp (consistent.cls _ _ listed)).1 consistent.named
      refine ⟨List.length_set.trans kept.length, fun h held => ?_⟩
      simp only [isBusy, place, List.getD_eq_getElem?_getD, List.getElem?_set]
      by_cases same : r = h.reg
      · simp [← same, inside]
      · have old := (List.mem_append.mp held).resolve_right fun new => same (by rw [List.mem_singleton.mp new])
        simpa [same, isBusy, List.getD_eq_getElem?_getD] using kept.marked h old
    · split
      · rename_i v found
        split
        · refine ⟨kept.length, fun h held => ?_⟩
          obtain ⟨k, holds, rfl⟩ := List.mem_map.mp held
          have marked := kept.marked k holds
          split
          · rename_i same
            exact beq_iff_eq.mp same ▸ marked
          · exact marked
        · exact ⟨kept.length, kept.marked⟩
      · exact ⟨kept.length, kept.marked⟩

end Flagged

theorem Scanned.visit {regs : RegisterFile} {size pos : Nat} {done : Interval → Prop} {s : Scan}
    (inv : Scanned regs size done pos s) (flags : Flagged regs s) (consistent : Consistent regs) {cur : Interval}
    (below : cur.value < size) (new : ∀ a, done a → a.value ≠ cur.value) (after : pos ≤ cur.start) :
    Scanned regs size (fun a => done a ∨ a = cur) cur.start (visit regs s cur) := by
  have flags := flags.expire inv cur.start
  have inv := inv.expire after
  unfold Scan.visit
  dsimp only
  split
  · exact inv.spillNew below new
  · rename_i may
    have may : mustSpill cur = false := Bool.eq_false_iff.mpr may
    split
    · rename_i r found
      obtain ⟨listed, free, acceptable⟩ := freeFound found
      have free : ∀ h ∈ (s.expire cur.start).holders, h.reg ≠ r := by
        intro h holds same
        exact Bool.noConfusion ((same ▸ flags.marked h holds).symm.trans free)
      refine inv.place below new rfl
        ⟨isAllocatableOf listed, consistent.cls _ _ listed, acceptableIff.mp acceptable, may⟩ free
        (fun h => by rw [List.mem_append, List.mem_singleton]; rfl) ?_ _
      rw [List.map_append]
      refine List.nodup_append.mpr ⟨inv.regs, by simp, fun q old q' last same => ?_⟩
      obtain ⟨h, holds, rfl⟩ := List.mem_map.mp old
      simp only [List.map_cons, List.map_nil, List.mem_singleton] at last
      exact free h holds (same.trans last)
    · split
      · rename_i v found
        obtain ⟨holds, cls, acceptable⟩ := victimSound found
        split
        -- the register is allocatable since the victim was given it
        · obtain ⟨here, resides⟩ := inv.holders v holds
          have decided := inv.decided _ here
          rw [resides] at decided
          exact inv.handOver holds below new rfl
            ⟨decided.allocatable, cls, acceptableIff.mp acceptable, may⟩
        · exact inv.spillNew below new
      · exact inv.spillNew below new

theorem scannedStart (regs : RegisterFile) (size : Nat) :
    Scanned regs size (fun _ => False) 0 (start regs size) where
  length := List.length_replicate
  once _ _ absent := absent.elim
  decided _ absent := absent.elim
  fresh v assigned := by
    refine absurd ?_ assigned
    simp only [locationOf, start, List.getD_eq_getElem?_getD, List.getElem?_replicate]
    split <;> rfl
  holders _ absent := by cases absent
  regs := List.nodup_nil
  held _ absent := absent.elim
  apart _ _ absent := absent.elim
  slots _ absent := by cases absent
  own _ _ _ absent := absent.elim

theorem runScanned {regs : RegisterFile} {size : Nat} (consistent : Consistent regs)
    {intervals : List Interval} (below : ∀ iv ∈ intervals, iv.value < size)
    (once : (intervals.map Interval.value).Nodup)
    (ordered : intervals.Pairwise fun a b => a.start ≤ b.start) :
    ∃ pos, Scanned regs size (· ∈ intervals) pos (run regs size intervals) := by
  have go (todo : List Interval) (done : Interval → Prop) (pos : Nat) (s : Scan)
      (inv : Scanned regs size done pos s) (flags : Flagged regs s) (below : ∀ iv ∈ todo, iv.value < size)
      (new : ∀ a, done a → ∀ iv ∈ todo, a.value ≠ iv.value)
      (once : (todo.map Interval.value).Nodup) (ordered : todo.Pairwise fun a b => a.start ≤ b.start)
      (after : ∀ iv ∈ todo, pos ≤ iv.start) :
      ∃ pos, Scanned regs size (fun a => done a ∨ a ∈ todo) pos (todo.foldl (Scan.visit regs) s) := by
    induction todo generalizing done pos s with
    | nil => exact ⟨pos, inv.same fun a => by simp⟩
    | cons cur rest ih =>
      obtain ⟨differ, once⟩ := List.nodup_cons.mp once
      obtain ⟨first, ordered⟩ := List.pairwise_cons.mp ordered
      have visited := inv.visit flags consistent (below cur List.mem_cons_self)
        (fun a here => new a here cur List.mem_cons_self) (after cur List.mem_cons_self)
      have newer : ∀ a, done a ∨ a = cur → ∀ iv ∈ rest, a.value ≠ iv.value := by
        rintro a (here | rfl) iv later
        · exact new a here iv (List.mem_cons_of_mem _ later)
        · exact fun same => differ (same ▸ List.mem_map_of_mem later)
      obtain ⟨pos, scanned⟩ := ih _ _ _ visited (flags.visit inv consistent cur)
        (fun iv later => below iv (List.mem_cons_of_mem _ later)) newer once ordered first
      exact ⟨pos, scanned.same fun a => by rw [List.mem_cons, or_assoc]⟩
  obtain ⟨pos, scanned⟩ := go intervals _ 0 _ (scannedStart regs size)
    ⟨List.length_replicate, fun _ absent => nomatch absent⟩ below
    (fun a absent => absent.elim) once ordered fun _ _ => Nat.zero_le _
  exact ⟨pos, scanned.same fun a => by simp⟩

/-! Slots are given out in order, whatever is visited. -/

def Given (s : Scan) : Prop := ∀ k, .slot k ∈ s.locations → k < s.slots

namespace Given
variable {s : Scan} (given : Given s)
include given

theorem spill (v : Nat) : Given (s.spill v) := by
  intro k listed
  rcases List.mem_or_eq_of_mem_set listed with old | new
  · exact Nat.lt_succ_of_lt (given k old)
  · cases new
    exact Nat.lt_succ_self _

theorem place (v r : Nat) : Given (s.place v r) := by
  intro k listed
  rcases List.mem_or_eq_of_mem_set listed with old | new
  · exact given k old
  · cases new

theorem visit (regs : RegisterFile) (cur : Interval) : Given (s.visit regs cur) := by
  have kept : Given (s.expire cur.start) := given
  unfold Scan.visit
  dsimp only
  split
  · exact kept.spill _
  · split
    · exact kept.place _ _
    · split
      · split
        · exact (kept.spill _).place _ _
        · exact kept.spill _
      · exact kept.spill _

end Given

theorem runGiven (regs : RegisterFile) (size : Nat) (intervals : List Interval) :
    Given (run regs size intervals) := by
  refine List.foldlRecOn (motive := Given) _ _ (fun k listed => ?_) fun s given cur _ => given.visit regs cur
  cases List.eq_of_mem_replicate listed

end SsaCodegen.Scan
