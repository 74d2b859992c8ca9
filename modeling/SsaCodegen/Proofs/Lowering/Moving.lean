import SsaCodegen.Proofs.Lowering.Operands
import SsaCodegen.Proofs.Lowering.Stack
import SsaCodegen.Proofs.Moves.Serving
/-! Words moved on the machine. Code for a move sets one place to what another holds, maybe by way of a
register that holds no value, so that the code of all moves does what the moves do to keys. -/
namespace SsaCodegen.X64

namespace Processor

def held (f : Func) (p : Processor) : Location → Word
  | .reg n => if n < 16 then p.regs (gprOf n) else p.xmms (xmmOf n)
  | .slot s => p.word (p.slotAddress f s)
  | .unassigned => 0

def operand (f : Func) (p : Processor) (v : Value) : Word :=
  match v with
  | .temp id => p.held f (f.location id)
  | _ => v.intPayload

end Processor

def InClass (f : Func) (cls : RegClass) : Location → Prop
  | .reg n => registerFile.class? n = some cls
  | .slot s => s < f.stackSlots.length
  | .unassigned => False

/-- No byte of one slot is a byte of another, whatever rbp is. -/
def Spread (f : Func) : Prop := ∀ (m : Machine), ∀ s < f.stackSlots.length, ∀ t < f.stackSlots.length, s ≠ t →
  ∀ k < 8, 8 ≤ (m.slotAddress f t + BitVec.ofNat 64 k - m.slotAddress f s).toNat

section Numbers
variable {n m : Nat}

theorem classNumber {cls : RegClass} (known : registerFile.class? n = some cls) :
    n < 32 ∧ (cls = .gpr ↔ n < 16) := by
  have below : n < 32 := (List.getElem?_eq_some_iff.mp known).1
  have all : ∀ n < 32, ∀ cls, registerFile.class? n = some cls → (cls = .gpr ↔ n < 16) := by decide
  exact ⟨below, all n below cls known⟩

theorem generalNumber (known : registerFile.class? n = some .gpr) : n < 16 := (classNumber known).2.mp rfl

theorem floatNumber (known : registerFile.class? n = some .fpr) : ¬ n < 16 :=
  fun general => RegClass.noConfusion ((classNumber known).2.mpr general)

theorem gprApart (small : n < 16) (other : m < 16) (differ : m ≠ n) : gprOf m ≠ gprOf n := by
  intro same
  have numbers := congrArg Fin.val same
  simp only [gprOf, Fin.val_ofNat, Nat.mod_eq_of_lt, small, other] at numbers
  exact differ numbers

theorem xmmApart (known : registerFile.class? n = some .fpr) (also : registerFile.class? m = some .fpr)
    (differ : m ≠ n) : xmmOf m ≠ xmmOf n := by
  intro same
  have numbers := congrArg Fin.val same
  have left := (classNumber known).1
  have right := (classNumber also).1
  have high := floatNumber known
  have top := floatNumber also
  simp only [xmmOf, Fin.val_ofNat] at numbers
  omega

end Numbers

structure Sets (f : Func) (loc : Location) (word : Word) (p q : Processor) : Prop where
  set : q.held f loc = word
  kept : ∀ cls other, InClass f cls other → other ≠ loc → q.held f other = p.held f other
  memory : ∀ a, (∀ s, loc = .slot s → slotBytes ≤ (a - p.slotAddress f s).toNat) → q.memory a = p.memory a

theorem frameKnown (f : Func) : InClass f .gpr (.reg rbp) := by
  show registerFile.class? rbp = some .gpr
  rfl

theorem slotAddressSame {f : Func} {p q : Processor} (base : q.held f (.reg rbp) = p.held f (.reg rbp)) (s : Nat) :
    q.slotAddress f s = p.slotAddress f s := by
  have frame : q.regs (gprOf rbp) = p.regs (gprOf rbp) := base
  rw [Machine.slotAddress, Machine.address, frame]
  rfl

namespace Sets
variable {f : Func} {p : Processor} {n s : Nat}

theorem same (loc : Location) : Sets f loc (p.held f loc) p p := ⟨rfl, fun _ _ _ _ => rfl, fun _ _ => rfl⟩

theorem register {q : Processor} {loc : Location} {word : Word} (sets : Sets f loc word p q) {cls : RegClass}
    (known : registerFile.class? n = some cls) (other : .reg n ≠ loc) : q.held f (.reg n) = p.held f (.reg n) :=
  sets.kept cls (.reg n) known other

theorem gpr (general : registerFile.class? n = some .gpr) (frame : n ≠ rbp) (word : Word) :
    Sets f (.reg n) word p (p.after (p.set (gprOf n) word)) where
  set := (if_pos (generalNumber general)).trans (Machine.getSame ..)
  kept cls other known differ := by
    cases other with
    | unassigned => rfl
    | slot s => exact Machine.slotSame f s rfl (Machine.getOther _ _ _ _ (by
        exact gprApart (generalNumber general) (by decide) (Ne.symm frame)))
    | reg m =>
      simp only [Processor.held]
      split
      · next small =>
        refine Machine.getOther _ _ _ _ (gprApart (generalNumber general) small fun same => differ ?_)
        rw [same]
      · rfl
  memory _ _ := rfl

theorem fpr (float : registerFile.class? n = some .fpr) (word : Word) :
    Sets f (.reg n) word p (p.setXmm (xmmOf n) word) where
  set := (if_neg (floatNumber float)).trans (if_pos rfl)
  kept cls other known differ := by
    cases other with
    | unassigned => rfl
    | slot s => rfl
    | reg m =>
      simp only [Processor.held]
      split
      · rfl
      · next large =>
        have also : registerFile.class? m = some .fpr := by
          cases cls with
          | gpr => exact absurd (generalNumber known) large
          | fpr => exact known
        exact if_neg (xmmApart float also fun same => differ (by rw [same]))
  memory _ _ := rfl

theorem slot (spread : Spread f) (below : s < f.stackSlots.length) (word : Word) :
    Sets f (.slot s) word p (p.after (p.setWord (p.slotAddress f s) word)) where
  set := Machine.wordWritten ..
  kept cls other known differ := by
    cases other with
    | unassigned => rfl
    | reg m => rfl
    | slot t =>
      refine Machine.wordKept _ _ _ (spread p.toMachine s below t known fun same => differ ?_)
      rw [same]
  memory a away := if_neg (Nat.not_lt.mpr (away s rfl))

end Sets

section Moves
variable {f : Func} {cls : RegClass} {u : Undefined} {p : Processor} {dst src : Nat} {loc : Location}

theorem moveRegSets (known : registerFile.class? dst = some cls) (also : registerFile.class? src = some cls)
    (frame : dst ≠ rbp) : ∃ q, pass u (Lower.moveReg cls dst src) p = some (.goes q) ∧
      Sets f (.reg dst) (p.held f (.reg src)) p q := by
  by_cases same : src = dst
  · subst same
    refine ⟨p, ?_, .same _⟩
    cases cls with
    | gpr => rw [Lower.moveReg, Lower.moveGpr, if_pos rfl]; rfl
    | fpr => rw [Lower.moveReg, Lower.moveXmm, if_pos rfl]; rfl
  · cases cls with
    | gpr =>
      rw [Lower.moveReg, Lower.moveGpr, if_neg same, Processor.held, if_pos (generalNumber also)]
      exact ⟨_, passInst rfl [], .gpr known frame _⟩
    | fpr =>
      rw [Lower.moveReg, Lower.moveXmm, if_neg same, Processor.held, if_neg (floatNumber also)]
      exact ⟨_, passInst rfl [], .fpr known _⟩

theorem loadSets (known : registerFile.class? dst = some cls) (frame : dst ≠ rbp) (origin : InClass f cls loc) :
    ∃ q, pass u (Lower.loadLocation f cls dst loc) p = some (.goes q) ∧
      Sets f (.reg dst) (p.held f loc) p q := by
  cases loc with
  | unassigned => exact origin.elim
  | reg n => exact moveRegSets known origin frame
  | slot s =>
    cases cls with
    | gpr => exact ⟨_, passInst rfl [], .gpr known frame _⟩
    | fpr => exact ⟨_, passInst rfl [], .fpr known _⟩

theorem storeSets (spread : Spread f) (into : InClass f cls loc) (frame : loc ≠ .reg rbp)
    (known : registerFile.class? src = some cls) :
    ∃ q, pass u (Lower.storeLocation f cls src loc) p = some (.goes q) ∧
      Sets f loc (p.held f (.reg src)) p q := by
  cases loc with
  | unassigned => exact into.elim
  | reg n => exact moveRegSets into known fun same => frame (by rw [same])
  | slot s =>
    cases cls with
    | gpr =>
      rw [Processor.held, if_pos (generalNumber known), ← Reg.codeRegOf]
      exact ⟨_, passInst rfl [], .slot spread into _⟩
    | fpr =>
      rw [Processor.held, if_neg (floatNumber known)]
      exact ⟨_, passInst rfl [], .slot spread into _⟩

theorem materializeSets (known : registerFile.class? dst = some .gpr) (frame : dst ≠ rbp) {word : Word} {wide : Bool}
    (fits : wide = true ∨ word.toNat < 0x100000000) :
    ∃ q, pass u [Lower.materialize dst word wide] p = some (.goes q) ∧ Sets f (.reg dst) word p q := by
  have as {x : Word} (same : x = word) : Sets f (.reg dst) word p (p.after (p.set (gprOf dst) x)) :=
    same ▸ .gpr known frame x
  rw [Lower.materialize]
  split
  · next short =>
    have small : word.toNat < 0x100000000 := by
      rcases fits with rfl | small
      · simpa using short
      · exact small
    refine ⟨_, passInst rfl [], as (BitVec.eq_of_toNat_eq ?_)⟩
    simp only [BitVec.toNat_setWidth]
    omega
  · split
    · next fits => exact ⟨_, passInst rfl [], as (extendedNarrow fits)⟩
    · exact ⟨_, passInst rfl [], as rfl⟩

end Moves

structure Leaves (f : Func) (writes : List Location) (p q : Processor) : Prop where
  kept : ∀ cls loc, InClass f cls loc → loc ∉ writes → q.held f loc = p.held f loc
  memory : ∀ a, (∀ s, .slot s ∈ writes → slotBytes ≤ (a - p.slotAddress f s).toNat) → q.memory a = p.memory a

namespace Leaves
variable {f : Func} {writes more : List Location} {p q r : Processor} {loc : Location} {word : Word}

theorem refl (f : Func) (writes : List Location) (p : Processor) : Leaves f writes p p :=
  ⟨fun _ _ _ _ => rfl, fun _ _ => rfl⟩

theorem mono (leaves : Leaves f writes p q) (part : writes ⊆ more) : Leaves f more p q where
  kept cls loc known absent := leaves.kept cls loc known fun inside => absent (part inside)
  memory a away := leaves.memory a fun s inside => away s (part inside)

theorem trans (first : Leaves f writes p q) (next : Leaves f writes q r) (frame : .reg rbp ∉ writes) :
    Leaves f writes p r where
  kept cls loc known absent := (next.kept cls loc known absent).trans (first.kept cls loc known absent)
  memory a away := by
    refine (next.memory a fun s inside => ?_).trans (first.memory a away)
    rw [slotAddressSame (first.kept _ _ (frameKnown f) frame)]
    exact away s inside

theorem ofSets (sets : Sets f loc word p q) : Leaves f [loc] p q where
  kept cls other known absent := sets.kept cls other known (List.ne_of_not_mem_cons absent)
  memory a away := sets.memory a fun s same => away s (same ▸ List.mem_cons_self)

theorem sets (leaves : Leaves f writes p q) (sets : Sets f loc word q r) (inside : loc ∈ writes)
    (frame : .reg rbp ∉ writes) : Leaves f writes p r :=
  leaves.trans ((ofSets sets).mono (List.cons_subset.mpr ⟨inside, List.nil_subset _⟩)) frame

end Leaves

def placeAt (key : Nat) : Location := if slotKeyBase ≤ key then .slot (key - slotKeyBase) else .reg key

theorem keyOfPlace (key : Nat) : locationKey (placeAt key) = key := by
  unfold placeAt
  split
  · next slot => exact Nat.add_sub_cancel' slot
  · rfl

theorem placeAtApart {a b : Nat} (differ : a ≠ b) : placeAt a ≠ placeAt b := fun same =>
  differ (by rw [← keyOfPlace a, same, keyOfPlace b])

theorem loadKeyIs (f : Func) (cls : RegClass) (dst key : Nat) :
    Lower.loadKey f cls dst key = Lower.loadLocation f cls dst (placeAt key) := by
  unfold Lower.loadKey placeAt
  split <;> rfl

theorem storeKeyIs (f : Func) (cls : RegClass) (key src : Nat) :
    Lower.storeKey f cls key src = Lower.storeLocation f cls src (placeAt key) := by
  unfold Lower.storeKey placeAt
  split <;> rfl

def scratchPlaces : List Location := [.reg rax, .reg r11, .reg (xmm 0), .reg (xmm 1)]

structure Movable (f : Func) (copies : List Copy) : Prop where
  written : (copies.map Copy.dst).Nodup
  apart : ParallelCopy.Apart copies
  sources : ∀ c ∈ copies, InClass f c.cls (placeAt c.src)
  dests : ∀ c ∈ copies, InClass f c.cls (placeAt c.dst)
  frame : ∀ c ∈ copies, c.dst ≠ rbp
  scratch : ∀ c ∈ copies, slotKeyBase ≤ c.src → slotKeyBase ≤ c.dst → ∀ d ∈ copies, Lower.scratchOf c.cls ∉ d.keys
  turns : ∀ c ∈ copies, ∀ d ∈ copies, d.cls = c.cls → d.src = c.dst → ∀ e ∈ copies, Lower.cycleTempOf c.cls ∉ e.keys

structure Mirrors (f : Func) (copies : List Copy) (p : Processor) (q : Places Word) (t : Processor) : Prop where
  held : ∀ c ∈ copies, ∀ key ∈ c.keys, t.held f (placeAt key) = q.held key
  temp : ∀ cls word, q.temp cls = some word → t.held f (.reg (Lower.cycleTempOf cls)) = word ∧
    ∀ c ∈ copies, Lower.cycleTempOf cls ∉ c.keys
  leaves : Leaves f (copies.map (fun c => placeAt c.dst) ++ scratchPlaces) p t

namespace Mirrors

theorem tempClass (cls : RegClass) : registerFile.class? (Lower.cycleTempOf cls) = some cls ∧
    Lower.cycleTempOf cls ≠ rbp ∧ .reg (Lower.cycleTempOf cls) ∈ scratchPlaces := by
  cases cls <;> decide

theorem scratchClass (cls : RegClass) : registerFile.class? (Lower.scratchOf cls) = some cls ∧
    Lower.scratchOf cls ≠ rbp ∧ .reg (Lower.scratchOf cls) ∈ scratchPlaces ∧
    ∀ other, Lower.scratchOf cls ≠ Lower.cycleTempOf other := by
  cases cls <;> refine ⟨by decide, by decide, by decide, fun other => ?_⟩ <;> cases other <;> decide

theorem placeAtRegister {cls : RegClass} {n : Nat} (known : registerFile.class? n = some cls) : placeAt n = .reg n :=
  if_neg (by have := (classNumber known).1; simp only [slotKeyBase]; omega)

variable {f : Func} {copies : List Copy} {p t r : Processor} {q : Places Word} {u : Undefined} {word : Word}
  (movable : Movable f copies) (mirrors : Mirrors f copies p q t)
include movable

theorem framed : .reg rbp ∉ copies.map (fun c => placeAt c.dst) ++ scratchPlaces := by
  intro inside
  rcases List.mem_append.mp inside with written | scratch
  · obtain ⟨c, there, same⟩ := List.mem_map.mp written
    refine movable.frame c there ?_
    rw [← keyOfPlace c.dst, same]
    rfl
  · revert scratch
    decide

include mirrors

theorem put {c : Copy} (inside : c ∈ copies) (sets : Sets f (placeAt c.dst) word t r) :
    Mirrors f copies p (q.put c.dst word) r where
  held d there key uses := by
    by_cases same : key = c.dst
    · rw [same]
      exact sets.set.trans (if_pos rfl).symm
    · refine Eq.trans ?_ (if_neg same).symm
      have known : InClass f d.cls (placeAt key) := by
        rcases List.mem_pair.mp uses with rfl | rfl
        · exact movable.sources d there
        · exact movable.dests d there
      exact (sets.kept _ _ known (placeAtApart same)).trans (mirrors.held d there key uses)
  temp cls w saved := by
    obtain ⟨held, free⟩ := mirrors.temp cls w saved
    refine ⟨(sets.register (tempClass cls).1 fun same => free c inside ?_).trans held, free⟩
    have key : Lower.cycleTempOf cls = c.dst := by
      rw [← keyOfPlace c.dst, ← same]
      rfl
    exact key ▸ c.dstKey
  leaves := by
    refine mirrors.leaves.sets sets (List.mem_append_left _ ?_) (framed movable)
    exact List.mem_map.mpr ⟨c, inside, rfl⟩

theorem aside {cls : RegClass} {n : Nat} (known : registerFile.class? n = some cls) (scratch : .reg n ∈ scratchPlaces)
    (free : ∀ c ∈ copies, n ∉ c.keys) (sets : Sets f (.reg n) word t r) :
    (∀ c ∈ copies, ∀ key ∈ c.keys, r.held f (placeAt key) = q.held key) ∧
      Leaves f (copies.map (fun c => placeAt c.dst) ++ scratchPlaces) p r := by
  refine ⟨fun c inside key uses => ?_, mirrors.leaves.sets sets (List.mem_append_right _ scratch) (framed movable)⟩
  have place : InClass f c.cls (placeAt key) := by
    rcases List.mem_pair.mp uses with rfl | rfl
    · exact movable.sources c inside
    · exact movable.dests c inside
  refine (sets.kept _ _ place ?_).trans (mirrors.held c inside key uses)
  rw [← placeAtRegister known]
  exact placeAtApart fun same => free c inside (same ▸ uses)

theorem scratched {cls : RegClass} (free : ∀ c ∈ copies, Lower.scratchOf cls ∉ c.keys)
    (sets : Sets f (.reg (Lower.scratchOf cls)) word t r) : Mirrors f copies p q r := by
  obtain ⟨known, -, scratch, apart⟩ := scratchClass cls
  obtain ⟨held, leaves⟩ := aside movable mirrors known scratch free sets
  refine ⟨held, fun other w saved => ?_, leaves⟩
  obtain ⟨was, free⟩ := mirrors.temp other w saved
  refine ⟨(sets.register (tempClass other).1 fun same => apart other ?_).trans was, free⟩
  exact (Location.reg.inj same).symm

theorem save {cls : RegClass} (free : ∀ c ∈ copies, Lower.cycleTempOf cls ∉ c.keys)
    (sets : Sets f (.reg (Lower.cycleTempOf cls)) word t r) : Mirrors f copies p (q.save cls word) r := by
  obtain ⟨known, -, scratch⟩ := tempClass cls
  obtain ⟨held, leaves⟩ := aside movable mirrors known scratch free sets
  refine ⟨held, fun other w saved => ?_, leaves⟩
  by_cases same : other = cls
  · subst same
    cases Option.some.inj ((if_pos rfl).symm.trans saved)
    exact ⟨sets.set, free⟩
  · obtain ⟨was, free⟩ := mirrors.temp other w ((if_neg same).symm.trans saved)
    refine ⟨(sets.register (tempClass other).1 fun also => same ?_).trans was, free⟩
    revert also
    cases other <;> cases cls <;>
      first
      | exact fun _ => rfl
      | exact fun also => absurd (Location.reg.inj also) (by decide)

theorem step (spread : Spread f) {m : Move} (serves : m.Serves copies)
    (saves : ∀ cls src, m = .toTemp cls src → ∀ c ∈ copies, Lower.cycleTempOf cls ∉ c.keys) {q' : Places Word}
    (stepped : m.step? q = some q') :
    ∃ r, pass u (Lower.lowerMove f m) t = some (.goes r) ∧ Mirrors f copies p q' r := by
  cases m with
  | copy cls src dst =>
    cases stepped
    have known := movable.dests _ serves
    have origin := movable.sources _ serves
    have word := mirrors.held _ serves src (Copy.srcKey _)
    have frame := movable.frame _ serves
    rw [Lower.lowerMove, ← word]
    split
    · next register =>
      have place : placeAt dst = .reg dst := if_neg (Nat.not_le.mpr register)
      have register' : InClass f cls (.reg dst) := place ▸ known
      rw [loadKeyIs]
      obtain ⟨r, goes, sets⟩ := loadSets (u := u) (p := t) register' frame origin
      exact ⟨r, goes, mirrors.put movable serves (place ▸ sets)⟩
    · next slot =>
      have other : placeAt dst ≠ .reg rbp := by
        rw [placeAt, if_pos (Nat.not_lt.mp slot)]
        exact Location.noConfusion
      split
      · next register =>
        have place : placeAt src = .reg src := if_neg (Nat.not_le.mpr register)
        rw [storeKeyIs, place]
        obtain ⟨r, goes, sets⟩ := storeSets (u := u) (p := t) spread known other (place ▸ origin)
        exact ⟨r, goes, mirrors.put movable serves sets⟩
      · next far =>
        obtain ⟨general, plain, -, -⟩ := scratchClass cls
        rw [loadKeyIs, storeKeyIs]
        obtain ⟨mid, first, sets⟩ := loadSets (u := u) (p := t) general plain origin
        obtain ⟨r, next, sets'⟩ := storeSets (u := u) (p := mid) spread known other general
        have free := movable.scratch _ serves (Nat.not_lt.mp far) (Nat.not_lt.mp slot)
        rw [sets.set] at sets'
        exact ⟨r, (passAppend first _).trans next, (mirrors.scratched movable free sets).put movable serves sets'⟩
  | toTemp cls src =>
    cases stepped
    obtain ⟨dst, there⟩ := serves
    obtain ⟨known, plain, -⟩ := tempClass cls
    rw [Lower.lowerMove, loadKeyIs, ← mirrors.held _ there src (Copy.srcKey _)]
    obtain ⟨r, goes, sets⟩ := loadSets (u := u) (p := t) known plain (movable.sources _ there)
    exact ⟨r, goes, mirrors.save movable (saves cls src rfl) sets⟩
  | fromTemp cls dst =>
    obtain ⟨src, there⟩ := serves
    obtain ⟨word, saved, rfl⟩ := Option.map_eq_some_iff.mp stepped
    obtain ⟨held, -⟩ := mirrors.temp cls word saved
    have other : placeAt dst ≠ .reg rbp := by
      intro same
      refine movable.frame _ there ?_
      rw [← keyOfPlace dst, same]
      rfl
    rw [Lower.lowerMove, storeKeyIs]
    obtain ⟨r, goes, sets⟩ := storeSets (u := u) (p := t) spread (movable.dests _ there) other (tempClass cls).1
    exact ⟨r, goes, mirrors.put movable there (held ▸ sets)⟩

theorem run (spread : Spread f) {moves : List Move} (serves : ∀ m ∈ moves, m.Serves copies)
    (saves : ∀ cls src, .toTemp cls src ∈ moves → ∀ c ∈ copies, Lower.cycleTempOf cls ∉ c.keys) {q' : Places Word}
    (ran : runMoves moves q = some q') :
    ∃ r, pass u (moves.flatMap (Lower.lowerMove f)) t = some (.goes r) ∧ Mirrors f copies p q' r := by
  induction moves generalizing q t with
  | nil =>
    cases ran
    exact ⟨t, rfl, mirrors⟩
  | cons m rest ih =>
    obtain ⟨mid, stepped, later⟩ := Option.bind_eq_some_iff.mp ran
    obtain ⟨s, goes, now⟩ := mirrors.step movable spread (serves m List.mem_cons_self)
      (fun cls src same => saves cls src (same ▸ List.mem_cons_self)) stepped (u := u)
    obtain ⟨r, goes', last⟩ := ih now (fun m inside => serves m (List.mem_cons_of_mem _ inside))
      (fun cls src inside => saves cls src (List.mem_cons_of_mem _ inside)) later
    exact ⟨r, (passAppend goes _).trans goes', last⟩

end Mirrors

structure Transferred (f : Func) (puts : List (Location × Word)) (p q : Processor) : Prop where
  taken : ∀ e ∈ puts, q.held f e.1 = e.2
  leaves : Leaves f (puts.map Prod.fst ++ scratchPlaces) p q

theorem lowerMovesTransfer {f : Func} {copies : List Copy} (movable : Movable f copies) (spread : Spread f)
    (u : Undefined) (p : Processor) : ∃ q, pass u (Lower.lowerMoves f copies) p = some (.goes q) ∧
      Transferred f (copies.map fun c => (placeAt c.dst, p.held f (placeAt c.src))) p q := by
  have start : Mirrors f copies p ⟨fun key => p.held f (placeAt key), fun _ => none⟩ p :=
    ⟨fun _ _ _ _ => rfl, fun _ _ absent => absurd absent (Option.some_ne_none _).symm, .refl ..⟩
  obtain ⟨after, ran, made⟩ := copiesMade movable.written movable.apart
    ⟨fun key => p.held f (placeAt key), fun _ => none⟩
  obtain ⟨q, goes, mirrors⟩ := start.run movable spread (resolveCopiesServe copies) (fun cls src saves => by
    obtain ⟨c, inside, d, there, rfl, same, reads⟩ := savedTurns movable.written saves
    exact movable.turns c inside d there same reads) ran
  refine ⟨q, goes, fun e inside => ?_, ?_⟩
  · obtain ⟨c, there, rfl⟩ := List.mem_map.mp inside
    exact (mirrors.held c there c.dst c.dstKey).trans (made.copied c there)
  · rw [List.map_map]
    exact mirrors.leaves

end SsaCodegen.X64
