import SsaCodegen.Proofs.Lowering.Slots
/-! The whole machine: beside the general registers the low words of the xmm registers, and the stack.
Straight code goes on to its end or comes to a return. What a list of pushes leaves below the top of the
stack is what the same pops, the other way round, bring back. -/
namespace SsaCodegen.X64

structure Processor extends Machine where
  xmms : Xmm → BitVec 64

inductive Passage where
  | goes (p : Processor)
  | returns (p : Processor)
  | faults

namespace Processor

def after (p : Processor) (m : Machine) : Processor := { toMachine := m, xmms := p.xmms }

def setXmm (p : Processor) (x : Xmm) (word : BitVec 64) : Processor :=
  { p with xmms := fun y => if y = x then word else p.xmms y }

def push (p : Processor) (word : BitVec 64) : Processor :=
  let top := p.regs (gprOf rsp) - 8
  p.after ((p.setWord top word).set (gprOf rsp) top)

def pop (p : Processor) (r : Gpr) : Processor :=
  let top := p.regs (gprOf rsp)
  p.after ((p.set (gprOf rsp) (top + 8)).set r (p.word top))

end Processor

def MachineInst.pass? (u : Undefined) (p : Processor) (i : MachineInst) : Option Passage :=
  match i with
  | push r => some (.goes (p.push (p.regs r)))
  | pop r => some (.goes (p.pop r))
  | lea dst base disp => some (.goes (p.after (p.set dst (p.address base disp))))
  | movsdRR dst src => some (.goes (p.setXmm dst (p.xmms src)))
  | movsdLoad dst base disp => some (.goes (p.setXmm dst (p.word (p.address base disp))))
  | movsdStore base disp src => some (.goes (p.after (p.setWord (p.address base disp) (p.xmms src))))
  | ret => some (.returns p)
  | i => (i.execute? u p.toMachine).map fun
    | .goes m => .goes (p.after m)
    | .faults => .faults

def pass (u : Undefined) : List Asm → Processor → Option Passage
  | [], p => some (.goes p)
  | .inst i :: rest, p =>
    match i.pass? u p with
    | some (.goes q) => pass u rest q
    | stopped => stopped
  | .trapSite .. :: rest, p | .stackMap .. :: rest, p => pass u rest p
  | .jump .. :: _, _ | .jumpIf .. :: _, _ => none

section Passing
variable {u : Undefined} {p q : Processor}

theorem passInst {i : MachineInst} (passes : i.pass? u p = some (.goes q)) (rest : List Asm) :
    pass u (.inst i :: rest) p = pass u rest q := by
  simp only [pass, passes]

theorem passAppend {a : List Asm} (first : pass u a p = some (.goes q)) (b : List Asm) :
    pass u (a ++ b) p = pass u b q := by
  induction a generalizing p with
  | nil =>
    cases first
    rfl
  | cons item rest ih =>
    cases item with
    | inst i =>
      simp only [List.cons_append, pass] at first ⊢
      split at first
      · exact ih first
      · rename_i stopped
        exact absurd first (stopped q)
    | trapSite code pos => exact ih first
    | stackMap slots offsets => exact ih first
    | jump near target => cases first
    | jumpIf cond near target => cases first

end Passing

def depth (top a : BitVec 64) : Nat := (top - 1 - a).toNat

section Depth
variable (top : BitVec 64) {a : BitVec 64} {n : Nat}

theorem depthLower (fits : 8 * (n + 1) ≤ 2 ^ 64) (low : depth (top - 8) a < 8 * n) :
    depth top a = depth (top - 8) a + 8 := by
  unfold depth at *
  generalize below : top - 8 - 1 - a = x at *
  rw [show top - 1 - a = x + 8 by rw [← below]; bv_omega]
  bv_omega

theorem depthUpper {k : Nat} (below : k < 8) : depth top (top - 8 + BitVec.ofNat 64 k) < 8 := by
  unfold depth
  rw [show top - 1 - (top - 8 + BitVec.ofNat 64 k) = 7 - BitVec.ofNat 64 k by bv_omega]
  bv_omega

theorem depthHigher (high : 8 ≤ depth top a) : depth top a = depth (top - 8) a + 8 := by
  unfold depth at *
  generalize below : top - 1 - a = x at *
  rw [show top - 8 - 1 - a = x - 8 by rw [← below]; bv_omega]
  bv_omega

theorem depthOver {k : Nat} (below : k < 8) : 2 ^ 64 ≤ depth top (top + BitVec.ofNat 64 k) + 8 := by
  unfold depth
  rw [show top - 1 - (top + BitVec.ofNat 64 k) = - 1 - BitVec.ofNat 64 k by bv_omega]
  bv_omega

theorem depthAbove (high : 8 ≤ depth top a) : 8 ≤ (a - (top - 8)).toNat := by
  unfold depth at high
  generalize below : top - 1 - a = x at *
  rw [show a - (top - 8) = 7 - x by rw [← below]; bv_omega]
  bv_omega

end Depth

section Saved
variable {m n : Machine} {vals : Gpr → BitVec 64} {top : BitVec 64} {rs : List Gpr}

def Saved (m : Machine) (vals : Gpr → BitVec 64) : BitVec 64 → List Gpr → Prop
  | _, [] => True
  | top, r :: rest => m.word (top - 8) = vals r ∧ Saved m vals (top - 8) rest

theorem wordAgrees {a : BitVec 64}
    (same : ∀ k < 8, n.memory (a + BitVec.ofNat 64 k) = m.memory (a + BitVec.ofNat 64 k)) : n.word a = m.word a := by
  unfold Machine.word
  congr 2
  exact List.map_congr_left fun k below => same k (List.mem_range.mp below)

theorem savedKept (fits : 8 * rs.length ≤ 2 ^ 64)
    (same : ∀ a, depth top a < 8 * rs.length → n.memory a = m.memory a) (saved : Saved m vals top rs) :
    Saved n vals top rs := by
  induction rs generalizing top with
  | nil => trivial
  | cons r rest ih =>
    simp only [List.length_cons] at fits same
    refine ⟨(wordAgrees fun k below => same _ ?_).trans saved.1, ih (by omega) (fun a low => same a ?_) saved.2⟩
    · have := depthUpper top below
      omega
    · rw [depthLower _ fits low]
      omega

end Saved

section Pushes
variable {u : Undefined} {p : Processor} {vals : Gpr → BitVec 64} {rs : List Gpr}

structure Pushed (rs : List Gpr) (vals : Gpr → BitVec 64) (p q : Processor) : Prop where
  top : q.regs (gprOf rsp) = p.regs (gprOf rsp) - BitVec.ofNat 64 (8 * rs.length)
  regs : ∀ r ≠ gprOf rsp, q.regs r = p.regs r
  saved : Saved q.toMachine vals (p.regs (gprOf rsp)) rs
  memory : ∀ a, 8 * rs.length ≤ depth (p.regs (gprOf rsp)) a → q.memory a = p.memory a

theorem pushesGo (rs : List Gpr) (vals : Gpr → BitVec 64) (plain : gprOf rsp ∉ rs) (fits : 8 * rs.length ≤ 2 ^ 64)
    (held : ∀ r ∈ rs, p.regs r = vals r) :
    ∃ q, pass u (rs.map fun r => .inst (.push r)) p = some (.goes q) ∧ Pushed rs vals p q := by
  induction rs generalizing p with
  | nil => exact ⟨p, rfl, (BitVec.sub_zero _).symm, fun _ _ => rfl, trivial, fun _ _ => rfl⟩
  | cons r rest ih =>
    simp only [List.mem_cons, not_or, forall_eq_or_imp, List.length_cons] at plain held fits ⊢
    have regs (s : Gpr) (other : s ≠ gprOf rsp) : (p.push (p.regs r)).regs s = p.regs s :=
      Machine.getOther _ _ _ _ other
    have top : (p.push (p.regs r)).regs (gprOf rsp) = p.regs (gprOf rsp) - 8 := Machine.getSame ..
    obtain ⟨q, goes, pushed⟩ := ih (p := p.push (p.regs r)) plain.2 (by omega) fun s inside =>
      (regs s fun same => plain.2 (same ▸ inside)).trans (held.2 s inside)
    have memory := pushed.memory
    rw [top] at memory
    refine ⟨q, (passInst rfl _).trans goes, ?_, fun s other => (pushed.regs s other).trans (regs s other), ⟨?_, ?_⟩,
      fun a high => ?_⟩
    · rw [pushed.top, top, List.length_cons]
      bv_omega
    · -- the later pushes are below
      refine (wordAgrees fun k below => memory _ ?_).trans ((Machine.wordWritten ..).trans held.1)
      have := depthOver (p.regs (gprOf rsp) - 8) below
      omega
    · rw [← top]
      exact pushed.saved
    · rw [List.length_cons] at high
      have higher := depthHigher (p.regs (gprOf rsp)) (a := a) (by omega)
      exact (memory a (by omega)).trans (if_neg (Nat.not_lt.mpr (depthAbove _ (by omega))))

end Pushes

section Pops
variable {u : Undefined} {p : Processor} {vals : Gpr → BitVec 64} {top : BitVec 64} {rs : List Gpr}

structure Popped (rs : List Gpr) (vals : Gpr → BitVec 64) (top : BitVec 64) (p q : Processor) : Prop where
  top : q.regs (gprOf rsp) = top
  held : ∀ r ∈ rs, q.regs r = vals r
  regs : ∀ r ∉ rs, r ≠ gprOf rsp → q.regs r = p.regs r
  memory : q.memory = p.memory

theorem popsGo (rs : List Gpr) (plain : gprOf rsp ∉ rs) (once : rs.Nodup) (saved : Saved p.toMachine vals top rs)
    (bottom : p.regs (gprOf rsp) = top - BitVec.ofNat 64 (8 * rs.length)) :
    ∃ q, pass u (rs.reverse.map fun r => .inst (.pop r)) p = some (.goes q) ∧ Popped rs vals top p q := by
  induction rs generalizing top with
  | nil => exact ⟨p, rfl, bottom.trans (BitVec.sub_zero _), fun _ absent => (nomatch absent), fun _ _ _ => rfl, rfl⟩
  | cons r rest ih =>
    simp only [List.mem_cons, not_or, List.nodup_cons, List.length_cons] at plain once bottom
    obtain ⟨q, goes, popped⟩ := ih plain.2 once.2 saved.2 (by rw [bottom]; bv_omega)
    have word : q.word (top - 8) = vals r := (wordAgrees fun _ _ => congrFun popped.memory _).trans saved.1
    have regs (s : Gpr) (other : s ≠ r) (plain : s ≠ gprOf rsp) : (q.pop r).regs s = q.regs s :=
      (Machine.getOther _ _ _ _ other).trans (Machine.getOther _ _ _ _ plain)
    refine ⟨q.pop r, ?_, ⟨?_, ?_, ?_, popped.memory⟩⟩
    · rw [List.reverse_cons, List.map_append]
      exact (passAppend goes _).trans (passInst rfl _)
    · refine (Machine.getOther _ _ _ _ plain.1).trans ((Machine.getSame ..).trans ?_)
      rw [popped.top]
      bv_omega
    · intro s inside
      rcases List.mem_cons.mp inside with rfl | later
      · refine (Machine.getSame ..).trans ?_
        rw [popped.top]
        exact word
      · refine (regs s (fun same => once.1 (same ▸ later)) fun same => plain.2 (same ▸ later)).trans ?_
        exact popped.held s later
    · intro s outside other
      simp only [List.mem_cons, not_or] at outside
      exact (regs s outside.1 other).trans (popped.regs s outside.2 other)

end Pops
end SsaCodegen.X64
