import SsaCodegen.Proofs.Ir.WellFormed
/-! Instructions that say nothing beyond what their opcodes use. -/
namespace SsaCodegen

structure Inst.Quiet (inst : Inst) : Prop where
  args : inst.targets = [] → inst.targetArgs = []
  intCond : inst.op ∉ [.icmp, .brIcmp] → inst.intCond = .eq
  floatCond : inst.op ≠ .fcmp → inst.floatCond = .eq
  imm : inst.op ∉ [.load, .store, .fconst] → inst.imm = 0
  callee : inst.op ∉ [.call, .funcAddr] → inst.callee = ""
  trapCode : inst.op ∉ [.load, .store, .trap, .trapnz] → inst.trapCode = .user

theorem Inst.quietIff (inst : Inst) : inst.Quiet ↔
    (inst.targets = [] → inst.targetArgs = []) ∧
    (inst.op ∉ [.icmp, .brIcmp] → inst.intCond = .eq) ∧
    (inst.op ≠ .fcmp → inst.floatCond = .eq) ∧
    (inst.op ∉ [.load, .store, .fconst] → inst.imm = 0) ∧
    (inst.op ∉ [.call, .funcAddr] → inst.callee = "") ∧
    (inst.op ∉ [.load, .store, .trap, .trapnz] → inst.trapCode = .user) :=
  ⟨fun ⟨args, int, float, imm, callee, trap⟩ => ⟨args, int, float, imm, callee, trap⟩,
    fun ⟨args, int, float, imm, callee, trap⟩ => ⟨args, int, float, imm, callee, trap⟩⟩

instance (inst : Inst) : Decidable inst.Quiet := decidable_of_iff' _ inst.quietIff

def Quiet (f : Func) : Prop := ∀ inst ∈ f.insts, inst.Quiet

instance (f : Func) : Decidable (Quiet f) := inferInstanceAs (Decidable (∀ inst ∈ f.insts, _))

theorem Quiet.tidy {f : Func} (quiet : Quiet f) : Tidy f :=
  fun _ inside inst listed => (quiet inst (Func.memInsts inside listed)).args

theorem jumpQuiet (label : String) (args : List Value) (pos : SourcePos) (enc : Encoding) :
    { jumpTo label args pos with enc := enc }.Quiet where
  args absent := nomatch absent
  intCond _ := rfl
  floatCond _ := rfl
  imm _ := rfl
  callee _ := rfl
  trapCode _ := rfl

theorem Inst.Quiet.mapUses {inst : Inst} (quiet : inst.Quiet) (change : Value → Value) :
    (inst.mapUses change).Quiet where
  args absent := by rw [Inst.mapUses, quiet.args absent, List.map_nil]
  intCond := quiet.intCond
  floatCond := quiet.floatCond
  imm := quiet.imm
  callee := quiet.callee
  trapCode := quiet.trapCode

end SsaCodegen
