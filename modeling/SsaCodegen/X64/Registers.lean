import SsaCodegen.Target.RegisterFile
/-! The registers of x86-64. Numbers 0 to 15 are the general registers in hardware
order, 16 to 31 the xmm registers. The allocator never hands out rax, rcx, rdx, r11,
rsp, rbp and xmm0 to xmm7: they carry arguments and results, are scratch, or hold the
frame. -/
namespace SsaCodegen.X64

abbrev Gpr := Fin 16

abbrev Xmm := Fin 16

def gprOf (number : Nat) : Gpr := Fin.ofNat 16 number

def xmmOf (number : Nat) : Xmm := Fin.ofNat 16 number

abbrev Reg := Fin 32

def regOf (number : Nat) : Reg := Fin.ofNat 32 number

def Reg.code (r : Reg) : Fin 16 := Fin.ofNat 16 r.val

theorem Reg.codeRegOf (number : Nat) : Reg.code (regOf number) = gprOf number := by
  apply Fin.ext
  simp [Reg.code, regOf, gprOf]

def rax : Nat := 0
def rcx : Nat := 1
def rdx : Nat := 2
def rbx : Nat := 3
def rsp : Nat := 4
def rbp : Nat := 5
def rsi : Nat := 6
def rdi : Nat := 7
def r8 : Nat := 8
def r9 : Nat := 9
def r10 : Nat := 10
def r11 : Nat := 11
def r12 : Nat := 12
def r13 : Nat := 13
def r14 : Nat := 14
def r15 : Nat := 15

def xmm (k : Nat) : Nat := 16 + k

def slotBytes : Nat := 8

def stackAlignment : Nat := 16

def registerNames : List String :=
  ["rax", "rcx", "rdx", "rbx", "rsp", "rbp", "rsi", "rdi",
   "r8", "r9", "r10", "r11", "r12", "r13", "r14", "r15",
   "xmm0", "xmm1", "xmm2", "xmm3", "xmm4", "xmm5", "xmm6", "xmm7",
   "xmm8", "xmm9", "xmm10", "xmm11", "xmm12", "xmm13", "xmm14", "xmm15"]

def registerFile : RegisterFile where
  names := registerNames
  classes := List.replicate 16 .gpr ++ List.replicate 16 .fpr
  allocatableGpr := [rbx, r12, r13, r14, r15, rsi, rdi, r8, r9, r10]
  allocatableFpr := (List.range 8).map fun k => xmm (8 + k)
  calleeSaved := [rbx, r12, r13, r14, r15]

theorem allocatableClass {cls : RegClass} {n : Nat}
    (h : n ∈ registerFile.allocatable cls) : registerFile.class? n = some cls := by
  revert n
  cases cls <;> decide

structure Abi where
  intArgs : List Nat
  floatArgs : List Nat
  intReturns : List Nat
  floatReturns : List Nat
  deriving DecidableEq, Repr

def systemV : Abi where
  intArgs := [rdi, rsi, rdx, rcx, r8, r9]
  floatArgs := (List.range 8).map xmm
  intReturns := [rax, rdx]
  floatReturns := [xmm 0, xmm 1]

def assignByClass (ints floats : List Nat) : List Ty → List Nat
  | [] => []
  | ty :: rest =>
    if ty.isFloat then (floats.headD 0) :: assignByClass ints floats.tail rest
    else (ints.headD 0) :: assignByClass ints.tail floats rest

theorem lengthAssignByClass (ints floats : List Nat) (types : List Ty) :
    (assignByClass ints floats types).length = types.length := by
  induction types generalizing ints floats with
  | nil => rfl
  | cons ty rest ih => simp only [assignByClass]; split <;> simp [ih]

def argRegs (types : List Ty) : List Nat := assignByClass systemV.intArgs systemV.floatArgs types

def returnRegs (types : List Ty) : List Nat :=
  assignByClass systemV.intReturns systemV.floatReturns types

def fitsClasses (ints floats : List Nat) (types : List Ty) : Bool :=
  (types.filter (!·.isFloat)).length ≤ ints.length &&
    (types.filter (·.isFloat)).length ≤ floats.length

def fitsArgRegs (types : List Ty) : Bool := fitsClasses systemV.intArgs systemV.floatArgs types

def fitsReturnRegs (types : List Ty) : Bool :=
  fitsClasses systemV.intReturns systemV.floatReturns types

end SsaCodegen.X64
