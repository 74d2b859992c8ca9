import SsaCodegen.Ir.Inst
/-! Emitted code: bytes, and what was noted at offsets among them. Offsets are absolute,
so emissions that follow each other are simply joined. -/
namespace SsaCodegen

abbrev Byte := BitVec 8

def byteOf (n : Nat) : Byte := BitVec.ofNat 8 n

def littleEndian {w : Nat} (count : Nat) (word : BitVec w) : List Byte :=
  (List.range count).map fun k => word.extractLsb' (8 * k) 8

theorem lengthLittleEndian {w : Nat} (count : Nat) (word : BitVec w) :
    (littleEndian count word).length = count := by simp [littleEndian]

inductive RelocKind where
  | callPcRel4
  | abs8
  deriving DecidableEq, Repr, Inhabited

def RelocKind.all : List RelocKind := [.callPcRel4, .abs8]

def RelocKind.name : RelocKind → String
  | .callPcRel4 => "X86CallPCRel4"
  | .abs8 => "Abs8"

structure RelocSite where
  offset : Nat
  kind : RelocKind
  symbol : String
  addend : Int
  deriving DecidableEq, Repr

structure TrapSite where
  offset : Nat
  pos : SourcePos
  code : TrapCode
  deriving DecidableEq, Repr

structure StackMapSite where
  offset : Nat
  slots : List Nat
  frameOffsets : List Int
  deriving DecidableEq, Repr

structure Emission where
  bytes : List Byte := []
  relocs : List RelocSite := []
  traps : List TrapSite := []
  stackMaps : List StackMapSite := []
  deriving DecidableEq, Repr

namespace Emission

def size (e : Emission) : Nat := e.bytes.length

def append (a b : Emission) : Emission :=
  ⟨a.bytes ++ b.bytes, a.relocs ++ b.relocs, a.traps ++ b.traps, a.stackMaps ++ b.stackMaps⟩

def ofBytes (bytes : List Byte) : Emission := { bytes := bytes }

@[simp] theorem sizeAppend (a b : Emission) : (a.append b).size = a.size + b.size := by
  simp [append, size]

theorem appendAssoc (a b c : Emission) : (a.append b).append c = a.append (b.append c) := by
  simp [append]

@[simp] theorem emptyAppend (a : Emission) : append {} a = a := by simp [append]

def deliver {σ : Type} (put : σ → Nat → Byte → σ) (e : Emission) (s : σ) : σ :=
  e.bytes.zipIdx.foldl (fun s (byte, offset) => put s offset byte) s

def storeAt (base : Nat) (e : Emission) (memory : List Byte) : List Byte :=
  e.deliver (fun memory offset byte => memory.set (base + offset) byte) memory

end Emission

structure CodeInfo where
  codeSize : Nat := 0
  jumptablesSize : Nat := 0
  rodataSize : Nat := 0
  totalSize : Nat := 0
  deriving DecidableEq, Repr, Inhabited

/-- Code as it is being written: sections end where the next one begins. Sizes are
32-bit words. -/
structure CodeSink where
  emitted : Emission := {}
  info : CodeInfo := {}
  deriving DecidableEq, Repr

namespace CodeSink

def wrapSize (n : Int) : Nat := (BitVec.ofInt 32 n).toNat

def offset (s : CodeSink) : Nat := s.emitted.size

def write (s : CodeSink) (e : Emission) : CodeSink := { s with emitted := s.emitted.append e }

def beginJumptables (s : CodeSink) : CodeSink :=
  { s with info := { s.info with codeSize := s.offset } }

def beginRodata (s : CodeSink) : CodeSink :=
  { s with info := { s.info with
      jumptablesSize := wrapSize ((s.offset : Int) - s.info.codeSize) } }

def finish (s : CodeSink) : CodeSink :=
  { s with info := { s.info with
      rodataSize := wrapSize ((s.offset : Int) - s.info.codeSize - s.info.jumptablesSize)
      totalSize := s.offset } }

end CodeSink

def overwriteStart (buffer bytes : List Byte) : List Byte :=
  bytes.take buffer.length ++ buffer.drop bytes.length

end SsaCodegen
