import TensorKernel.Register.Basic

/-!
# Machines

A machine is what register allocation and code layout need to know of the hardware: the sizes of its
register pools, the names of its registers, the width of its vectors, and which registers a kernel
has to preserve for its caller.
-/

namespace TensorKernel

/-- A vector extension of the x86-64 architecture. -/
inductive Isa where
  | sse41
  | avx2
  | avx512
  /-- A number without a meaning, which behaves like the smallest extension. -/
  | unnamed
deriving DecidableEq, Repr, Inhabited

namespace Isa

/-- The name of an extension. -/
def name : Isa → String
  | sse41 => "sse41"
  | avx2 => "avx2"
  | avx512 => "avx512"
  | unnamed => ""

/-- The extension with a given number. -/
def ofCode : Int → Isa
  | 0 => sse41
  | 1 => avx2
  | 2 => avx512
  | _ => unnamed

/-- Case folding as far as it can meet an ASCII name: besides the ASCII letters, the long s and the
Kelvin sign fold to ASCII letters. -/
def foldChar (c : Char) : Char :=
  if c.toNat = 0x17f then 's'
  else if c.toNat = 0x212a then 'k'
  else c.toLower

/-- The extension with a name, in any case. -/
def ofName? (text : String) : Option Isa :=
  [sse41, avx2, avx512].find? fun isa => isa.name.toList = text.toList.map foldChar

/-- The wording for a name that is no extension. -/
def unknownMessage (text : String) : String :=
  "unknown ISA " ++ Text.quoted text ++ " (expected sse41, avx2 or avx512)"

/-- The number of vector registers. -/
def vecCount : Isa → Nat
  | avx512 => 32
  | _ => 16

/-- The number of mask registers. -/
def maskCount : Isa → Nat
  | avx512 => 8
  | _ => 0

/-- The width of a vector register in bytes. -/
def vecLen : Isa → Int64
  | avx512 => 64
  | avx2 => 32
  | _ => 16

/-- The letter that the assembler names of vector registers start with. -/
def vecLetter : Isa → String
  | avx512 => "Z"
  | avx2 => "Y"
  | _ => "X"

end Isa

/-- A machine described by its numbers. -/
structure MachineTable where
  /-- The name of the machine. -/
  name : String
  /-- The number of general-purpose registers. -/
  gpr : Int
  /-- The number of vector registers. -/
  vec : Int
  /-- The number of mask registers. -/
  mask : Int := 0
  /-- The width of a vector register in bytes. -/
  vecLen : Int64 := 16
  /-- The indices of the general-purpose registers that a kernel preserves. -/
  calleeSaved : List Int := []
deriving DecidableEq, Repr, Inhabited

/-- A target machine. -/
inductive Machine where
  /-- An x86-64 machine with the System V conventions. -/
  | x64 (isa : Isa)
  /-- A machine described by its numbers. -/
  | table (description : MachineTable)
  /-- Another machine with smaller register pools. -/
  | limited (base : Machine) (gpr vec : Int)
deriving DecidableEq, Repr, Inhabited

namespace Machine

/-- The allocatable general-purpose registers of x86-64, by index. The stack pointer is never
allocated. -/
def x64Gprs : List String :=
  ["AX", "CX", "DX", "BX", "BP", "SI", "DI", "R8", "R9", "R10", "R11", "R12", "R13", "R14", "R15"]

/-- The registers among them that a kernel preserves. -/
def x64CalleeSaved : List String := ["BX", "BP", "R12", "R13", "R14", "R15"]

/-- The name of the machine. -/
def name : Machine → String
  | x64 isa => "x64-" ++ isa.name
  | table d => d.name
  | limited base _ _ => base.name

/-- The number of general-purpose registers. -/
def gprCount : Machine → Int
  | x64 _ => x64Gprs.length
  | table d => d.gpr
  | limited _ gpr _ => gpr

/-- The number of vector registers. -/
def vecCount : Machine → Int
  | x64 isa => isa.vecCount
  | table d => d.vec
  | limited _ _ vec => vec

/-- The number of mask registers. -/
def maskCount : Machine → Int
  | x64 isa => isa.maskCount
  | table d => d.mask
  | limited base _ _ => base.maskCount

/-- The width of a vector register in bytes. -/
def vecLen : Machine → Int64
  | x64 isa => isa.vecLen
  | table d => d.vecLen
  | limited base _ _ => base.vecLen

/-- The number of registers of a bank that can be allocated. -/
def poolSize (m : Machine) : Bank → Int
  | .gpr => m.gprCount
  | .vec => m.vecCount
  | _ => 0

/-- The assembler name of an x86-64 register, if it is in the register file. -/
def x64Name? (isa : Isa) (r : Reg) : Option String :=
  match r.index with
  | .ofNat i =>
    match r.bank with
    | .gpr => x64Gprs[i]?
    | .vec => if i < isa.vecCount then some (isa.vecLetter ++ toString i) else none
    | .mask => if i < isa.maskCount then some ("K" ++ toString i) else none
    | _ => none
  | .negSucc _ => none

/-- The name of a register on this machine. -/
def regName : Machine → Reg → String
  | x64 isa, r => (x64Name? isa r).getD r.text
  | table _, r =>
    match r.bank with
    | .gpr => "r" ++ toString r.index
    | .vec => "v" ++ toString r.index
    | .mask => "k" ++ toString r.index
    | _ => r.text
  | limited base _ _, r => base.regName r

/-- Whether a kernel that writes `r` has to preserve it for its caller. -/
def isCalleeSaved : Machine → Reg → Bool
  | x64 isa, r => r.bank = .gpr ∧ (x64Name? isa r).any x64CalleeSaved.contains
  | table d, r => r.bank = .gpr ∧ r.index ∈ d.calleeSaved
  | limited base _ _, r => base.isCalleeSaved r

/-- The machine with its pools capped; a cap that is not positive leaves a pool as it is. -/
def limit (m : Machine) (gpr vec : Int) : Machine :=
  let cap (wanted own : Int) := if wanted ≤ 0 then own else min wanted own
  limited m (cap gpr m.gprCount) (cap vec m.vecCount)

end Machine

end TensorKernel
