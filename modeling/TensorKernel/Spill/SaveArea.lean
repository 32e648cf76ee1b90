import TensorKernel.Machine.Basic
import TensorKernel.Register.Set

/-!
# Save areas

The registers saved around a call lie in a save area on the stack, in register order from offset zero
upwards. A slot is aligned to its size, but to no more than the stack; the area is padded to the
alignment of the stack. Offsets are 64-bit and wrap around.
-/

namespace TensorKernel

/-- The place of one saved register. -/
structure SaveSlot where
  /-- The register. -/
  reg : Reg
  /-- The distance from the stack pointer. -/
  offset : Int64
  /-- The bytes saved. -/
  size : Int64
deriving DecidableEq, Repr, Inhabited

/-- An area on the stack that registers are saved in. -/
structure SaveArea where
  /-- The slots, in register order. -/
  slots : List SaveSlot
  /-- The bytes up to the end of the last slot. -/
  size : Int64
  /-- The size, padded to the alignment of the stack. -/
  totalSize : Int64
deriving DecidableEq, Repr, Inhabited

namespace SaveArea

/-- The alignment of the stack at a call. -/
def stackAlignment : Int64 := 16

/-- The bytes that saving `r` takes: vectors take their width, anything else a word. -/
def slotSize (m : Machine) (r : Reg) : Int64 :=
  if r.bank = .vec then m.vecLen else 8

/-- `n` rounded up to a multiple of `align`; an alignment that is not positive changes nothing. -/
def alignUp (n align : Int64) : Int64 :=
  if align ≤ 0 then n else (n + align - 1) / align * align

/-- The slot of `r` in an area that is filled up to `offset`. -/
def slotAt (m : Machine) (offset : Int64) (r : Reg) : SaveSlot :=
  let size := slotSize m r
  ⟨r, alignUp offset (min size stackAlignment), size⟩

/-- The slots of registers in an area that is filled up to `offset`, and where they end. -/
def place (m : Machine) (offset : Int64) : List Reg → List SaveSlot × Int64
  | [] => ([], offset)
  | r :: rest =>
    let slot := slotAt m offset r
    let (slots, stop) := place m (slot.offset + slot.size) rest
    (slot :: slots, stop)

/-- The save area of a set of registers. -/
def ofRegs (m : Machine) (regs : RegSet) : SaveArea :=
  let (slots, size) := place m 0 regs.toList
  { slots, size, totalSize := alignUp size stackAlignment }

/-- The description of a save area, with the machine's names for the registers. -/
def lines (m : Machine) (a : SaveArea) : List String :=
  s!"save area: {a.totalSize} bytes ({a.size} used)" ::
    a.slots.map fun s => s!"  [rsp+{s.offset}] " ++ m.regName s.reg ++ s!" ({s.size} bytes)"

end SaveArea

end TensorKernel
