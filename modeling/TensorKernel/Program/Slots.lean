/-!
# The slots of a list

The list of a program is kept in a block of slots. A list that outgrows its block moves to a larger
one: twice as large while blocks are small and by about a quarter later, but never too small for the
list. Blocks come in fixed sizes, and what is left over is free for the list to grow into. The main
statement is that a block always holds its list.
-/

namespace TensorKernel.Slots

/-- The sizes of small blocks in bytes, in ascending order. -/
def blockSizes : List Nat := [
  8, 16, 24, 32, 48, 64, 80, 96, 112, 128, 144, 160, 176, 192, 208, 224, 240, 256, 288, 320, 352, 384,
  416, 448, 480, 512, 576, 640, 704, 768, 896, 1024, 1152, 1280, 1408, 1536, 1792, 2048, 2304, 2688,
  3072, 3200, 3456, 4096, 4864, 5120, 5376, 6144, 6528, 6784, 6912, 8192, 9472, 9728, 10240, 10880,
  12288, 13568, 14336, 16384, 18432, 19072, 20480, 21760, 24576, 27264, 28672, 32768]

/-- The size of large blocks, of which a whole number is taken. -/
def pageSize : Nat := 8192

/-- The bytes taken up by a slot, and by the header of a block. -/
def slotSize : Nat := 8

/-- The header of a block with so many bytes of slots; the smallest blocks have none. -/
def headerSize (bytes : Nat) : Nat := if bytes ≤ 512 then 0 else slotSize

/-- The bytes that a block has for slots if at least `bytes` are asked for. -/
def fitted (bytes : Nat) : Nat :=
  let header := headerSize bytes
  match blockSizes.find? (bytes + header ≤ ·) with
  | some size => size - header
  | none => (bytes + pageSize - 1) / pageSize * pageSize

/-- Enlarge a number of slots by a quarter and a bit, as often as needed and at most `steps` times. -/
def enlarged (needed : Nat) : (steps slots : Nat) → Nat
  | 0, slots => max needed slots
  | steps + 1, slots =>
    let more := slots + (slots + 768) / 4
    if needed ≤ more then more else enlarged needed steps more

/-- The number of slots to ask for when a block of `slots` slots becomes too small. Four steps are
enough to double it. -/
def wanted (slots needed : Nat) : Nat :=
  if 2 * slots < needed then needed
  else if slots < 256 then 2 * slots
  else enlarged needed 4 slots

/-- The number of slots of the block once its list has `needed` items. -/
def grow (slots needed : Nat) : Nat :=
  if needed ≤ slots then slots else fitted (slotSize * wanted slots needed) / slotSize

/-- A block is at least as large as asked for. -/
theorem le_fitted (bytes : Nat) : bytes ≤ fitted bytes := by
  simp only [fitted]
  split
  · rename_i size h
    have := List.find?_some h
    simp only [decide_eq_true_eq] at this
    omega
  · have := Nat.div_add_mod (bytes + pageSize - 1) pageSize
    have := Nat.mod_lt (bytes + pageSize - 1) (show 0 < pageSize by decide)
    simp only [pageSize] at *
    omega

/-- Enlarging reaches what is needed. -/
theorem le_enlarged (needed steps slots : Nat) : needed ≤ enlarged needed steps slots := by
  induction steps generalizing slots with
  | zero => exact Nat.le_max_left ..
  | succ steps ih =>
    simp only [enlarged]
    split
    · assumption
    · exact ih _

/-- What is asked for is enough. -/
theorem le_wanted {slots needed : Nat} : needed ≤ wanted slots needed := by
  unfold wanted
  split
  · exact Nat.le_refl _
  · split
    · omega
    · exact le_enlarged ..

/-- A block holds its list. -/
theorem le_grow (slots needed : Nat) : needed ≤ grow slots needed := by
  unfold grow
  split
  · assumption
  · refine (Nat.le_div_iff_mul_le (by decide)).2 ?_
    rw [Nat.mul_comm]
    exact Nat.le_trans (Nat.mul_le_mul_left slotSize le_wanted) (le_fitted _)

/-- A block never shrinks while its list grows. -/
theorem grow_of_le {slots needed : Nat} (h : needed ≤ slots) : grow slots needed = slots := if_pos h

end TensorKernel.Slots
