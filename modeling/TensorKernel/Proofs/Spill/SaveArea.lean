import Mathlib.Algebra.Group.Int.Defs
import Mathlib.Algebra.Group.Nat.Defs
import Mathlib.Order.Bounds.Defs
import TensorKernel.Spill.SaveArea

/-!
# The layout of save areas

Offsets are 64-bit and wrap around, but those of an area that fits 64 bits never do. Such an area is laid
out as in exact arithmetic: every register has one slot, at the first multiple of its alignment behind the
slots before it, and the padding at the end is the least that the stack asks for. An alignment need not be
a power of two, nor divide that of the stack.
-/

namespace TensorKernel

variable {align : Int}

namespace SaveArea

/-- The least multiple of `align` that is not below `n`. -/
def roundUp (n align : Int) : Int := n + -n % align

theorem dvd_roundUp (n align : Int) : align ∣ roundUp n align := by
  refine Int.dvd_of_emod_eq_zero ?_
  rw [roundUp, Int.add_emod_emod, Int.add_right_neg, Int.zero_emod]

theorem le_roundUp (n : Int) (h : 0 < align) : n ≤ roundUp n align := by
  have := Int.emod_nonneg (-n) (Int.ne_of_gt h)
  rw [roundUp]
  omega

theorem roundUp_lt (n : Int) (h : 0 < align) : roundUp n align < n + align := by
  have := Int.emod_lt_of_pos (-n) h
  rw [roundUp]
  omega

theorem isLeast_roundUp (n : Int) (h : 0 < align) : IsLeast {k | align ∣ k ∧ n ≤ k} (roundUp n align) := by
  refine ⟨⟨dvd_roundUp n align, le_roundUp n h⟩, fun k ⟨hdvd, hle⟩ => ?_⟩
  -- A multiple below the rounded number would be a whole alignment below it.
  refine Int.not_lt.mp fun hlt => ?_
  have := Int.le_of_dvd (Int.sub_pos_of_lt hlt) (Int.dvd_sub (dvd_roundUp n align) hdvd)
  have := roundUp_lt n h
  omega

/-- The bytes that saving a register takes. -/
def bytes (m : Machine) (r : Reg) : Int := if r.bank = .vec then m.vecLen.toInt else 8

/-- Where registers end that are put one behind the other from `start` on, each of them at the first
multiple of its size, or of 16 if its size is larger. -/
def stopAfter (m : Machine) (start : Int) : List Reg → Int
  | [] => start
  | r :: rest => stopAfter m (roundUp start (min (bytes m r) 16) + bytes m r) rest

/-- The bytes of the save area of some registers, with the padding, as if there were no bound. -/
def bytesOf (m : Machine) (regs : RegSet) : Int := roundUp (stopAfter m 0 regs.toList) 16

/-- Where the last slot ends, or `start` if there is none. -/
def lastStop (start : Int) (slots : List SaveSlot) : Int :=
  (slots.getLast?.map fun s => s.offset.toInt + s.size.toInt).getD start

theorem lastStop_cons (start : Int) (s : SaveSlot) (rest : List SaveSlot) :
    lastStop start (s :: rest) = lastStop (s.offset.toInt + s.size.toInt) rest := by
  cases rest with
  | nil => rfl
  | cons t rest =>
    rw [lastStop, List.getLast?_cons_cons, lastStop, List.getLast?_eq_some_getLast (List.cons_ne_nil t rest)]
    rfl

/-- A save area is laid out well for some registers. -/
structure LaidOut (m : Machine) (regs : RegSet) (a : SaveArea) : Prop where
  /-- Exactly the registers have slots. -/
  mem_iff : ∀ r, r ∈ a.slots.map (·.reg) ↔ r ∈ regs
  /-- The slots are in the order of the registers, so there is one for each. -/
  ordered : (a.slots.map (·.reg)).Pairwise (· < ·)
  /-- A slot has the size of its register. -/
  size_eq : ∀ s ∈ a.slots, s.size.toInt = bytes m s.reg
  /-- A slot is aligned to its size, up to the alignment of the stack. -/
  aligned : ∀ s ∈ a.slots, 0 ≤ s.offset.toInt ∧ min s.size.toInt 16 ∣ s.offset.toInt
  /-- A slot does not overlap with the one before it, and the gap between them is smaller than its
  alignment. -/
  packed : ∀ before s behind, a.slots = before ++ s :: behind →
    lastStop 0 before ≤ s.offset.toInt ∧ s.offset.toInt - lastStop 0 before < min s.size.toInt 16
  /-- The slots take the bytes up to the end of the last one. -/
  size : a.size.toInt = lastStop 0 a.slots
  /-- The area is padded no more than the stack asks for. -/
  padded : IsLeast {n : Int | 16 ∣ n ∧ a.size.toInt ≤ n} a.totalSize.toInt

variable {m : Machine} {offset align : Int64} {r : Reg} {regs : List Reg}

theorem toInt_slotSize (m : Machine) (r : Reg) : (slotSize m r).toInt = bytes m r := by
  rw [slotSize, bytes]
  split <;> rfl

theorem bytes_pos (width : 0 < m.vecLen) (r : Reg) : 0 < bytes m r := by
  rw [bytes]
  split
  · exact Int64.lt_iff_toInt_lt.mp width
  · decide

/-- A number of 64 bits is itself. -/
theorem bmod_eq {n : Int} (low : 0 ≤ n) (high : n < 2 ^ 63) : n.bmod (2 ^ 64) = n :=
  Int.bmod_eq_of_le (by omega) (by omega)

theorem toInt_min (a b : Int64) : (min a b).toInt = min a.toInt b.toInt := by
  show (if a ≤ b then a else b).toInt = _
  simp only [Int.min_def, apply_ite Int64.toInt, Int64.le_iff_toInt_le]

/-- Rounding up gives the exact result if there is room for an alignment behind the number. -/
theorem toInt_alignUp (low : 0 ≤ offset.toInt) (pos : 0 < align.toInt)
    (room : offset.toInt + align.toInt - 1 < 2 ^ 63) :
    (alignUp offset align).toInt = roundUp offset.toInt align.toInt := by
  have hpos : ¬ align ≤ 0 := fun h => Int.not_le.mpr pos (Int64.le_iff_toInt_le.mp h)
  generalize hn : offset.toInt = n at low room
  generalize ha : align.toInt = a at pos room
  have hsum : (offset + align - 1).toInt = n + a - 1 := by
    rw [Int64.toInt_sub, Int64.toInt_add, hn, ha, show (1 : Int64).toInt = 1 from rfl,
      Int.bmod_sub_bmod]
    exact bmod_eq (by omega) room
  have hquotient : ((offset + align - 1) / align).toInt = (n + a - 1) / a := by
    have hle : (n + a - 1) / a ≤ n + a - 1 := Int.ediv_le_self _ (by omega)
    rw [Int64.toInt_div, hsum, ha, Int.tdiv_eq_ediv_of_nonneg (by omega)]
    exact bmod_eq (Int.ediv_nonneg (by omega) (by omega)) (by omega)
  have hround : (n + a - 1) / a * a = roundUp n a := by
    have hsplit := Int.emod_add_mul_ediv (n + a - 1) a
    have hneg : -n % a = a - 1 - (n + a - 1) % a := by
      have hlow := Int.emod_nonneg (n + a - 1) (Int.ne_of_gt pos)
      have hhigh := Int.emod_lt_of_pos (n + a - 1) pos
      rw [← Int.emod_eq_of_lt (a := a - 1 - (n + a - 1) % a) (b := a) (by omega) (by omega),
        Int.sub_emod_emod, show a - 1 - (n + a - 1) = -n by omega]
    rw [roundUp, hneg, Int.mul_comm]
    omega
  have hmul : (n + a - 1) / a * a ≤ n + a - 1 := Int.ediv_mul_le _ (Int.ne_of_gt pos)
  rw [alignUp, if_neg hpos, Int64.toInt_mul, hquotient, ha, ← hround]
  refine bmod_eq ?_ (by omega)
  exact Int.mul_nonneg (Int.ediv_nonneg (by omega) (by omega)) (by omega)

/-- Slots that lie one behind the other from `start` to `stop`, each at the first multiple of its
alignment. -/
inductive Packed (m : Machine) : Int → List SaveSlot → Int → Prop
  | nil (start : Int) : Packed m start [] start
  | cons {start stop : Int} {s : SaveSlot} {rest : List SaveSlot} :
    s.size.toInt = bytes m s.reg → s.offset.toInt = roundUp start (min s.size.toInt 16) →
    Packed m (s.offset.toInt + s.size.toInt) rest stop → Packed m start (s :: rest) stop

/-- Registers end behind where they start. -/
theorem le_stopAfter (width : 0 < m.vecLen) (start : Int) (regs : List Reg) :
    start ≤ stopAfter m start regs := by
  induction regs generalizing start with
  | nil => exact Int.le_refl _
  | cons r rest ih =>
    have hpos := bytes_pos width r
    calc start ≤ roundUp start (min (bytes m r) 16) := le_roundUp start (by omega)
      _ ≤ roundUp start (min (bytes m r) 16) + bytes m r := by omega
      _ ≤ stopAfter m start (r :: rest) := ih _

/-- A slot that ends within 64 bits is where it belongs. -/
theorem slotAt_eq (width : 0 < m.vecLen) (low : 0 ≤ offset.toInt)
    (room : roundUp offset.toInt (min (bytes m r) 16) + bytes m r < 2 ^ 63) :
    (slotAt m offset r).offset.toInt = roundUp offset.toInt (min (bytes m r) 16) ∧
      (slotAt m offset r).size.toInt = bytes m r ∧
      ((slotAt m offset r).offset + (slotAt m offset r).size).toInt =
        roundUp offset.toInt (min (bytes m r) 16) + bytes m r := by
  have hpos := bytes_pos width r
  have hle := le_roundUp offset.toInt (show 0 < min (bytes m r) 16 by omega)
  have hsize : (slotAt m offset r).size.toInt = bytes m r := toInt_slotSize m r
  have halign : (min (slotSize m r) stackAlignment).toInt = min (bytes m r) 16 := by
    rw [toInt_min, toInt_slotSize]
    rfl
  have hoffset : (slotAt m offset r).offset.toInt = roundUp offset.toInt (min (bytes m r) 16) := by
    rw [← halign]
    refine toInt_alignUp low ?_ ?_ <;> rw [halign] <;> omega
  refine ⟨hoffset, hsize, ?_⟩
  rw [Int64.toInt_add, hoffset, hsize]
  exact bmod_eq (by omega) room

/-- The slots of registers that end within 64 bits. -/
theorem packed_place (width : 0 < m.vecLen) (low : 0 ≤ offset.toInt)
    (room : stopAfter m offset.toInt regs < 2 ^ 63) :
    (place m offset regs).1.map (·.reg) = regs ∧
      (place m offset regs).2.toInt = stopAfter m offset.toInt regs ∧
      Packed m offset.toInt (place m offset regs).1 (place m offset regs).2.toInt := by
  induction regs generalizing offset with
  | nil => exact ⟨rfl, rfl, .nil _⟩
  | cons r rest ih =>
    have hrest : stopAfter m offset.toInt (r :: rest) =
        stopAfter m (roundUp offset.toInt (min (bytes m r) 16) + bytes m r) rest := rfl
    have hstop := le_stopAfter width (roundUp offset.toInt (min (bytes m r) 16) + bytes m r) rest
    have hpos := bytes_pos width r
    have hle := le_roundUp offset.toInt (show 0 < min (bytes m r) 16 by omega)
    obtain ⟨hoffset, hsize, hend⟩ := slotAt_eq width low (r := r) (by omega)
    rw [hrest, ← hend] at room ⊢
    obtain ⟨hregs, hlast, hpacked⟩ := ih (by omega) room
    refine ⟨congrArg (r :: ·) hregs, hlast, .cons hsize (by rw [hsize]; exact hoffset) ?_⟩
    rw [hoffset, hsize, ← hend]
    exact hpacked

variable {start stop : Int} {slots : List SaveSlot}

/-- Packed slots end where the last one of them does. -/
theorem Packed.stop_eq (h : Packed m start slots stop) : stop = lastStop start slots := by
  induction h with
  | nil => rfl
  | cons _ _ _ ih => rw [lastStop_cons, ih]

/-- A packed slot has its size and its alignment, and lies right behind the one before it. -/
theorem Packed.slot (h : Packed m start slots stop) (width : 0 < m.vecLen) (low : 0 ≤ start)
    {before behind : List SaveSlot} {s : SaveSlot} (split : slots = before ++ s :: behind) :
    s.size.toInt = bytes m s.reg ∧ 0 ≤ s.offset.toInt ∧ min s.size.toInt 16 ∣ s.offset.toInt ∧
      lastStop start before ≤ s.offset.toInt ∧
      s.offset.toInt - lastStop start before < min s.size.toInt 16 := by
  induction h generalizing before with
  | nil => simp at split
  | @cons start stop t rest hsize hoffset _ ih =>
    have hpos := bytes_pos width t.reg
    have halign : 0 < min t.size.toInt 16 := by omega
    have hle := le_roundUp start halign
    cases before with
    | nil =>
      cases split
      have hlt := roundUp_lt start halign
      have hstart : lastStop start [] = start := rfl
      rw [hstart]
      exact ⟨hsize, by omega, hoffset ▸ dvd_roundUp _ _, by omega, by omega⟩
    | cons u before =>
      cases split
      rw [lastStop_cons]
      exact ih (by omega) rfl

/-- **Save areas are laid out well.** On a machine whose vectors have a positive width, every save area
that fits a signed 64-bit size is. -/
theorem ofRegs_laidOut (m : Machine) (regs : RegSet) (width : 0 < m.vecLen)
    (fits : bytesOf m regs < 2 ^ 63) : LaidOut m regs (ofRegs m regs) := by
  have hstop := le_stopAfter width 0 regs.toList
  -- The padded size is a multiple of 16, so there is room for a whole alignment behind the last slot.
  have hroom : stopAfter m 0 regs.toList ≤ 2 ^ 63 - 16 := by
    have hle := le_roundUp (stopAfter m 0 regs.toList) (show 0 < 16 by decide)
    have hdvd := dvd_roundUp (stopAfter m 0 regs.toList) 16
    rw [bytesOf] at fits
    omega
  obtain ⟨hregs, hsize, hpacked⟩ := @packed_place m 0 regs.toList width (Int.le_refl 0)
    (show stopAfter m 0 regs.toList < 2 ^ 63 by omega)
  have harea : ofRegs m regs = ⟨(place m 0 regs.toList).1, (place m 0 regs.toList).2,
    alignUp (place m 0 regs.toList).2 stackAlignment⟩ := rfl
  generalize (place m 0 regs.toList).1 = slots at *
  generalize (place m 0 regs.toList).2 = size at *
  change size.toInt = stopAfter m 0 regs.toList at hsize
  change Packed m 0 slots size.toInt at hpacked
  have htotal : (alignUp size stackAlignment).toInt = roundUp size.toInt 16 :=
    toInt_alignUp (by omega) (by decide) (by rw [show stackAlignment.toInt = 16 from rfl]; omega)
  rw [harea]
  refine ⟨fun r => ?_, ?_, fun s hs => ?_, fun s hs => ?_, fun before s behind split => ?_, ?_, ?_⟩
  · rw [hregs, RegSet.mem_def]
  · rw [hregs]
    exact regs.ascending
  · obtain ⟨before, behind, split⟩ := List.append_of_mem hs
    exact (hpacked.slot width (Int.le_refl 0) split).1
  · obtain ⟨before, behind, split⟩ := List.append_of_mem hs
    obtain ⟨_, hlow, hdvd, _⟩ := hpacked.slot width (Int.le_refl 0) split
    exact ⟨hlow, hdvd⟩
  · exact (hpacked.slot width (Int.le_refl 0) split).2.2.2
  · exact hpacked.stop_eq
  · rw [htotal]
    exact isLeast_roundUp size.toInt (by decide)

/-- A machine whose vectors have twelve bytes. -/
def oddMachine : Machine := .table { name := "odd", gpr := 4, vec := 4, mask := 2, vecLen := 12 }

/-- Slots of twelve bytes between slots of eight: the first of them and the last slot stand behind a gap
of four bytes. -/
theorem ofRegs_laidOut_oddMachine :
    0 < oddMachine.vecLen ∧
      bytesOf oddMachine (.ofList [.vec 1, ⟨.mask, 1⟩, .gpr 0, .vec 0]) < 2 ^ 63 ∧
      LaidOut oddMachine (.ofList [.vec 1, ⟨.mask, 1⟩, .gpr 0, .vec 0])
        ⟨[⟨.gpr 0, 0, 8⟩, ⟨.vec 0, 12, 12⟩, ⟨.vec 1, 24, 12⟩, ⟨⟨.mask, 1⟩, 40, 8⟩], 48, 48⟩ := by
  refine ⟨by decide, by decide, ?_⟩
  have h := ofRegs_laidOut oddMachine (.ofList [.vec 1, ⟨.mask, 1⟩, .gpr 0, .vec 0]) (by decide)
    (by decide)
  rwa [show ofRegs oddMachine (.ofList [.vec 1, ⟨.mask, 1⟩, .gpr 0, .vec 0]) =
    ⟨[⟨.gpr 0, 0, 8⟩, ⟨.vec 0, 12, 12⟩, ⟨.vec 1, 24, 12⟩, ⟨⟨.mask, 1⟩, 40, 8⟩], 48, 48⟩ by
      decide +kernel] at h

end SaveArea

end TensorKernel
