import Mathlib.Data.List.Nodup
import Mathlib.Data.List.Perm.Subperm
import TensorKernel.Program.Basic

/-!
# Generated names

A name derived from a base shows its number: behind the last underscore there is nothing but digits.
So names derived with different numbers differ, whatever their bases are, and since there are more
numbers to try than names in use, a free one is always found.
-/

namespace TensorKernel.Program

/-- What stands behind the last `x` of a list. -/
theorem eq_of_append_cons_eq {α : Type} [DecidableEq α] {a b s t : List α} {x : α}
    (hs : x ∉ s) (ht : x ∉ t) (h : a ++ x :: s = b ++ x :: t) : s = t := by
  have hbehind : ∀ {a s : List α}, x ∉ s →
      (a ++ x :: s).reverse.takeWhile (fun y => decide (y ≠ x)) = s.reverse := by
    intro a s hs
    have hall : ∀ y ∈ s.reverse, decide (y ≠ x) = true := by
      intro y hy
      exact decide_eq_true fun he => hs (he ▸ List.mem_reverse.mp hy)
    rw [List.reverse_append, List.reverse_cons, List.append_assoc,
      List.takeWhile_append_of_pos hall]
    simp
  have := congrArg (fun l => l.reverse.takeWhile fun y => decide (y ≠ x)) h
  simpa only [hbehind hs, hbehind ht, List.reverse_inj] using this

/-- A number is written without underscores. -/
theorem underscore_not_mem_bytes (n : Nat) :
    '_'.toUInt8 ∉ (Label.ofString (toString n)).bytes := by
  intro h
  have hbytes : (Label.ofString (toString n)).bytes =
      (Nat.toDigits 10 n).flatMap String.utf8EncodeChar := by
    change (String.ofList (Nat.toDigits 10 n)).toByteArray.data.toList = _
    rw [String.toByteArray_ofList, List.utf8Encode]
    simp
  rw [hbytes, List.mem_flatMap] at h
  obtain ⟨c, hc, hmem⟩ := h
  have hdigit := Nat.isDigit_of_mem_toDigits (by decide) (by decide) hc
  simp only [Char.isDigit, Bool.and_eq_true, decide_eq_true_eq, ge_iff_le, UInt32.le_iff_toNat_le]
    at hdigit
  have hval : c.val.toNat ≤ 57 := hdigit.2
  rw [String.utf8EncodeChar, if_pos (by omega), List.mem_singleton] at hmem
  have hcode : 95 = c.val.toNat % 256 := congrArg UInt8.toNat hmem
  omega

/-- Derived names tell their numbers. -/
theorem numbered_inj {a b : Label} {m n : Nat} (h : numbered a m = numbered b n) : m = n := by
  have hbytes : ∀ (l : Label) (n : Nat), (numbered l n).bytes =
      l.bytes ++ '_'.toUInt8 :: (Label.ofString (toString n)).bytes := by
    intro l n
    rw [numbered, Label.ofString_append, Label.bytes_append, Label.bytes_append]
    rfl
  have hdigits := congrArg Label.bytes h
  rw [hbytes, hbytes] at hdigits
  have := eq_of_append_cons_eq (underscore_not_mem_bytes m) (underscore_not_mem_bytes n) hdigits
  have htext : m.repr = n.repr := Label.ofString_injective (congrArg Label.mk this)
  have hvalue := congrArg (fun s : String => Nat.ofDigitChars 10 s.toList 0) htext
  simpa only [Nat.toList_repr, Nat.ofDigitChars_toDigits (by decide : 1 < 10) (by decide)] using hvalue

theorem isUsed_iff {p : Program} {name : Label} :
    p.isUsed name = true ↔ name ∈ p.names.map Prod.fst := by
  rw [isUsed, find?, List.lookup_isSome_iff, List.mem_map]
  simp only [beq_iff_eq]
  exact ⟨fun ⟨e, he, h⟩ => ⟨e, he, h.symm⟩, fun ⟨e, he, h⟩ => ⟨e, he, h.symm⟩⟩

/-- There is a free name among those that are tried. -/
theorem exists_free_name (p : Program) (base : Label) :
    ∃ n ∈ List.range' (p.serial + 1) (p.names.length + 1), p.isUsed (numbered base n) = false := by
  refine Decidable.byContradiction fun hnone => ?_
  have hused : ∀ n ∈ List.range' (p.serial + 1) (p.names.length + 1),
      p.isUsed (numbered base n) = true := by
    intro n hn
    refine Decidable.byContradiction fun hfree => hnone ⟨n, hn, by simpa using hfree⟩
  -- The tried names are different and all in use, but there are more of them than names in use.
  have hnodup : ((List.range' (p.serial + 1) (p.names.length + 1)).map (numbered base)).Nodup :=
    List.Nodup.map (fun _ _ h => numbered_inj h) List.nodup_range'
  have hsub : (List.range' (p.serial + 1) (p.names.length + 1)).map (numbered base) ⊆
      p.names.map Prod.fst := by
    intro name hname
    obtain ⟨n, hn, rfl⟩ := List.mem_map.mp hname
    exact isUsed_iff.mp (hused n hn)
  have hlen := (List.subperm_of_subset hnodup hsub).length_le
  simp only [List.length_map, List.length_range'] at hlen
  omega

/-- The next number is above the last one, and its name is free. -/
theorem nextSerial_free (p : Program) (base : Label) :
    p.serial < p.nextSerial base ∧ p.isUsed (numbered base (p.nextSerial base)) = false := by
  obtain ⟨m, hm, hfree⟩ := p.exists_free_name base
  have hsome : ((List.range' (p.serial + 1) (p.names.length + 1)).find?
      fun n => !p.isUsed (numbered base n)).isSome = true :=
    List.find?_isSome.mpr ⟨m, hm, by simp [hfree]⟩
  obtain ⟨n, hn⟩ := Option.isSome_iff_exists.mp hsome
  have hmem := List.mem_range'_1.mp (List.mem_of_find?_eq_some hn)
  rw [nextSerial, hn, Option.getD_some]
  exact ⟨by omega, by simpa using List.find?_some hn⟩

end TensorKernel.Program
