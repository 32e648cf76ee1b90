import TensorKernel.Register.Set

/-!
# Tables keyed by registers

A finite table from registers to values is kept as its entries in strictly ascending register order.
A lookup after an insertion, an erasure or a merge is described by one equation each.
-/

namespace TensorKernel

/-- A finite table from registers to values. -/
structure RegTable (α : Type) where
  /-- The entries in register order. -/
  entries : List (Reg × α)
  /-- The registers ascend strictly. -/
  ascending : entries.Pairwise (·.1 < ·.1)
deriving DecidableEq

namespace RegTable

variable {α : Type}

/-- The table without entries. -/
def empty : RegTable α := ⟨[], .nil⟩

instance : EmptyCollection (RegTable α) := ⟨empty⟩
instance : Inhabited (RegTable α) := ⟨empty⟩

/-- The value recorded for `r` in a list of entries. -/
def lookup (r : Reg) : List (Reg × α) → Option α
  | [] => none
  | (a, v) :: rest => if a = r then some v else lookup r rest

/-- The value recorded for `r`. -/
def get? (t : RegTable α) (r : Reg) : Option α := lookup r t.entries

/-- Whether `r` has an entry. -/
def contains (t : RegTable α) (r : Reg) : Bool := (t.get? r).isSome

/-- The registers that have an entry, ascending. -/
def keys (t : RegTable α) : List Reg := t.entries.map Prod.fst

/-- The set of the registers that have an entry. -/
def keySet (t : RegTable α) : RegSet := ⟨t.keys, t.ascending.map _ fun _ _ h => h⟩

/-- The recorded values, in the order of their registers. -/
def values (t : RegTable α) : List α := t.entries.map Prod.snd

/-- The number of entries. -/
def size (t : RegTable α) : Nat := t.entries.length

@[simp] theorem get?_empty (r : Reg) : (∅ : RegTable α).get? r = none := rfl

/-- Put the entry for `r` at its place, replacing an earlier one. -/
def insertInto (r : Reg) (v : α) : List (Reg × α) → List (Reg × α)
  | [] => [(r, v)]
  | (a, w) :: rest =>
    if r < a then (r, v) :: (a, w) :: rest
    else if r = a then (r, v) :: rest
    else (a, w) :: insertInto r v rest

theorem fst_mem_insertInto {x : Reg × α} {r : Reg} {v : α} {l : List (Reg × α)}
    (h : x ∈ insertInto r v l) : x.1 = r ∨ x ∈ l := by
  induction l with
  | nil => simp_all [insertInto]
  | cons e rest ih =>
    obtain ⟨a, w⟩ := e
    unfold insertInto at h
    grind

theorem pairwise_insertInto {r : Reg} {v : α} {l : List (Reg × α)}
    (h : l.Pairwise (·.1 < ·.1)) : (insertInto r v l).Pairwise (·.1 < ·.1) := by
  induction l with
  | nil => simp [insertInto]
  | cons e rest ih =>
    obtain ⟨a, w⟩ := e
    obtain ⟨ha, hrest⟩ := List.pairwise_cons.mp h
    unfold insertInto
    split
    · rename_i hlt
      refine List.pairwise_cons.mpr ⟨fun x hx => ?_, h⟩
      rcases List.mem_cons.mp hx with rfl | hx
      · exact hlt
      · exact Reg.lt_trans hlt (ha x hx)
    · rename_i hlt
      split
      · rename_i heq
        subst heq
        exact List.pairwise_cons.mpr ⟨ha, hrest⟩
      · rename_i hne
        refine List.pairwise_cons.mpr ⟨fun x hx => ?_, ih hrest⟩
        rcases fst_mem_insertInto hx with hx | hx
        · simpa [hx] using Reg.lt_of_not_lt_of_ne hlt hne
        · exact ha x hx

theorem lookup_insertInto {x r : Reg} {v : α} {l : List (Reg × α)} :
    lookup x (insertInto r v l) = if r = x then some v else lookup x l := by
  induction l with
  | nil => simp [insertInto, lookup]
  | cons e rest ih =>
    obtain ⟨a, w⟩ := e
    unfold insertInto
    split
    · simp [lookup]
    · split
      · rename_i heq
        subst heq
        grind [lookup]
      · simp only [lookup, ih]
        grind

/-- Record `v` for `r`, replacing an earlier entry. -/
def insert (t : RegTable α) (r : Reg) (v : α) : RegTable α :=
  ⟨insertInto r v t.entries, pairwise_insertInto t.ascending⟩

/-- A lookup after an insertion sees the new entry, and the old table elsewhere. -/
theorem get?_insert {t : RegTable α} {x r : Reg} {v : α} :
    (t.insert r v).get? x = if r = x then some v else t.get? x :=
  lookup_insertInto

/-- Keep the entries that satisfy `p`. -/
def filter (t : RegTable α) (p : Reg → α → Bool) : RegTable α :=
  ⟨t.entries.filter fun e => p e.1 e.2, t.ascending.filter _⟩

/-- Drop the entry of `r`. -/
def erase (t : RegTable α) (r : Reg) : RegTable α := t.filter fun a _ => a ≠ r

/-- The table of a list of entries; a later entry for a register wins. -/
def ofList (entries : List (Reg × α)) : RegTable α :=
  entries.foldl (fun t e => t.insert e.1 e.2) ∅

/-- Both tables together; `other` wins where both have an entry. -/
def merge (t other : RegTable α) : RegTable α :=
  other.entries.foldl (fun t e => t.insert e.1 e.2) t

theorem mem_entries_of_lookup {r : Reg} {v : α} {l : List (Reg × α)} (h : lookup r l = some v) :
    (r, v) ∈ l := by
  induction l with
  | nil => simp [lookup] at h
  | cons e rest ih =>
    obtain ⟨a, w⟩ := e
    unfold lookup at h
    grind

/-- In an ascending list, every entry is the one that a lookup finds. -/
theorem lookup_of_mem_entries {r : Reg} {v : α} {l : List (Reg × α)}
    (sorted : l.Pairwise (·.1 < ·.1)) (h : (r, v) ∈ l) : lookup r l = some v := by
  induction l with
  | nil => simp at h
  | cons e rest ih =>
    obtain ⟨a, w⟩ := e
    obtain ⟨ha, hrest⟩ := List.pairwise_cons.mp sorted
    rcases List.mem_cons.mp h with heq | hmem
    · cases heq
      simp [lookup]
    · have hlt : a < r := ha (r, v) hmem
      have hne : a ≠ r := fun heq => Reg.lt_irrefl r (heq ▸ hlt)
      simp [lookup, hne, ih hrest hmem]

/-- An entry is listed exactly when a lookup finds it. -/
theorem mem_entries_iff {t : RegTable α} {r : Reg} {v : α} :
    (r, v) ∈ t.entries ↔ t.get? r = some v :=
  ⟨lookup_of_mem_entries t.ascending, mem_entries_of_lookup⟩

/-- A lookup in a filtered table finds what passes the filter. -/
theorem get?_filter {t : RegTable α} {f : Reg → α → Bool} {r : Reg} :
    (t.filter f).get? r = (t.get? r).filter (f r) := by
  have hiff : ∀ v, (t.filter f).get? r = some v ↔ (t.get? r).filter (f r) = some v := by
    intro v
    rw [← mem_entries_iff, filter, List.mem_filter, mem_entries_iff, Option.filter_eq_some_iff]
  exact Option.ext hiff

/-- The listed registers are those that a lookup finds something for. -/
theorem mem_keys_iff {t : RegTable α} {r : Reg} : r ∈ t.keys ↔ t.contains r = true := by
  constructor
  · intro h
    obtain ⟨⟨a, v⟩, hmem, rfl⟩ := List.mem_map.mp h
    simp [contains, mem_entries_iff.mp hmem]
  · intro h
    obtain ⟨v, hv⟩ := Option.isSome_iff_exists.mp h
    exact List.mem_map.mpr ⟨(r, v), mem_entries_iff.mpr hv, rfl⟩

@[simp] theorem mem_keySet {t : RegTable α} {r : Reg} : r ∈ t.keySet ↔ t.contains r = true :=
  mem_keys_iff

theorem lookup_foldl_insert {x : Reg} {l : List (Reg × α)} {t : RegTable α}
    (sorted : l.Pairwise (·.1 < ·.1)) :
    (l.foldl (fun t e => t.insert e.1 e.2) t).get? x = (lookup x l).or (t.get? x) := by
  induction l generalizing t with
  | nil => simp [lookup]
  | cons e rest ih =>
    obtain ⟨a, w⟩ := e
    obtain ⟨ha, hrest⟩ := List.pairwise_cons.mp sorted
    rw [List.foldl_cons, ih hrest, get?_insert]
    by_cases hax : a = x
    · subst hax
      have hnone : lookup a rest = none := by
        cases hl : lookup a rest with
        | none => rfl
        | some v => exact absurd (ha _ (mem_entries_of_lookup hl)) (Reg.lt_irrefl a)
      simp [lookup, hnone]
    · simp [lookup, hax]

/-- A lookup in a merged table asks the second table first. -/
theorem get?_merge {t other : RegTable α} {x : Reg} :
    (t.merge other).get? x = (other.get? x).or (t.get? x) :=
  lookup_foldl_insert other.ascending

end RegTable

end TensorKernel
