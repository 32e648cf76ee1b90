import Mathlib.Data.List.Nodup
import TensorKernel.Proofs.Outcome
import TensorKernel.Proofs.Yaml.Written
import TensorKernel.Register.MapFile

/-!
# Register map files are read as what was written

A register map whose registers are legible and stay in their banks is written as a mapping with one entry
for each of its own, in an order that is of no account to the reader. Read again, it gives the same map.
-/

namespace TensorKernel

variable {m : RegMap}

namespace RegTable

variable {α : Type} {t : RegTable α} {l : List (Reg × α)}

/-- A new entry joins the others. -/
theorem perm_insertInto {r : Reg} {v : α} (new : r ∉ l.map Prod.fst) :
    (insertInto r v l).Perm ((r, v) :: l) := by
  induction l with
  | nil => exact .refl _
  | cons e l ih =>
    obtain ⟨hne, hrest⟩ := not_or.mp (List.mem_cons.not.mp new)
    unfold insertInto
    rw [if_neg hne]
    split
    · exact .refl _
    · exact ((ih hrest).cons e).trans (.swap _ _ _)

/-- So do new entries for different registers. -/
theorem perm_foldl_insert (different : ((l ++ t.entries).map Prod.fst).Nodup) :
    (l.foldl (fun t e => t.insert e.1 e.2) t).entries.Perm (l ++ t.entries) := by
  induction l generalizing t with
  | nil => exact .refl _
  | cons e l ih =>
    obtain ⟨hnew, hrest⟩ := List.nodup_cons.mp different
    have hnew' : e.1 ∉ t.entries.map Prod.fst := fun h => hnew (by simp [List.mem_map.mp h])
    have hinsert : (l ++ (t.insert e.1 e.2).entries).Perm (e :: l ++ t.entries) :=
      ((perm_insertInto hnew').append_left l).trans List.perm_middle
    refine (ih ?_).trans hinsert
    exact ((hinsert.map Prod.fst).nodup_iff).mpr different

theorem nodup_keys (t : RegTable α) : (t.entries.map Prod.fst).Nodup :=
  List.pairwise_map.mpr (t.ascending.imp fun {a b} (hlt : a.1 < b.1) he => Reg.lt_irrefl _ (he ▸ hlt))

/-- The entries of a table, in any order, make the table. -/
theorem ofList_eq_of_perm (h : l.Perm t.entries) : ofList l = t := by
  have hirrefl : ∀ e e' : Reg × α, e.1 < e'.1 → e'.1 < e.1 → e = e' := fun e e' hlt hgt =>
    absurd (Reg.lt_trans hlt hgt) (Reg.lt_irrefl _)
  have hperm : (ofList l).entries.Perm t.entries := by
    refine (perm_foldl_insert (t := ∅) ?_).trans ?_
    · rw [show (∅ : RegTable α).entries = [] from rfl, List.append_nil]
      exact (h.map Prod.fst).nodup_iff.mpr t.nodup_keys
    · rw [show (∅ : RegTable α).entries = [] from rfl, List.append_nil]
      exact h
  have hlist := hperm.eq_of_pairwise (fun e e' _ _ => hirrefl e e') (ofList l).ascending t.ascending
  cases t
  generalize ofList l = u at hlist
  cases u
  congr

end RegTable

namespace Yaml

/-- The keys and values of a mapping of texts. -/
def textEntries (l : List (String × String)) : List (Node × Node) :=
  l.map fun e => (Node.ofText e.1, Node.ofText e.2)

namespace Node

open Reading

variable {l : List (String × String)}

/-- A new key goes behind the others. -/
theorem put_eq_append {ν : Type} {table : List (Key × ν)} {key : Key} (h : key ∉ table.map Prod.fst)
    (v : ν) : put table key v = table ++ [(key, v)] := by
  rw [put, List.filter_eq_self.mpr]
  intro e he
  simpa using fun heq : e.1 = key => h (heq ▸ List.mem_map_of_mem he)

/-- The table that texts are read into. -/
def textTable (l : List (String × String)) : List (Key × Label) := l.map fun e => (.text e.1, e.2)

/-- The entries of a mapping of texts are read one behind the other. -/
theorem gives_textEntries {table : List (Key × Label)} (own : ∀ e ∈ l, e.1 ≠ "<<")
    (different : (table ++ textTable l).map Prod.fst |>.Nodup) :
    Gives (ownEntries (tableSink RegMap.textKey Node.text "") none table (textEntries l))
      (none, table ++ textTable l) := by
  induction l generalizing table with
  | nil =>
    rw [show textTable [] = [] from rfl, List.append_nil]
    exact .pure _
  | cons e l ih =>
    obtain ⟨key, value⟩ := e
    have hnew : Key.text key ∉ table.map Prod.fst := by
      intro hmem
      rw [List.map_append] at different
      exact (List.nodup_append.mp different).2.2 _ hmem _ (by simp [textTable]) rfl
    have hkey : Gives (visit (ofText key) RegMap.textKey) (some (.text key)) :=
      Gives.visit ((gives_text_ofText key).bind (.pure _))
    have hvalue : Gives ((tableSink RegMap.textKey Node.text "").value false (.text key) (ofText value) table)
        (table ++ [(.text key, Label.ofString value)]) :=
      put_eq_append hnew (Label.ofString value) ▸ (gives_text_ofText value).visit.bind (.pure _)
    have htable : table ++ textTable ((key, value) :: l) =
        table ++ [(.text key, Label.ofString value)] ++ textTable l := by simp [textTable]
    rw [htable] at different ⊢
    show Gives (ownEntries _ none table ((ofText key, ofText value) :: textEntries l)) _
    unfold ownEntries
    rw [isMerge_ofText (own _ List.mem_cons_self), if_neg Bool.false_ne_true]
    exact hkey.bind (hvalue.bind (ih (fun e he => own e (List.mem_cons_of_mem _ he)) different))

end Node

end Yaml

open Yaml Reading

namespace RegMap

variable {d : Document} {l : List (String × String)}

/-- Texts as they are read. -/
def labels (l : List (String × String)) : List (Label × Label) := l.map fun e => (e.1, e.2)

theorem labels_textTable (l : List (String × String)) :
    (Node.textTable l).filterMap (fun | (.text l, v) => some (l, v) | _ => none) = labels l := by
  unfold Node.textTable
  rw [List.filterMap_map]
  exact List.filterMap_eq_map_iff_forall_eq_some.mpr fun _ _ => rfl

/-- A mapping of texts is read as these texts. -/
theorem gives_texts (own : ∀ e ∈ l, e.1 ≠ "<<") (different : (l.map Prod.fst).Nodup) :
    Gives (texts (.mapping none (textEntries l))) (some (labels l)) := by
  have hkeys : ((Node.textTable l).map Prod.fst).Nodup := by
    have : (Node.textTable l).map Prod.fst = (l.map Prod.fst).map fun s => Key.text (Label.ofString s) := by
      simp [Node.textTable]
    rw [this]
    exact different.map fun a b hab => Label.ofString_injective (Key.text.inj hab)
  have hnames : (textEntries l).map Prod.fst = (l.map Prod.fst).map Node.ofText := by simp [textEntries]
  have hown : "<<" ∉ l.map Prod.fst := fun hmem => by
    obtain ⟨e, he, heq⟩ := List.mem_map.mp hmem
    exact own e he heq
  have htable : Gives (Node.entriesInto (Node.tableSink textKey Node.text "") (textEntries l) [])
      (some (Node.textTable l)) :=
    Node.gives_entriesInto hnames different hown (Node.gives_textEntries own hkeys)
  exact labels_textTable l ▸ htable.bind (.pure _)

/-- A document of texts is a register map if these are the texts of registers. -/
theorem ofDocument_textEntries (root : d.root = .mapping none (textEntries l))
    (own : ∀ e ∈ l, e.1 ≠ "<<") (different : (l.map Prod.fst).Nodup) :
    ofDocument d = ((labels l).mapM ofEntry).map RegTable.ofList := by
  have htexts : Gives (visit (.mapping none (textEntries l)) texts) (some (labels l)) :=
    (gives_texts own different).visit
  have hnode : Gives (ofNode (.mapping none (textEntries l)))
      (((labels l).mapM ofEntry).map RegTable.ofList) := by
    intro d t _ _
    obtain ⟨u, hu, hfaulty⟩ := htexts.start d
    refine ⟨0, ?_⟩
    show ofTexts (.mapping none (textEntries l)) d t = _
    unfold ofTexts
    rw [bind_of_ok (a := d) (u := t) rfl, hu]
    dsimp only
    rw [hfaulty]
    rfl
  have hroot : Gives (visit d.root ofNode) (((labels l).mapM ofEntry).map RegTable.ofList) := by
    rw [root]
    exact hnode.visit
  rw [ofDocument, Document.readRoot_eq_ok hroot]

/-- A register map that can be written and read: its registers are legible and stay in their banks. -/
def Legible (m : RegMap) : Prop :=
  ∀ r phys, m.get? r = some phys → r.Legible ∧ phys.Legible ∧ r.bank = phys.bank

/-- Legible registers that are different have entries of their own. -/
theorem lastTexts_eq_map {l : List (Reg × Reg)} (legible : ∀ e ∈ l, e.1.Legible)
    (different : (l.map Prod.fst).Nodup) : lastTexts l = l.map fun e => (e.1.text, e.2.text) := by
  induction l with
  | nil => rfl
  | cons e l ih =>
    obtain ⟨hnew, hrest⟩ := List.nodup_cons.mp different
    have hlookup : ((l.map fun e => (e.1.text, e.2.text)).lookup e.1.text).isSome = false := by
      rw [Bool.eq_false_iff, Ne, List.lookup_isSome_iff]
      rintro ⟨_, hmem, htext⟩
      obtain ⟨e', he', rfl⟩ := List.mem_map.mp hmem
      have heq := Reg.eq_of_text_eq (legible e List.mem_cons_self)
        (legible e' (List.mem_cons_of_mem _ he')) (by simpa using htext)
      exact hnew (heq ▸ List.mem_map_of_mem he')
    unfold lastTexts
    rw [ih (fun x hx => legible x (List.mem_cons_of_mem _ hx)) hrest]
    simp only [hlookup, List.map_cons]
    rfl

/-- What is written for a legible register map: one entry for each of its own, in some order. -/
theorem Legible.toNode_eq (h : m.Legible) : ∃ l : List (Reg × Reg), l.Perm m.entries ∧
    m.toNode = .mapping none (textEntries (l.map fun e => (e.1.text, e.2.text))) := by
  have hlegible : ∀ e ∈ m.entries, e.1.Legible := fun e he =>
    (h e.1 e.2 (RegTable.mem_entries_iff.mp he)).1
  have hsort := List.map_mergeSort (f := fun e : Reg × Reg => (e.1.text, e.2.text)) (l := m.entries)
    (r := fun a b => NaturalOrder.le a.1.text b.1.text) (s := fun a b => NaturalOrder.le a.1 b.1)
    fun _ _ _ _ => rfl
  refine ⟨_, List.mergeSort_perm m.entries fun a b => NaturalOrder.le a.1.text b.1.text, ?_⟩
  rw [hsort, toNode, lastTexts_eq_map hlegible m.nodup_keys]
  rfl

/-- The texts of an entry of a legible map are read as the entry. -/
theorem Legible.ofEntry_text (h : m.Legible) {e : Reg × Reg} (he : e ∈ m.entries) :
    ofEntry (Label.ofString e.1.text, Label.ofString e.2.text) = .ok e := by
  obtain ⟨habstract, hphys, hbank⟩ := h e.1 e.2 (RegTable.mem_entries_iff.mp he)
  rw [ofEntry, Reg.parse_text habstract, Reg.parse_text hphys]
  simp [bind, Except.bind, pure, Except.pure, hbank]

/-- So are the texts of several entries. -/
theorem Legible.mapM_ofEntry (h : m.Legible) {l : List (Reg × Reg)} (hl : ∀ e ∈ l, e ∈ m.entries) :
    (labels (l.map fun e => (e.1.text, e.2.text))).mapM ofEntry = .ok l := by
  rw [labels, List.map_map]
  induction l with
  | nil => rfl
  | cons e l ih =>
    rw [List.map_cons, List.mapM_cons, ih fun x hx => hl x (List.mem_cons_of_mem _ hx)]
    show (ofEntry (Label.ofString e.1.text, Label.ofString e.2.text) >>= _) = _
    rw [h.ofEntry_text (hl e List.mem_cons_self)]
    rfl

/-- A legible register map is read as it was written. -/
theorem Legible.ofDocument_eq (h : m.Legible) (root : d.root = m.toNode) : ofDocument d = .ok m := by
  obtain ⟨l, hperm, hnode⟩ := h.toNode_eq
  have hmem : ∀ e ∈ l, e ∈ m.entries := fun e he => hperm.mem_iff.mp he
  have hlegible : ∀ e ∈ l, e.1.Legible := fun e he =>
    (h e.1 e.2 (RegTable.mem_entries_iff.mp (hmem e he))).1
  rw [hnode] at root
  rw [ofDocument_textEntries root]
  · rw [h.mapM_ofEntry hmem]
    exact congrArg Except.ok (RegTable.ofList_eq_of_perm hperm)
  · intro _ hmem heq
    obtain ⟨e, he, rfl⟩ := List.mem_map.mp hmem
    have hparse := Reg.parse_text (hlegible e he)
    have hnone : Reg.parse "<<" = .error (.noBank "<<") := by decide
    rw [show e.1.text = "<<" from heq, hnone] at hparse
    cases hparse
  · rw [List.map_map]
    show (l.map fun e => e.1.text).Nodup
    have hkeys : (l.map Prod.fst).Nodup := (hperm.map Prod.fst).nodup_iff.mpr m.nodup_keys
    refine List.pairwise_map.mpr ((List.pairwise_map.mp hkeys).imp_of_mem fun ha hb hne heq => hne ?_)
    exact Reg.eq_of_text_eq (hlegible _ ha) (hlegible _ hb) heq

end RegMap

end TensorKernel
