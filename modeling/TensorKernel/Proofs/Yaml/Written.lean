import TensorKernel.Proofs.Yaml.Spelling
import TensorKernel.Yaml.Record
import TensorKernel.Yaml.Render

/-!
# Reading what was written

A node that was written for a value gives the value again, whatever document it stands in: texts,
integers of 64 bits and truth values, lists of such nodes, and records, of which each entry changes one
field. Nothing of this depends on the number of nodes visited before, and no name is followed.
-/

namespace TensorKernel.Yaml

variable {names : List String} {m : Meaning} {n : Node} {s : Scalar} {name : String}

namespace Tally

/-- The tally of a document in which no node was reached by its name. -/
structure Direct (t : Tally) : Prop where
  path : t.path = []
  borrowed : t.borrowed = 0

/-- The tally after further visits. -/
def visited (t : Tally) (n : Nat) : Tally := { t with visits := t.visits + n }

theorem visited_visited (t : Tally) (m n : Nat) : (t.visited m).visited n = t.visited (m + n) := by
  simp [visited, Nat.add_assoc]

theorem Direct.visited {t : Tally} (h : t.Direct) (n : Nat) : (t.visited n).Direct := ⟨h.path, h.borrowed⟩

end Tally

namespace Reading

variable {α β : Type} {d : Document} {t u : Tally}

/-- After a successful reading the next one is left to do. -/
theorem bind_of_ok {x : Reading α} {f : α → Reading β} {a : α} (h : x d t = .ok (a, u)) :
    (x >>= f) d t = f a d u := by
  show (x d t >>= fun r => f r.1 d r.2) = _
  rw [h]
  rfl

/-- A visit is counted. -/
theorem count_eq_ok (h : t.Direct) : count d t = .ok ((), t.visited 1) := by
  have hcalm : (t.visited 1).excessive = false :=
    Tally.excessive_eq_false (by simp [Tally.visited, h.borrowed])
  have hnext : ({ t with
      visits := t.visits + 1
      borrowed := if t.path.isEmpty then t.borrowed else t.borrowed + 1 } : Tally) = t.visited 1 := by
    simp [h.path, Tally.visited]
  unfold count
  rw [bind_of_ok (a := t) (u := t) rfl]
  dsimp only
  rw [hnext, hcalm]
  rfl

/-- A node that does not stand for another one is read itself. -/
theorem visit_eq {reader : Node → Reading α} (h : t.Direct)
    (own : ∀ place name target, n ≠ .reference place name target) :
    visit n reader d t = reader n d (t.visited 1) := by
  unfold visit
  rw [bind_of_ok (count_eq_ok h)]
  split
  · exact absurd rfl (own _ _ _)
  · rfl

/-- A reading that gives a value in every document, and does nothing but visit nodes. -/
def Gives (r : Reading α) (a : α) : Prop :=
  ∀ d t, t.Direct → t.hidden = none → ∃ k, r d t = .ok (a, t.visited k)

theorem Gives.pure (a : α) : Gives (pure a) a := fun _ _ _ _ => ⟨0, rfl⟩

/-- What gives a value is followed by what is done with the value. -/
theorem Gives.bind {x : Reading α} {f : α → Reading β} {a : α} {b : β} (hx : Gives x a)
    (hf : Gives (f a) b) : Gives (x >>= f) b := by
  intro d t direct hidden
  obtain ⟨j, hj⟩ := hx d t direct hidden
  obtain ⟨k, hk⟩ := hf d (t.visited j) (direct.visited j) hidden
  refine ⟨j + k, ?_⟩
  rw [bind_of_ok hj, hk, Tally.visited_visited]

/-- A node that is no name is visited to be read. -/
theorem Gives.visit {reader : Node → Reading α} {a : α} (h : Gives (reader n) a)
    (own : ∀ place name target, n ≠ .reference place name target := by intro _ _ _ h; cases h) :
    Gives (visit n reader) a := by
  intro d t direct hidden
  obtain ⟨k, hk⟩ := h d (t.visited 1) (direct.visited 1) hidden
  refine ⟨1 + k, ?_⟩
  rw [visit_eq direct own, hk, Tally.visited_visited]

/-- Nothing is found faulty. -/
theorem Gives.start {r : Reading α} {a : α} (h : Gives r a) (d : Document) :
    ∃ t, r.start d = .ok (a, t) ∧ t.faulty = false := by
  obtain ⟨k, hk⟩ := h d {} ⟨rfl, rfl⟩ rfl
  exact ⟨_, hk, rfl⟩

theorem Gives.apart {r : Reading α} {a : α} (h : Gives r a) : Gives r.apart (a, false) := by
  intro d t _ _
  obtain ⟨u, hu, hfaulty⟩ := h.start d
  refine ⟨0, ?_⟩
  unfold Reading.apart
  rw [bind_of_ok (a := d) (u := t) rfl, hu]
  show Except.ok ((a, u.faulty), t) = _
  rw [hfaulty]
  rfl

end Reading

open Reading

/-- A document is read by what its root gives. -/
theorem Document.readRoot_eq_ok {α : Type} {d : Document} {reader : Node → Reading α} {a : α}
    (h : Gives (visit d.root reader) a) : d.readRoot reader = .ok a := by
  have hcount : Gives count () := fun _ _ direct _ => ⟨1, count_eq_ok direct⟩
  obtain ⟨t, ht, hfaulty⟩ := (Gives.bind (f := fun _ => visit d.root reader) hcount h).start d
  unfold Document.readRoot
  rw [ht]
  show (if t.faulty = true then _ else _) = _
  rw [hfaulty]
  rfl

namespace Scalar

/-- What is written for an integer of 64 bits stands for the integer. -/
theorem meaning?_ofInt {n : Int} (fits : Text.fitsInt64 n = true) : (ofInt n).meaning? = some (.int n) :=
  congrArg some (Plain.meaning_toString fits)

/-- What is written for a truth value stands for it. -/
theorem meaning?_ofBool (b : Bool) : (ofBool b).meaning? = some (.bool b) := by
  cases b <;> decide

end Scalar

namespace Node

variable {α β ν : Type}

/-- A scalar gives what is picked for its meaning. -/
theorem gives_ofScalar {pick : Scalar → Meaning → Option α} {a : α} (meaning : s.meaning? = some m)
    (something : m ≠ .null) (picked : pick s m = some a) : Gives (ofScalar pick (.scalar s)) (some a) := by
  intro d t _ _
  refine ⟨0, ?_⟩
  simp only [ofScalar, meaning]
  rw [picked]
  rfl

theorem gives_text_ofText (s : String) : Gives (Node.text (ofText s)) (some (Label.ofString s)) :=
  gives_ofScalar (Scalar.meaning?_ofText s) Meaning.noConfusion rfl

theorem gives_text (l : Label) : Gives (Node.text (ofLabel l)) (some l) :=
  gives_ofScalar (Scalar.meaning?_ofLabel l) Meaning.noConfusion (by simp)

theorem gives_int {n : Int} (fits : Text.fitsInt64 n = true) : Gives (Node.int (ofInt n)) (some n) :=
  gives_ofScalar (Scalar.meaning?_ofInt fits) Meaning.noConfusion (if_pos fits)

theorem gives_bool (b : Bool) : Gives (Node.bool (ofBool b)) (some b) :=
  gives_ofScalar (Scalar.meaning?_ofBool b) Meaning.noConfusion rfl

/-- A value that is there is given although it might be missing. -/
theorem gives_optional {reader : Node → Reading (Option α)} {a : α}
    (h : Gives (reader (.scalar s)) (some a)) (meaning : s.meaning? = some m) (something : m ≠ .null) :
    Gives (optional reader (.scalar s)) (some (some a)) := by
  have hnull : s.isNull = false := by simpa [Scalar.isNull, meaning] using something
  unfold optional
  dsimp only
  rw [hnull, if_neg Bool.false_ne_true]
  exact h.bind (.pure _)

/-- Items are given one by one. -/
theorem gives_mapM {toNode : ν → Node} {item : Node → Reading (Option α)} {value : ν → α} {l : List ν}
    (h : ∀ v ∈ l, Gives (visit (toNode v) item) (some (value v))) :
    Gives ((l.map toNode).mapM (visit · item)) (l.map fun v => some (value v)) := by
  induction l with
  | nil => exact .pure []
  | cons v l ih =>
    rw [List.map_cons, List.mapM_cons]
    exact (h v List.mem_cons_self).bind
      ((ih fun w hw => h w (List.mem_cons_of_mem _ hw)).bind (.pure _))

/-- A list gives what its items give. -/
theorem gives_list {toNode : ν → Node} {item : Node → Reading (Option α)} {value : ν → α} {l : List ν}
    (h : ∀ v ∈ l, Gives (visit (toNode v) item) (some (value v))) :
    Gives (list item (.sequence none (l.map toNode))) (some (l.map value)) := by
  have hvalues : (l.map fun v => some (value v)).filterMap id = l.map value := by
    rw [List.filterMap_map, ← List.filterMap_eq_map]
    rfl
  unfold list
  exact hvalues ▸ (gives_mapM h).bind (.pure _)

/-- A list of values that are given again is given again. -/
theorem gives_list_self {toNode : α → Node} {item : Node → Reading (Option α)} {l : List α}
    (h : ∀ v ∈ l, Gives (visit (toNode v) item) (some v)) :
    Gives (list item (.sequence none (l.map toNode))) (some l) := by
  have hlist : Gives (list item (.sequence none (l.map toNode))) (some (l.map id)) := gives_list h
  rwa [List.map_id] at hlist

/-- Different texts are written differently. -/
theorem distinctKeys_map_ofText (different : names.Nodup) : distinctKeys (names.map ofText) = true := by
  induction names with
  | nil => rfl
  | cons name names ih =>
    obtain ⟨hnew, hrest⟩ := List.nodup_cons.mp different
    have hfirst : (names.map ofText).any (sameKey (ofText name)) = false := by
      rw [List.any_eq_false]
      intro key hkey
      obtain ⟨other, hother, rfl⟩ := List.mem_map.mp hkey
      simpa [sameKey, ofText, Scalar.ofText] using fun he : name = other => hnew (he ▸ hother)
    rw [List.map_cons, distinctKeys, hfirst, ih hrest]
    rfl

theorem isMerge_ofText (h : name ≠ "<<") : isMerge (ofText name) = false := by
  simp [isMerge, ofText, Scalar.isMerge, Scalar.ofText, h]

/-- A mapping with different texts as keys that takes over nothing is read by its own entries. -/
theorem gives_entriesInto {sink : Sink β} {l : List (Node × Node)} {b c : β}
    (keys : l.map Prod.fst = names.map ofText) (different : names.Nodup) (own : "<<" ∉ names)
    (h : Gives (ownEntries sink none (sink.start b) l) (none, c)) :
    Gives (entriesInto sink l b) (some c) := by
  have hmerge : l.find? (isMerge ·.1) = none := by
    rw [List.find?_eq_none]
    intro e he
    obtain ⟨name, hname, heq⟩ := List.mem_map.mp (keys ▸ List.mem_map_of_mem he : e.1 ∈ names.map ofText)
    rw [← heq, isMerge_ofText fun hm => own (hm ▸ hname)]
    exact Bool.false_ne_true
  intro d t direct hidden
  obtain ⟨k, hk⟩ := h d t direct hidden
  have hwith : ∀ anything again, mappingWith anything sink again l b d t = .ok (some c, t.visited k) := by
    intro anything again
    unfold mappingWith
    rw [keys, distinctKeys_map_ofText different, if_neg (by decide), hmerge]
    rw [bind_of_ok (a := t) (u := t) rfl]
    dsimp only
    rw [hidden, bind_of_ok (a := ()) (u := { t with hidden := none }) rfl]
    have hsame : { t with hidden := none } = t := by rw [← hidden]
    rw [hsame, bind_of_ok hk]
    show Except.ok _ = _
    congr 3
    rw [← hidden]
    rfl
  refine ⟨k, ?_⟩
  unfold entriesInto
  rw [bind_of_ok (a := d) (u := t) rfl]
  cases hbound : d.bound with
  | zero => exact hwith _ _
  | succ bound => exact hwith _ _

/-- Entries for some of the given names, in their order, that turn a record into another one. -/
inductive Fills (fields : Fields α) : α → List (Node × Node) → List String → α → Prop
  | nil (a : α) (names : List String) : Fills fields a [] names a
  | skip {a b : α} {l : List (Node × Node)} {names : List String} (name : String) :
    Fills fields a l names b → Fills fields a l (name :: names) b
  | cons {a b c : α} {l : List (Node × Node)} {names : List String} {name : String} {n : Node}
    {change : Node → α → Reading α} : fields name = some change → Gives (visit n (change · a)) b →
    Fills fields b l names c → Fills fields a ((ofText name, n) :: l) (name :: names) c

namespace Fills

variable {fields : Fields α} {a b c : α} {l m : List (Node × Node)} {others : List String}

/-- Further entries are for further names. -/
theorem append (h : Fills fields a l names b) (h' : Fills fields b m others c) :
    Fills fields a (l ++ m) (names ++ others) c := by
  induction h with
  | nil a names =>
    induction names with
    | nil => exact h'
    | cons name names ih => exact .skip name ih
  | skip name _ ih => exact .skip name (ih h')
  | cons known gives _ ih => exact .cons known gives (ih h')

/-- One entry sets one field. -/
theorem single {reader : Node → Reading (Option ν)} {set : ν → α → α} {v : ν}
    (known : fields name = some (field reader set)) (gives : Gives (reader n) (some v)) (hb : set v a = b)
    (own : ∀ place name target, n ≠ .reference place name target := by intro _ _ _ h; cases h) :
    Fills fields a [(ofText name, n)] [name] b :=
  .cons known (Gives.visit (gives.bind (hb ▸ .pure _)) own) (.nil _ _)

/-- The keys are texts of some of the names. -/
theorem keys (h : Fills fields a l names b) :
    ∃ given : List String, given.Sublist names ∧ l.map Prod.fst = given.map ofText := by
  induction h with
  | nil _ names => exact ⟨[], List.nil_sublist names, rfl⟩
  | skip name _ ih =>
    obtain ⟨given, hgiven, hkeys⟩ := ih
    exact ⟨given, hgiven.cons name, hkeys⟩
  | @cons _ _ _ _ _ name _ _ _ _ _ ih =>
    obtain ⟨given, hgiven, hkeys⟩ := ih
    exact ⟨name :: given, hgiven.cons_cons name, congrArg (ofText name :: ·) hkeys⟩

/-- The entries are read one behind the other. -/
theorem ownEntries_fieldSink (h : Fills fields a l names b) (different : names.Nodup) (own : "<<" ∉ names)
    {given : List String} (new : ∀ name ∈ given, name ∉ names) :
    ∃ given', Gives (ownEntries (fieldSink fields) none (a, given) l) (none, (b, given')) := by
  induction h generalizing given with
  | nil => exact ⟨given, .pure _⟩
  | skip name _ ih =>
    exact ih (List.nodup_cons.mp different).2 (fun h => own (List.mem_cons_of_mem _ h))
      fun s hs h => new s hs (List.mem_cons_of_mem _ h)
  | @cons a b c l names name n change known gives hrest ih =>
    obtain ⟨hnew, hnodup⟩ := List.nodup_cons.mp different
    have hunset : given.contains name = false := by
      simpa using fun hs => new name hs List.mem_cons_self
    have hmerge : isMerge (ofText name) = false := isMerge_ofText fun he => own (he ▸ List.mem_cons_self)
    have hkey : Gives ((fieldSink fields).key false (ofText name)) (some (.text name)) :=
      (gives_text_ofText name).visit.bind (.pure _)
    have hvalue : Gives ((fieldSink fields).value false (.text name) n (a, given)) (b, name :: given) := by
      simp only [fieldSink, Label.string?_ofString, Option.bind_some, known, hunset]
      exact gives.bind (.pure _)
    have hgiven : ∀ s ∈ name :: given, s ∉ names := by
      intro s hs
      rcases List.mem_cons.mp hs with rfl | hs
      · exact hnew
      · exact fun h => new s hs (List.mem_cons_of_mem _ h)
    obtain ⟨given', hgives⟩ := ih hnodup (fun h => own (List.mem_cons_of_mem _ h)) hgiven
    refine ⟨given', ?_⟩
    unfold ownEntries
    rw [hmerge, if_neg Bool.false_ne_true]
    exact hkey.bind (hvalue.bind hgives)

/-- A mapping without further keys is read into what it is filled with. -/
theorem gives_record (h : Fills fields a l names b) (different : names.Nodup) (own : "<<" ∉ names) :
    Gives (record fields a (.mapping none l)) (some b) := by
  obtain ⟨_, hgives⟩ := h.ownEntries_fieldSink different own fun name (hname : name ∈ []) => by cases hname
  obtain ⟨texts, hsub, hkeys⟩ := h.keys
  exact (gives_entriesInto hkeys (different.sublist hsub) (fun hm => own (hsub.mem hm)) hgives).bind (.pure _)

end Fills

mutual

/-- Whether two nodes are the same. -/
def same : Node → Node → Bool
  | .scalar a, .scalar b => a = b
  | .sequence s l, .sequence t m => s = t && sameItems l m
  | .mapping s l, .mapping t m => s = t && sameEntries l m
  | .reference place name target, .reference place' name' target' =>
    place = place' && name = name' && target = target'
  | _, _ => false

/-- Whether two lists of items are the same. -/
def sameItems : List Node → List Node → Bool
  | [], [] => true
  | a :: l, b :: m => same a b && sameItems l m
  | _, _ => false

/-- Whether two lists of entries are the same. -/
def sameEntries : List (Node × Node) → List (Node × Node) → Bool
  | [], [] => true
  | (k, v) :: l, (k', v') :: m => same k k' && same v v' && sameEntries l m
  | _, _ => false

end

mutual

theorem eq_of_same : ∀ {a b : Node}, same a b = true → a = b
  | .scalar a, .scalar b, h => congrArg scalar (of_decide_eq_true h)
  | .sequence s l, .sequence t m, h => by
    obtain ⟨htag, hitems⟩ := (Bool.and_eq_true _ _).mp h
    rw [of_decide_eq_true htag, eq_of_sameItems hitems]
  | .mapping s l, .mapping t m, h => by
    obtain ⟨htag, hentries⟩ := (Bool.and_eq_true _ _).mp h
    rw [of_decide_eq_true htag, eq_of_sameEntries hentries]
  | .reference .., .reference .., h => by simp_all [same]

theorem eq_of_sameItems : ∀ {l m : List Node}, sameItems l m = true → l = m
  | [], [], _ => rfl
  | a :: l, b :: m, h => by
    obtain ⟨hfirst, hrest⟩ := (Bool.and_eq_true _ _).mp h
    rw [eq_of_same hfirst, eq_of_sameItems hrest]

theorem eq_of_sameEntries : ∀ {l m : List (Node × Node)}, sameEntries l m = true → l = m
  | [], [], _ => rfl
  | (k, v) :: l, (k', v') :: m, h => by
    obtain ⟨hfirst, hrest⟩ := (Bool.and_eq_true _ _).mp h
    obtain ⟨hkey, hvalue⟩ := (Bool.and_eq_true _ _).mp hfirst
    rw [eq_of_same hkey, eq_of_same hvalue, eq_of_sameEntries hrest]

end

/-- The text that is written for a node reads as a document with this root. This is not so for every
node: a text that starts with a blank and has several lines is written with the indentation that it
would have right below the root, wherever it stands. -/
def ReadsBack (n : Node) : Prop := (Document.parse? n.page.text).map (·.root) = some n

/-- It can be tried. -/
theorem readsBack_of_same (h : ((Document.parse? n.page.text).any fun d => same d.root n) = true) :
    n.ReadsBack := by
  unfold ReadsBack
  cases hd : Document.parse? n.page.text with
  | none =>
    rw [hd] at h
    cases h
  | some d =>
    rw [hd] at h
    exact congrArg some (eq_of_same h)

end Node

end TensorKernel.Yaml
