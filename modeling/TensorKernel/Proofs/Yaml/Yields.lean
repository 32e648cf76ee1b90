import TensorKernel.Proofs.Outcome
import TensorKernel.Yaml.Record

/-!
# What can be read

Every integer that is read from a document fits 64 bits, whatever the document is. This passes from
scalars to lists and records: a record is changed by one field at a time, also where its mapping takes
over entries of others, so what no field breaks holds of the record that is read.
-/

namespace TensorKernel.Yaml

variable {times : Bool} {cs : List Char} {n : Node} {text : String}

/-- A number with a fraction is cut down to an integer of 64 bits, if to any. -/
def Meaning.Fits : Meaning → Prop
  | .float truncated => ∀ n ∈ truncated, Text.fitsInt64 n = true
  | _ => True

namespace Plain

theorem fits_cutToInt64 {negative : Bool} {magnitude : Nat} :
    ∀ n ∈ cutToInt64 negative magnitude, Text.fitsInt64 n = true := by
  intro n hn
  have hlimits : Text.minInt64 ≤ 0 ∧ 0 ≤ Text.maxInt64 := by decide
  rw [Text.fitsInt64, Bool.and_eq_true, decide_eq_true_eq, decide_eq_true_eq]
  unfold cutToInt64 at hn
  split at hn
  · cases hn
    omega
  · split at hn
    · cases hn
      omega
    · split at hn
      · cases hn
        omega
      · cases hn

theorem fits_float? : ∀ m ∈ float? cs, m.Fits := by
  intro m hm
  obtain ⟨s, _, hm⟩ := Option.bind_eq_some_iff.mp hm
  obtain ⟨magnitude, _, hm⟩ := Option.bind_eq_some_iff.mp hm
  cases hm
  exact fits_cutToInt64

theorem fits_fixed? : ∀ m ∈ fixed? text, m.Fits := by
  intro m hm
  unfold fixed? at hm
  repeat' split at hm
  all_goals cases hm
  all_goals simp [Meaning.Fits]
  decide

theorem fits_digits? {radix : Nat} : ∀ m ∈ digits? radix cs, m.Fits := by
  intro m hm
  obtain ⟨_, _, rfl⟩ := Option.map_eq_some_iff.mp hm
  trivial

theorem fits_marked? : ∀ m ∈ marked? cs, m.Fits := by
  intro m hm
  unfold marked? at hm
  split at hm
  · exact fits_digits? m hm
  · exact fits_digits? m hm
  · exact fits_digits? m hm
  · exact fits_digits? m hm
  · cases hm

/-- What starts like a number is a number that fits, or no number. -/
theorem fits_numeric : (numeric times cs).Fits := by
  unfold numeric
  split
  · trivial
  · dsimp only
    cases hint : int? (cs.filter (· ≠ '_')) with
    | some m =>
      unfold int? at hint
      split at hint
      · cases hint
        trivial
      · obtain ⟨_, _, rfl⟩ := Option.map_eq_some_iff.mp hint
        trivial
    | none =>
      cases hfloat : float? (cs.filter (· ≠ '_')) with
      | some m => exact fits_float? m hfloat
      | none =>
        cases hmarked : marked? (cs.filter (· ≠ '_')) with
        | some m => exact fits_marked? m hmarked
        | none => trivial

theorem fits_meaning : (meaning text times).Fits := by
  unfold meaning
  split
  · next m hm => exact fits_fixed? m hm
  · split
    · trivial
    · unfold fraction
      split
      · cases hfloat : float? _ with
        | some m => exact fits_float? m hfloat
        | none => trivial
      · trivial
    · split
      · exact fits_numeric
      · trivial

end Plain

/-- The meaning of a spelling under a tag fits. -/
theorem Tag.fits_meaning? {tag : Tag} {spelling : String} : ∀ m ∈ tag.meaning? spelling, m.Fits := by
  intro m hm
  have hplain : (Plain.meaning spelling (tag = timestamp)).Fits := Plain.fits_meaning
  unfold Tag.meaning? at hm
  split at hm
  case h_4 h =>
    cases hm
    exact h ▸ hplain
  case h_5 =>
    split at hm
    · cases hm
      exact Plain.fits_cutToInt64
    · cases hm
  case h_7 =>
    obtain ⟨_, _, rfl⟩ := Option.map_eq_some_iff.mp hm
    trivial
  all_goals
    cases hm
    try trivial

/-- The meaning of a scalar fits. -/
theorem Scalar.fits_meaning? {s : Scalar} : ∀ m ∈ s.meaning?, m.Fits := by
  intro m hm
  unfold Scalar.meaning? at hm
  split at hm
  · cases hm
    split
    · exact Plain.fits_meaning
    · trivial
  · exact Tag.fits_meaning? m hm

namespace Reading

variable {α β : Type} {P : α → Prop} {Q : β → Prop}

/-- A reading gives nothing without a property, in whatever document. -/
def Yields (P : α → Prop) (r : Reading α) : Prop := ∀ d t a u, r d t = .ok (a, u) → P a

theorem Yields.pure {a : α} (h : P a) : Yields P (pure a) := by
  intro d t b u hb
  cases hb
  exact h

theorem Yields.throw (e : Stop) : Yields P (throw e) := by
  intro d t b u hb
  cases hb

/-- What is read first has one property, and so what is read then has the other. -/
theorem Yields.bind {x : Reading α} {f : α → Reading β} (hx : Yields P x) (hf : ∀ a, P a → Yields Q (f a)) :
    Yields Q (x >>= f) := by
  intro d t b u hb
  obtain ⟨⟨a, s⟩, ha, hb⟩ := Outcome.except_bind_eq_ok.mp (show (x d t >>= fun r => f r.1 d r.2) = _ from hb)
  exact hf a (hx d t a s ha) d s b u hb

theorem Yields.of_forall {x : Reading α} (h : ∀ a, P a) : Yields P x := fun _ _ a _ _ => h a

/-- Of a value of no further account nothing is asked. -/
theorem Yields.any {x : Reading (Option α)} : Yields (fun o => ∀ a ∈ o, True) x := .of_forall fun _ _ _ => trivial

/-- Whatever is read first, what is read then has the property. -/
theorem Yields.after {x : Reading α} {f : α → Reading β} (hf : ∀ a, Yields Q (f a)) : Yields Q (x >>= f) :=
  Yields.bind (.of_forall fun _ => trivial) fun a _ => hf a

theorem Yields.misfit {P : Option α → Prop} (h : P none) : Yields P misfit := .after fun _ => .pure h

theorem Yields.visit {reader : Node → Reading α} (h : ∀ n, Yields P (reader n)) :
    Yields P (visit n reader) := by
  unfold Reading.visit
  refine .after fun _ => ?_
  split
  · have hnamed : ∀ n, Yields P (do
        let a ← reader n
        modify fun t => { t with path := t.path.tail }
        return a) := fun n => (h n).bind fun a ha => .after fun _ => .pure ha
    refine .after fun t => ?_
    dsimp only
    split
    · exact .after fun _ => .after fun _ => .after fun _ => .after fun n => hnamed n
    · exact .after fun _ => .after fun _ => .after fun n => hnamed n
  · exact h _

theorem Yields.apart {r : Reading α} (h : Yields P r) : Yields (fun x => P x.1) r.apart := by
  intro d t x u hx
  have hx : (do
      let y ← r.start d
      return (y.1, y.2.faulty) : Reading (α × Bool)) d t = .ok (x, u) := hx
  cases hr : r.start d with
  | error e =>
    rw [hr] at hx
    cases hx
  | ok y =>
    rw [hr] at hx
    cases hx
    exact h d {} y.1 y.2 hr

theorem Yields.mapM {f : β → Reading α} {l : List β} (h : ∀ b, Yields P (f b)) :
    Yields (fun as => ∀ a ∈ as, P a) (l.mapM f) := by
  induction l with
  | nil => exact .pure fun _ hnil => absurd hnil List.not_mem_nil
  | cons b l ih =>
    rw [List.mapM_cons]
    refine (h b).bind fun a ha => ih.bind fun as has => .pure fun x hx => ?_
    rcases List.mem_cons.mp hx with rfl | hx
    · exact ha
    · exact has x hx

theorem Yields.foldlM {f : α → β → Reading α} {l : List β} {a : α} (ha : P a)
    (h : ∀ a b, P a → Yields P (f a b)) : Yields P (l.foldlM f a) := by
  induction l generalizing a with
  | nil => exact .pure ha
  | cons b l ih =>
    rw [List.foldlM_cons]
    exact (h a b ha).bind fun c hc => ih hc

end Reading

open Reading

/-- A document is read as something that its root can yield. -/
theorem Document.of_readRoot {α : Type} {P : α → Prop} {d : Document} {reader : Node → Reading α} {a : α}
    (h : ∀ n, Yields P (reader n)) (hread : d.readRoot reader = .ok a) : P a := by
  have hyields : Yields P (do count; visit d.root reader) := .after fun _ => .visit h
  obtain ⟨⟨b, t⟩, hb, hread⟩ := Outcome.except_bind_eq_ok.mp hread
  dsimp only at hread
  split at hread
  · cases hread
  · cases hread
    exact hyields d {} a t hb

/-- A property that holds of all that entries are put into, as long as it holds at the start. -/
structure Sink.Keeps {β : Type} (sink : Sink β) (I : β → Prop) : Prop where
  start : ∀ b, I b → I (sink.start b)
  value : ∀ taken key n b, I b → Yields I (sink.value taken key n b)
  special : ∀ n reader b, sink.special n = some reader → I b → Yields I (reader b)

namespace Node

variable {α β ν : Type} {P : ν → Prop} {I : β → Prop} {sink : Sink β}

/-- A scalar yields what can be picked for its meaning. -/
theorem yields_ofScalar {pick : Scalar → Meaning → Option ν}
    (h : ∀ s m v, s.meaning? = some m → pick s m = some v → P v) :
    Yields (fun o => ∀ v ∈ o, P v) (ofScalar pick n) := by
  have hnone : ∀ v ∈ (none : Option ν), P v := fun _ hv => by cases hv
  unfold ofScalar
  split
  · split
    · exact .throw _
    · exact .pure hnone
    · next m _ hm =>
      split
      · next v hv => exact .pure fun w hw => Option.some.inj hw ▸ h _ m v hm hv
      · exact .misfit hnone
  · exact .misfit hnone

/-- Integers fit 64 bits. -/
theorem yields_int (n : Node) : Yields (fun o => ∀ i ∈ o, Text.fitsInt64 i = true) n.int := by
  refine yields_ofScalar fun s m i hm hi => ?_
  have hfits := Scalar.fits_meaning? m hm
  split at hi
  · split at hi
    · next hfit => exact Option.some.inj hi ▸ hfit
    · cases hi
  · exact hfits i hi
  · cases hi

/-- A list has items that the reader of items can yield. -/
theorem yields_list {item : Node → Reading (Option ν)} (h : ∀ n, Yields (fun o => ∀ v ∈ o, P v) (item n))
    (n : Node) : Yields (fun o => ∀ l ∈ o, ∀ v ∈ l, P v) (list item n) := by
  unfold list
  split
  · refine (Yields.mapM fun _ => Yields.visit h).bind fun items hitems => .pure fun l hl v hv => ?_
    cases hl
    obtain ⟨o, ho, hv⟩ := List.mem_filterMap.mp hv
    exact hitems o ho v hv
  · exact yields_ofScalar fun _ _ _ _ hpick => by cases hpick

theorem yields_optional {reader : Node → Reading (Option ν)} (h : Yields (fun o => ∀ v ∈ o, P v) (reader n)) :
    Yields (fun o => ∀ w ∈ o, ∀ v ∈ w, P v) (optional reader n) := by
  have hmap : Yields (fun o => ∀ w ∈ o, ∀ v ∈ w, P v) (return (← reader n).map some) :=
    h.bind fun o ho => .pure fun w hw v hv => by
      obtain ⟨x, hx, rfl⟩ := Option.map_eq_some_iff.mp hw
      cases hv
      exact ho _ hx
  unfold optional
  split
  · split
    · exact .pure fun w hw v hv => by cases hw; cases hv
    · exact hmap
  · exact hmap

/-- A field that keeps a property of the record. -/
theorem yields_field {I : α → Prop} {reader : Node → Reading (Option ν)} {set : ν → α → α} {a : α}
    (h : Yields (fun o => ∀ v ∈ o, P v) (reader n)) (hset : ∀ v, P v → I (set v a)) (ha : I a) :
    Yields I (field reader set n a) := by
  refine h.bind fun o ho => ?_
  split
  · exact .pure (hset _ (ho _ rfl))
  · exact .pure ha

theorem yields_ownEntries (keeps : sink.Keeps I) {hidden : Option (List Key)} {b : β} (hb : I b)
    (entries : List (Node × Node)) : Yields (fun r => I r.2) (ownEntries sink hidden b entries) := by
  induction entries generalizing hidden b with
  | nil => exact .pure hb
  | cons e entries ih =>
    unfold ownEntries
    split
    · exact ih hb
    · refine .after fun o => ?_
      split
      · exact ih hb
      · split
        · exact ih hb
        · exact (keeps.value _ _ _ b hb).bind fun c hc => ih hc

variable {again : List (Node × Node) → β → Reading (Option β)}

theorem yields_takenOver (keeps : sink.Keeps I)
    (hagain : ∀ entries b, I b → Yields (fun o => ∀ c ∈ o, I c) (again entries b)) {b : β} (hb : I b)
    (n : Node) : Yields I
      (match sink.special n, n with
      | some reader, _ => reader b
      | none, .mapping _ entries => return (← again entries b).getD b
      | none, _ => return b) := by
  split
  · next hspecial => exact keeps.special _ _ b hspecial hb
  · next entries _ =>
    refine (hagain entries b hb).bind fun o ho => .pure ?_
    cases o with
    | none => exact hb
    | some c => exact ho c rfl
  · exact .pure hb

theorem yields_takeOverMapping (keeps : sink.Keeps I)
    (hagain : ∀ entries b, I b → Yields (fun o => ∀ c ∈ o, I c) (again entries b)) {b : β} (hb : I b)
    (source : Node) : Yields I (takeOverMapping sink again b source) := by
  unfold takeOverMapping
  refine .after fun mapping => ?_
  dsimp only
  split
  · exact .after fun _ => .visit (yields_takenOver keeps hagain hb)
  · exact .visit (yields_takenOver keeps hagain hb)

theorem yields_takeOver (keeps : sink.Keeps I)
    (hagain : ∀ entries b, I b → Yields (fun o => ∀ c ∈ o, I c) (again entries b)) {b : β} (hb : I b)
    (source : Node) : Yields I (takeOver sink again b source) := by
  unfold takeOver
  split
  · exact .foldlM hb fun _ source hc => yields_takeOverMapping keeps hagain hc source
  · exact yields_takeOverMapping keeps hagain hb source

theorem yields_mappingWith {anything : Node → Reading (Option Content)} (keeps : sink.Keeps I)
    (hagain : ∀ entries b, I b → Yields (fun o => ∀ c ∈ o, I c) (again entries b))
    (entries : List (Node × Node)) (b : β) (hb : I b) :
    Yields (fun o => ∀ c ∈ o, I c) (mappingWith anything sink again entries b) := by
  unfold mappingWith
  split
  · exact .misfit fun _ hc => by cases hc
  · refine .after fun t => .after fun _ => (yields_ownEntries keeps (keeps.start b hb) entries).bind fun r hr => ?_
    obtain ⟨hidden, c⟩ := r
    refine .after fun _ => ?_
    split
    · exact .pure fun _ hc => Option.some.inj hc ▸ hr
    · next source _ =>
      have htake := yields_takeOver keeps hagain hr source
      split
      · exact htake.bind fun _ hc => .pure fun _ he => Option.some.inj he ▸ hc
      · exact .after fun _ => .after fun _ => htake.bind fun _ hc => .after fun _ =>
          .pure fun _ he => Option.some.inj he ▸ hc

/-- Whatever mappings are taken over one by another, what no entry breaks holds in the end. -/
theorem yields_entriesInto (keeps : sink.Keeps I) (entries : List (Node × Node)) {b : β} (hb : I b) :
    Yields (fun o => ∀ c ∈ o, I c) (entriesInto sink entries b) := by
  have hfrom : ∀ anything bound entries b, I b →
      Yields (fun o => ∀ c ∈ o, I c) (mappingFrom anything sink bound entries b) := by
    intro anything bound
    induction bound with
    | zero => exact yields_mappingWith keeps fun _ _ _ => .throw _
    | succ bound ih => exact yields_mappingWith keeps ih
  exact .after fun d => hfrom _ _ entries b hb

/-- A property that no field breaks is kept by the entries for the fields. -/
theorem keeps_fieldSink {fields : Fields α} {I : α → Prop}
    (h : ∀ name change, fields name = some change → ∀ n a, I a → Yields I (change n a)) :
    (fieldSink fields).Keeps fun r => I r.1 where
  start _ hb := hb
  special _ _ _ hspecial := by cases hspecial
  value taken key n b hb := by
    unfold fieldSink
    dsimp only
    split
    · next name change _ hchange =>
      split
      · exact .after fun _ => .pure hb
      · obtain ⟨name', _, hfield⟩ := Option.bind_eq_some_iff.mp hchange
        exact (Yields.visit fun n => h name' change hfield n b.1 hb).bind fun _ hc => .pure hc
    · exact .pure hb

/-- A record has the properties that no field breaks. -/
theorem yields_record {fields : Fields α} {I : α → Prop} {a : α} (ha : I a)
    (h : ∀ name change, fields name = some change → ∀ n a, I a → Yields I (change n a)) (n : Node) :
    Yields (fun o => ∀ b ∈ o, I b) (record fields a n) := by
  unfold record
  split
  · refine (yields_entriesInto (keeps_fieldSink h) _ ha).bind fun o ho => .pure fun b hb => ?_
    obtain ⟨r, hr, rfl⟩ := Option.map_eq_some_iff.mp hb
    exact ho r hr
  · exact yields_ofScalar fun _ _ _ _ hpick => by cases hpick

end Node

end TensorKernel.Yaml
