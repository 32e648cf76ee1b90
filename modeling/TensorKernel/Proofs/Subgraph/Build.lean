import TensorKernel.Proofs.Loop.Enclose
import TensorKernel.Proofs.Loop.MarkLoops

/-!
# Built programs

The program of a subgraph lists its loops: operations read values of earlier operations, names are
different, and every registered loop has a positive step, no negative work and no handlers, and lies
inside the loops before it or apart from them. If every loop is entered at its first operation and left
at its last one, markers can be inserted for all of them.
-/

namespace TensorKernel

open Outcome

variable {name : Label} {ls : List ListedLoop} {earlier specs : List LoopSpec} {done : List OpSpec}
  {spec : LoopSpec} {first i last place : Nat} {p : Program} {side : Side} {sg : Subgraph} {v : ValueRef}

namespace Program

variable {q : Program}

theorem pristine_empty (name : Label) : ({ name } : Program).Pristine where
  tidy := ⟨fun _ h => absurd h List.not_mem_nil, .nil, fun _ h => absurd h List.not_mem_nil,
    Nat.le_refl _⟩
  wired := by
    have hnone : ∀ v, ({ name } : Program).output? v = none := fun _ => rfl
    refine ⟨fun _ _ h => absurd h List.not_mem_nil, fun v o h => ?_, fun id k v => ?_,
      fun v h => ?_⟩
    · simp [hnone] at h
    · simp only [uses, hnone, List.not_mem_nil, iff_false]
      exact fun h => by cases h
    · simp [hasValue_iff, hnone] at h
  original _ := rfl
  alone _ := aliasGroup_of_not_hasValue (Nat.not_lt_zero _)
  ids := rfl
  whole _ _ h := by cases h
  known _ := .inl rfl

theorem listed_empty (name : Label) : ({ name } : Program).Listed [] :=
  ⟨pristine_empty name, rfl, fun _ _ hi => absurd hi List.not_mem_nil, rfl, by simp, .nil,
    fun x hx => absurd hx (Nat.not_lt_zero x), by simp⟩

/-- The value that an input names exists. -/
theorem hasValue_of_resolveInput {text : Label} (h : p.resolveInput text = .ok v) : p.HasValue v := by
  unfold resolveInput at h
  split at h
  · cases h
  · split at h
    · cases h
    · split at h
      · cases h
      · dsimp only at h
        split at h
        · cases h
        · cases h
          exact Nat.lt_of_not_le ‹_›

/-- The values that the inputs name exist. -/
theorem hasValue_of_resolveInputs {spec : OpSpec} {inputs : List ValueRef}
    (h : p.resolveInputs spec = .ok inputs) (hv : v ∈ inputs) : p.HasValue v := by
  obtain ⟨entry, _, hentry⟩ := exists_of_mem_mapM h hv
  exact hasValue_of_resolveInput (mapError_eq_ok.mp hentry)

/-- The operation that a description stands for, once its inputs, outputs and element type are known. -/
def describedOp (p : Program) (spec : OpSpec) (inputs : List ValueRef) (outputs : Int)
    (type : ElementType) : Op :=
  { kind := spec.kind, type, shape := (p.outputShape spec inputs).getD [], outputs, group := spec.group }

/-- The program with an operation at its end. -/
def withOp (p : Program) (name : Label) (op : Op) (inputs : List ValueRef) : Program :=
  let (id, p) := p.makeOp name op inputs
  ({ p with names := (name, id) :: p.names } : Program).extend (p.order ++ [id])

/-- When a described operation is added, and what the program is then. -/
theorem addOp_eq_ok_iff {spec : OpSpec} : p.addOp spec = .ok q ↔
    (spec.name ≠ "" ∧ spec.kind ≠ "" ∧ p.isUsed spec.name = false) ∧ ∃ inputs outputs type,
      p.resolveInputs spec = .ok inputs ∧ outputCount spec = .ok outputs ∧
      ¬ ((p.outputShape spec inputs).isNone = true ∧ 0 < outputs) ∧ p.outputType spec inputs = .ok type ∧
      p.withOp spec.name (p.describedOp spec inputs outputs type) inputs = q := by
  unfold addOp
  simp only [guard_eq_ok, except_bind_eq_ok, except_pure_eq_ok, Bool.not_eq_true]
  constructor
  · rintro ⟨hname, hkind, hused, inputs, hinputs, outputs, houtputs, hshape, type, htype, hq⟩
    exact ⟨⟨hname, hkind, hused⟩, inputs, outputs, type, hinputs, houtputs, hshape, htype, hq⟩
  · rintro ⟨⟨hname, hkind, hused⟩, inputs, outputs, type, hinputs, houtputs, hshape, htype, hq⟩
    exact ⟨hname, hkind, hused, inputs, hinputs, outputs, houtputs, hshape, type, htype, hq⟩

/-- An operation that is added reads values of the program and stands at its end. -/
theorem addOp_eq_ok {spec : OpSpec} (h : p.addOp spec = .ok q) :
    ∃ op inputs, op.loop = 0 ∧ (op.role = .op ∧ op.kind = spec.kind ∧ op.group = spec.group) ∧
      outputCount spec = .ok op.outputs ∧ (∀ v ∈ inputs, p.HasValue v) ∧
      q = ((p.makeOp spec.name op inputs).2.enterNames [p.exprs.size]).extend
        (p.order ++ [p.exprs.size] ++ []) := by
  obtain ⟨_, inputs, outputs, type, hinputs, houtputs, _, _, rfl⟩ := addOp_eq_ok_iff.mp h
  let op := p.describedOp spec inputs outputs type
  have hr := p.rewired_make (op.expr spec.name (inputs.map p.inputOf))
  have hname : ((p.makeOp spec.name op inputs).2.expr p.exprs.size).name = spec.name := by
    refine (Expr.name_of_header (hr.header _)).trans ?_
    rw [expr_push, if_pos rfl]
    rfl
  have horder : (p.makeOp spec.name op inputs).2.order = p.order :=
    (congrArg Program.order hr.rest).trans rfl
  refine ⟨op, inputs, rfl, ⟨rfl, rfl, rfl⟩, houtputs, fun v hv => hasValue_of_resolveInputs hinputs hv, ?_⟩
  rw [List.append_nil, enterNames, List.map_singleton, hname, List.reverse_singleton,
    List.singleton_append, ← horder]
  rfl

/-- A program that has an expression for each of the described operations, in their order. -/
structure Transcribes (p : Program) (specs : List OpSpec) : Prop where
  size : p.exprs.size = specs.length
  op : ∀ (k : Nat) spec, specs[k]? = some spec →
    (p.expr k).role = Role.ofKind spec.kind ∧ (p.expr k).group = spec.group
  outputs : ∀ (k : Nat) spec, specs[k]? = some spec →
    ∃ count, outputCount spec = .ok count ∧ ∀ n : Nat, p.HasValue ⟨k, n⟩ ↔ (n : Int) < count

/-- A program without loops stays so when an operation is added, and has an expression for it. -/
theorem Listed.addOp (h : p.Listed []) {spec : OpSpec} (hadd : p.addOp spec = .ok q) :
    q.Listed [] ∧ ∀ specs, p.Transcribes specs → q.Transcribes (specs ++ [spec]) := by
  obtain ⟨op, inputs, hloop, ⟨hrole, hkind, hgroup⟩, houtputs, hin, rfl⟩ := addOp_eq_ok hadd
  have hmade := h.pristine.opMade spec.name op hin (.inl hloop)
  generalize (p.makeOp spec.name op inputs).2 = r at hmade
  have horder : r.order = p.order := by rw [hmade.rest]
  have hloops : r.loops = p.loops := by rw [hmade.rest]
  have hsplit : r.order = p.order ++ [] := by rw [horder, List.append_nil]
  have hpristine := hmade.pristine.insert hsplit (by simp [hmade.size])
    (List.nodup_singleton p.exprs.size) (by
      rw [horder]
      simpa using fun hmem => Nat.lt_irrefl _ (h.pristine.tidy.valid _ hmem))
  have hexpr : ∀ x, ((r.enterNames [p.exprs.size]).extend (p.order ++ [p.exprs.size] ++ [])).expr x =
      r.expr x := fun _ => rfl
  have hbeyond : ∀ x : Nat, p.exprs.size < x → r.expr x = p.expr x := by
    intro x hx
    rw [expr_of_size_le (by rw [hmade.size]; omega), expr_of_size_le (by omega)]
  refine ⟨⟨hpristine, ?_, fun x i hi => ?_, ?_, by simp, .nil, fun x hx => ?_, by simp⟩,
    fun specs hspecs => ⟨?_, fun k other hk => ?_, fun k other hk => ?_⟩⟩
  · show p.order ++ [p.exprs.size] ++ [] = List.range r.exprs.size
    rw [hmade.size, List.range_succ, List.append_nil, h.order]
  · rw [hexpr] at hi
    rcases Nat.lt_trichotomy x p.exprs.size with hlt | rfl | hgt
    · rw [hmade.keeps.inputs x hlt] at hi
      exact h.earlier x i hi
    · have hsource := List.mem_map_of_mem (f := (·.source)) hi
      rw [hmade.sources] at hsource
      exact (hin _ hsource).lt_size
    · rw [hbeyond x hgt] at hi
      exact h.earlier x i hi
  · show _ = r.loops.ids
    rw [hloops, h.ids]
  · rw [hexpr]
    have hx : x < p.exprs.size + 1 := hmade.size ▸ hx
    rcases Nat.lt_or_eq_of_le (Nat.le_of_lt_succ hx) with hlt | rfl
    · rw [Expr.loops_of_header (hmade.keeps.header x hlt), h.loops x hlt]
    · rw [Expr.loops_of_header hmade.header]
      rfl
  · show r.exprs.size = _
    rw [hmade.size, hspecs.size, List.length_append, List.length_singleton]
  · rw [hexpr]
    rcases getElem?_concat_cases hk with ⟨hlt, hk⟩ | ⟨rfl, rfl⟩
    · have hheader := hmade.keeps.header k (hspecs.size ▸ hlt)
      rw [Expr.role_of_header hheader, Expr.group_of_header hheader]
      exact hspecs.op k other hk
    · rw [← hspecs.size, Expr.role_of_header hmade.header, Expr.group_of_header hmade.header, ← hkind,
        ← hgroup]
      exact ⟨if_pos hrole, rfl⟩
  · rcases getElem?_concat_cases hk with ⟨hlt, hk⟩ | ⟨rfl, rfl⟩
    · obtain ⟨count, hcount, hvalues⟩ := hspecs.outputs k other hk
      refine ⟨count, hcount, fun n => Iff.trans ?_ (hvalues n)⟩
      refine (hmade.values ⟨k, n⟩).trans ?_
      rw [if_neg (Nat.ne_of_lt (hspecs.size ▸ hlt))]
    · refine ⟨op.outputs, houtputs, fun n => (hmade.values _).trans ?_⟩
      rw [if_pos hspecs.size.symm]
      exact Int.lt_toNat

/-- A position at which a named operation stands is the number of the operation. -/
theorem positionOf?_eq_some (horder : p.order = List.range p.exprs.size) (h : p.positionOf? name = some i) :
    i < p.exprs.size ∧ p.order[i]? = some i := by
  obtain ⟨x, _, hx⟩ := Option.bind_eq_some_iff.mp h
  obtain ⟨hlt, _⟩ := List.idxOf?_eq_some_iff.mp hx
  rw [horder, List.length_range] at hlt
  rw [horder, List.getElem?_range hlt]
  exact ⟨hlt, rfl⟩

/-- What a sound description of a loop says so far. -/
theorem loopRange_eq_ok (h : p.loopRange spec = .ok (first, last)) :
    (p.positionOf? spec.first = some first ∧ p.positionOf? spec.last = some last) ∧ first ≤ last ∧
      0 < spec.increment ∧ 0 ≤ spec.work := by
  unfold loopRange at h
  split at h
  · cases h
  · cases h
  · rename_i hfirst hlast
    obtain ⟨hle, h⟩ : ¬ _ ∧ _ := by
      split at h
      · cases h
      · exact ⟨‹_›, h⟩
    split at h
    · cases h
    · split at h
      · cases h
      · split at h
        · cases h
        · cases h
          exact ⟨⟨hfirst, hlast⟩, by omega, by omega, by omega⟩

/-- A port that a loop port names is of the right side, lies in the body and has a value. -/
theorem resolvePort_eq_ok (horder : p.order = List.range p.exprs.size) {port : PortSpec} {found : LoopPort}
    (h : p.resolvePort spec first last side port = .ok found) :
    (∃ ref, Reference.parse port.port = .ok ref ∧ p.positionOf? ref.name = some found.port.expr ∧
        ref.side = side ∧ found.port = ⟨found.port.expr, side, ref.index⟩) ∧
      (first ≤ found.port.expr ∧ found.port.expr ≤ last) ∧ ∃ v, p.value found.port = .ok v := by
  unfold resolvePort at h
  obtain ⟨ref, href, h⟩ := except_bind_eq_ok.mp h
  obtain ⟨hside, h⟩ := guard_eq_ok.mp h
  have hside := Decidable.not_not.mp hside
  dsimp only at h
  cases hposition : p.positionOf? ref.name with
  | none =>
    rw [hposition] at h
    cases h
  | some i =>
    rw [hposition] at h
    obtain ⟨_, hat⟩ := positionOf?_eq_some horder hposition
    by_cases hrange : first ≤ i ∧ i ≤ last
    · simp only [if_pos hrange, hat] at h
      cases side with
      | output =>
        obtain ⟨hlt, h⟩ := guard_eq_ok.mp h
        rw [except_pure_eq_ok] at h
        subst h
        refine ⟨⟨ref, mapError_eq_ok.mp href, hposition, hside, rfl⟩, hrange, ⟨i, ref.index⟩, ?_⟩
        exact value_eq_ok.mpr ⟨Int.natCast_nonneg _, .inl ⟨rfl, Nat.lt_of_not_le hlt, rfl⟩⟩
      | input =>
        obtain ⟨hlt, h⟩ := guard_eq_ok.mp h
        rw [except_pure_eq_ok] at h
        subst h
        have hinput := List.getElem?_eq_getElem (Nat.lt_of_not_le hlt)
        exact ⟨⟨ref, mapError_eq_ok.mp href, hposition, hside, rfl⟩, hrange, _,
          value_eq_ok.mpr ⟨Int.natCast_nonneg _, .inr ⟨rfl, _, hinput, rfl⟩⟩⟩
    · simp only [if_neg hrange] at h
      cases h

/-- What registering a described loop takes. -/
theorem addLoop_eq_ok (h : p.addLoop earlier spec = .ok q) :
    ∃ first last entries exits, p.loopRange spec = .ok (first, last) ∧
      (∀ other ∈ earlier, p.fitsBehind first last other = true) ∧
      spec.entries.mapM (p.resolvePort spec first last .input) = .ok entries ∧
      spec.exits.mapM (p.resolvePort spec first last .output) = .ok exits ∧
      q = (p.enclose first (last + 1)
        { work := spec.work, increment := spec.increment, entries, exits }).2 := by
  unfold addLoop at h
  obtain ⟨⟨first, last⟩, hrange, h⟩ := except_bind_eq_ok.mp h
  dsimp only at h
  cases hfind : earlier.find? fun other => !p.fitsBehind first last other with
  | some other =>
    rw [hfind] at h
    cases h
  | none =>
    rw [hfind] at h
    obtain ⟨entries, hentries, h⟩ := except_bind_eq_ok.mp h
    obtain ⟨exits, hexits, h⟩ := except_bind_eq_ok.mp h
    rw [except_pure_eq_ok] at h
    refine ⟨first, last, entries, exits, hrange, fun other hother => ?_, hentries, hexits, h.symm⟩
    simpa using List.find?_eq_none.mp hfind other hother

/-- The loops of a program are at the operations that their descriptions name. -/
def Aligned (p : Program) (ls : List ListedLoop) (specs : List LoopSpec) : Prop :=
  List.Forall₂ (fun l spec => p.positionOf? spec.first = some l.first ∧
    p.positionOf? spec.last = some l.last) ls specs

/-- A loop that fits behind the earlier ones lies inside them or apart from them. -/
theorem Aligned.admits (h : p.Aligned ls specs)
    (hfits : ∀ other ∈ specs, p.fitsBehind first last other = true) (id : LoopId) {a : ListedLoop}
    (ha : a ∈ ls) : a.Admits ⟨id, first, last⟩ := by
  induction h with
  | nil => cases ha
  | cons hl _ ih =>
    rcases List.mem_cons.mp ha with rfl | ha
    · have hfit := hfits _ List.mem_cons_self
      simp only [fitsBehind, hl.1, hl.2, decide_eq_true_eq] at hfit
      rw [ListedLoop.Admits, ListedLoop.isAround_iff]
      dsimp only
      omega
    · exact ih (fun other hother => hfits other (List.mem_cons_of_mem _ hother)) ha

end Program

/-- Whether a loop port is at a named operation. -/
def PortSpec.isAt (port : PortSpec) (name : Label) : Bool :=
  match Reference.parse port.port with
  | .ok ref => ref.name = name
  | .error _ => false

/-- Whether a loop is entered at its first operation and left at its last one. -/
def LoopSpec.isSnug (spec : LoopSpec) : Bool :=
  spec.entries.any (·.isAt spec.first) && spec.exits.any (·.isAt spec.last)

namespace Program

variable {q : Program}

/-- A port at the first or last operation of a loop is found there. -/
theorem exists_port_at (horder : p.order = List.range p.exprs.size) {specs : List PortSpec}
    {ports : List LoopPort} (h : specs.mapM (p.resolvePort spec first last side) = .ok ports)
    (hi : p.positionOf? name = some i) (hat : specs.any (·.isAt name) = true) :
    ∃ port ∈ ports, port.port.expr = i := by
  obtain ⟨port, hport, hat⟩ := List.any_eq_true.mp hat
  obtain ⟨found, hfound, hresolve⟩ := exists_mem_of_mapM h hport
  obtain ⟨⟨ref, href, hposition, _⟩, _⟩ := resolvePort_eq_ok horder hresolve
  rw [PortSpec.isAt, href] at hat
  rw [of_decide_eq_true hat, hi] at hposition
  exact ⟨found, hfound, (Option.some.inj hposition).symm⟩

/-- A program that lists the described loops. -/
structure Described (p : Program) (specs : List LoopSpec) (ls : List ListedLoop) : Prop where
  listed : p.Listed ls
  aligned : p.Aligned ls specs
  snug : (∀ spec ∈ specs, spec.isSnug = true) → p.Snug ls

/-- Registering a described loop. -/
theorem Described.addLoop (h : p.Described specs ls) (hadd : p.addLoop specs spec = .ok q) :
    ∃ l, q.Described (specs ++ [spec]) (ls ++ [l]) ∧ ∀ ops, p.Transcribes ops → q.Transcribes ops := by
  obtain ⟨first, last, entries, exits, hrange, hfits, hentries, hexits, rfl⟩ := addLoop_eq_ok hadd
  obtain ⟨⟨hfirst, hlast⟩, hle, hincrement, hwork⟩ := loopRange_eq_ok hrange
  have hlt := (positionOf?_eq_some h.listed.order hlast).1
  let loop : UnifiedLoop := { work := spec.work, increment := spec.increment, entries, exits }
  have henclosed := enclosed h.listed.order first hlt loop
  generalize (p.enclose first (last + 1) loop).2 = q at henclosed
  have hposition : ∀ name, q.positionOf? name = p.positionOf? name := by
    intro name
    have hindex : q.indexOf? = p.indexOf? := funext fun x => by rw [indexOf?, henclosed.order, indexOf?]
    rw [positionOf?, find?, henclosed.names, hindex, positionOf?, find?]
  have hsplittable : loop.Splittable := ⟨hwork, hincrement, fun iteration x hx => by
    cases iteration <;> cases hx⟩
  have hlisted := henclosed.listed h.listed hsplittable hle hlt
    (fun a ha => h.aligned.admits hfits _ ha) fun port hport => by
      rcases List.mem_append.mp hport with hport | hport
      · obtain ⟨_, _, hresolve⟩ := exists_of_mem_mapM hentries hport
        exact (resolvePort_eq_ok h.listed.order hresolve).2
      · obtain ⟨_, _, hresolve⟩ := exists_of_mem_mapM hexits hport
        exact (resolvePort_eq_ok h.listed.order hresolve).2
  refine ⟨_, ⟨hlisted, ?_, fun hsnug a ha info hinfo => ?_⟩, fun ops hops =>
    ⟨henclosed.size.trans hops.size, fun k op hk => by
      rw [henclosed.role, henclosed.group]
      exact hops.op k op hk, fun k op hk => by
      obtain ⟨count, hcount, hvalues⟩ := hops.outputs k op hk
      exact ⟨count, hcount, fun n => (henclosed.hasValue _).trans (hvalues n)⟩⟩⟩
  · refine List.rel_append ?_ (.cons ⟨?_, ?_⟩ .nil)
    · exact h.aligned.imp fun _ _ => by simp only [hposition]; exact id
    · rw [hposition, hfirst]
    · rw [hposition, hlast]
  · rw [henclosed.loops] at hinfo
    rcases List.mem_append.mp ha with ha | ha
    · obtain ⟨info', hinfo', _⟩ := h.listed.ports a ha
      rw [h.listed.pristine.loop_addUnified loop hinfo'] at hinfo
      cases hinfo
      exact h.snug (fun spec hspec => hsnug spec (List.mem_append_left _ hspec)) a ha info hinfo'
    · rw [List.mem_singleton.mp ha] at hinfo ⊢
      rw [h.listed.pristine.loop_addUnified_next loop] at hinfo
      cases hinfo
      have hspec := hsnug spec (List.mem_append_right _ List.mem_cons_self)
      rw [LoopSpec.isSnug, Bool.and_eq_true] at hspec
      exact ⟨exists_port_at h.listed.order hentries hfirst hspec.1,
        exists_port_at h.listed.order hexits hlast hspec.2⟩

end Program

/-! ### Whole subgraphs -/

/-- A kind that is not the kind of a marker gives no marker. -/
theorem Role.isLoopMarker_ofKind {kind : Label} (hbegin : kind ≠ "LoopBegin") (hend : kind ≠ "LoopEnd") :
    (Role.ofKind kind).isLoopMarker = false := by
  unfold Role.ofKind
  cases hword : kind.string? with
  | none => rfl
  | some word =>
    rw [Option.map_some, Option.getD_some]
    have hbegin : word ≠ "LoopBegin" := fun he => hbegin (he ▸ Label.ofString_of_string? hword).symm
    have hend : word ≠ "LoopEnd" := fun he => hend (he ▸ Label.ofString_of_string? hword).symm
    unfold Role.ofWord
    split <;> first | rfl | contradiction

/-- Without kinds of markers there are no markers. -/
theorem Program.Transcribes.unmarked {specs : List OpSpec} (h : p.Transcribes specs)
    (kinds : ∀ spec ∈ specs, spec.kind ≠ "LoopBegin" ∧ spec.kind ≠ "LoopEnd") : p.Unmarked := by
  intro x
  rcases Nat.lt_or_ge x specs.length with hlt | hge
  · rw [(h.op x _ (List.getElem?_eq_getElem hlt)).1]
    obtain ⟨hbegin, hend⟩ := kinds _ (List.getElem_mem hlt)
    exact Role.isLoopMarker_ofKind hbegin hend
  · rw [Program.expr_of_size_le (h.size ▸ hge)]
    rfl

theorem Role.ofKind_ne_unnamed (kind : Label) : Role.ofKind kind ≠ .unnamed := by
  unfold Role.ofKind
  cases kind.string? with
  | none => decide
  | some word =>
    rw [Option.map_some, Option.getD_some]
    unfold Role.ofWord
    split <;> decide

/-- Operations with the usual numbers of outputs are expressions with the usual numbers of outputs. -/
theorem Program.Transcribes.usualOutputs {specs : List OpSpec} (h : p.Transcribes specs)
    (usual : ∀ spec ∈ specs, outputCount spec = .ok (Role.ofKind spec.kind).usualOutputs) :
    p.UsualOutputs := by
  intro x hx
  have hspec := List.getElem?_eq_getElem (h.size ▸ hx)
  have hrole := (h.op x _ hspec).1
  obtain ⟨count, hcount, hvalues⟩ := h.outputs x _ hspec
  rw [usual _ (List.mem_of_getElem? hspec), Except.ok.injEq] at hcount
  rw [hrole]
  refine ⟨Role.ofKind_ne_unnamed _, fun k => ?_⟩
  rw [hvalues, ← hcount, Int.ofNat_lt]

/-- In a list without repetitions, what stands before an item has an earlier place. -/
theorem Program.ReadsEarlier.exists_place (h : p.ReadsEarlier) (nodup : p.order.Nodup) {x : ExprId}
    (hx : p.order[i]? = some x) {input : Input} (hinput : input ∈ (p.expr x).inputs) :
    ∃ j < i, p.order[j]? = some input.source.producer := by
  have hsub := h x (List.mem_of_getElem? hx) input hinput
  obtain ⟨before, behind, horder, hbefore, hbehind⟩ := List.cons_sublist_iff.mp hsub
  rw [horder] at nodup hx ⊢
  obtain ⟨j, hj⟩ := List.mem_iff_getElem?.mp hbefore
  have hjlt := (List.getElem?_eq_some_iff.mp hj).1
  refine ⟨j, Nat.lt_of_lt_of_le hjlt (Nat.le_of_not_lt fun hlt => ?_), ?_⟩
  · rw [List.getElem?_append_left hlt] at hx
    exact (List.nodup_append.mp nodup).2.2 x (List.mem_of_getElem? hx) x
      (List.singleton_sublist.mp hbehind) rfl
  · rw [List.getElem?_append_left hjlt, hj]

namespace Subgraph

open Program

variable {q : Program} {subgraph : Label}

/-- Operations that were added one after the other keep what adding each of them keeps. -/
theorem addOps_induction {P : List OpSpec → Program → Prop} {specs : List OpSpec} (start : P done p)
    (step : ∀ done spec p q, P done p → p.addOp spec = .ok q → P (done ++ [spec]) q)
    (h : addOps subgraph p place specs = .ok q) : P (done ++ specs) q := by
  induction specs generalizing p place done with
  | nil =>
    cases h
    rwa [List.append_nil]
  | cons spec specs ih =>
    rw [addOps] at h
    split at h
    · cases h
    · rename_i r hadd
      have := ih (step done spec p r start hadd) h
      rwa [List.append_assoc, List.singleton_append] at this

/-- Loops that were registered one after the other keep what registering each of them keeps. -/
theorem addLoops_induction {P : List LoopSpec → Program → Prop} (start : P earlier p)
    (step : ∀ earlier spec p q, P earlier p → p.addLoop earlier spec = .ok q → P (earlier ++ [spec]) q)
    (h : addLoops subgraph p earlier specs = .ok q) : P (earlier ++ specs) q := by
  induction specs generalizing p earlier with
  | nil =>
    cases h
    rwa [List.append_nil]
  | cons spec specs ih =>
    rw [addLoops] at h
    split at h
    · cases h
    · rename_i r hadd
      have := ih (step earlier spec p r start hadd) h
      rwa [List.append_assoc, List.singleton_append] at this

/-- Adding operations. -/
theorem addOps_listed {specs : List OpSpec} (h : addOps subgraph p place specs = .ok q)
    (listed : p.Listed []) (transcribes : p.Transcribes done) :
    q.Listed [] ∧ q.Transcribes (done ++ specs) := by
  refine addOps_induction (P := fun done p => p.Listed [] ∧ p.Transcribes done) ⟨listed, transcribes⟩
    (fun done spec p q hp hadd => ?_) h
  obtain ⟨hlisted, htranscribes⟩ := hp.1.addOp hadd
  exact ⟨hlisted, htranscribes done hp.2⟩

/-- Registering loops. -/
theorem addLoops_described {ops : List OpSpec} (h : addLoops subgraph p earlier specs = .ok q)
    (described : p.Described earlier ls) (transcribes : p.Transcribes ops) :
    (∃ ls, q.Described (earlier ++ specs) ls) ∧ q.Transcribes ops := by
  refine addLoops_induction (P := fun earlier p => (∃ ls, p.Described earlier ls) ∧ p.Transcribes ops)
    ⟨⟨ls, described⟩, transcribes⟩ ?_ h
  rintro earlier spec p q ⟨⟨ls, hdescribed⟩, hops⟩ hadd
  obtain ⟨l, hq, htranscribes⟩ := hdescribed.addLoop hadd
  exact ⟨⟨ls ++ [l], hq⟩, htranscribes ops hops⟩

/-- The program of a subgraph lists its loops and has its operations. -/
theorem build_eq_ok (h : sg.build = .ok p) : (∃ ls, p.Described sg.loops ls) ∧ p.Transcribes sg.ops := by
  obtain ⟨r, hops, hloops⟩ := except_bind_eq_ok.mp h
  have hempty : ({ name := sg.name, exprs := #[] } : Program).Transcribes [] :=
    ⟨rfl, fun _ _ hk => by simp at hk, fun _ _ hk => by simp at hk⟩
  obtain ⟨hlisted, htranscribes⟩ := addOps_listed hops (listed_empty sg.name) hempty
  exact addLoops_described hloops ⟨hlisted, .nil, fun _ l hl => absurd hl List.not_mem_nil⟩ htranscribes

/-- The program of a subgraph lists the loops of the subgraph. -/
theorem build_described (h : sg.build = .ok p) : ∃ ls, p.Described sg.loops ls ∧
    ((∀ op ∈ sg.ops, op.kind ≠ "LoopBegin" ∧ op.kind ≠ "LoopEnd") → p.Unmarked) := by
  obtain ⟨⟨ls, described⟩, transcribes⟩ := build_eq_ok h
  exact ⟨ls, described, transcribes.unmarked⟩

/-- Inserting markers realises the loops of a subgraph, if none of its operations is a marker and
every loop is entered at its first operation and left at its last one. Every loop gets one pair of
markers, the pairs are well nested, an expression lists the loops whose markers enclose it, the outermost
first, and what it reads stands before it. The operations themselves stay as they were. -/
theorem insertAllMarkers_wellNested {sg : Subgraph} {p : Program} (built : sg.build = .ok p)
    (kinds : ∀ op ∈ sg.ops, op.kind ≠ "LoopBegin" ∧ op.kind ≠ "LoopEnd")
    (snug : ∀ loop ∈ sg.loops, loop.isSnug = true) :
    ∃ q n, Edit.insertAllMarkers p = .ok () q ∧ q.WellNested n ∧
      ((n.spans q 0).map (·.loop)).Perm ((List.range sg.loops.length).map fun k : Nat => (k : LoopId)) ∧
      (∀ i x, q.order[i]? = some x →
        (q.expr x).loops = ((n.spans q 0).filter (·.encloses i)).map (·.loop) ∧
        ∀ input ∈ (q.expr x).inputs, ∃ j < i, q.order[j]? = some input.source.producer) ∧
      q.order.filter (fun x => !(q.expr x).role.isLoopMarker) = p.order ∧
      ∀ x ∈ p.order, (q.expr x).header = (p.expr x).header ∧ (q.expr x).inputs = (p.expr x).inputs := by
  obtain ⟨ls, described, hunmarked⟩ := build_described built
  have unmarked := hunmarked kinds
  obtain ⟨done, cs, q, hrun, hdone, hq⟩ := Marking.run described.listed unmarked (described.snug snug)
  have marked := hq.finish described.listed unmarked hdone
  have hids : p.loops.ids = (List.range sg.loops.length).map fun k : Nat => (k : LoopId) := by
    have hlength := congrArg List.length described.listed.pristine.ids
    rw [← described.listed.ids, List.length_map, List.length_map, List.length_range,
      described.aligned.length_eq] at hlength
    rw [described.listed.pristine.ids, hlength]
  refine ⟨q, _, hrun, marked.nested, hids ▸ marked.loops ▸ marked.marked, fun i x hx => ⟨?_, ?_⟩,
    marked.erased, fun x hx => ?_⟩
  · exact marked.nested.loops_eq hx
  · exact fun input hinput => marked.earlier.exists_place marked.pristine.tidy.nodup hx hinput
  · have hlt := described.listed.pristine.tidy.valid x hx
    exact ⟨marked.keeps.header x hlt, marked.keeps.inputs x hlt⟩

/-- The two loops of the grid copy share their first and their last operation. -/
theorem insertAllMarkers_wellNested_gridCopy : ∃ p q n, gridCopy.build = .ok p ∧
    Edit.insertAllMarkers p = .ok () q ∧ q.WellNested n ∧
      ((n.spans q 0).map (·.loop)).Perm [0, 1] := by
  have hbuilt : (gridCopy.build.toOption).isSome = true := by decide +kernel
  cases hp : gridCopy.build with
  | error e =>
    rw [hp] at hbuilt
    cases hbuilt
  | ok p =>
    obtain ⟨q, n, hrun, hnested, hloops, _⟩ :=
      insertAllMarkers_wellNested hp (by decide +kernel) (by decide +kernel)
    exact ⟨p, q, n, rfl, hrun, hnested, hloops⟩

end Subgraph

end TensorKernel
