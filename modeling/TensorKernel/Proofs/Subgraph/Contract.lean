import TensorKernel.Proofs.Subgraph.Build

/-!
# What a built program is like

The passes take for granted how the program of a subgraph is laid out. There is one expression per
operation, in the order of the operations and under their names. Every input is entered exactly once among
the uses of the value that it reads, and that value is produced earlier. The loops have the numbers of
their descriptions and lie inside each other or apart. An expression lists the loops whose ranges contain
it, and the ports of a loop are ports of operations in its range.
-/

namespace TensorKernel

open Outcome

variable {name : Label} {ls : List ListedLoop} {specs : List LoopSpec} {range : ListedLoop} {found : LoopPort}
  {spec : LoopSpec} {first k last : Nat} {port : PortSpec} {side : Side} {l : UnifiedLoop}

namespace Program

variable {p q : Program}

/-! ### Names -/

/-- There is one expression per name, and it is found under its name. -/
structure Named (p : Program) (names : List Label) : Prop where
  size : p.exprs.size = names.length
  name : ∀ (k : Nat) name, names[k]? = some name → (p.expr k).name = name
  table : p.names = names.zipIdx.reverse
  nodup : names.Nodup

/-- The name of an operation that was added was free. -/
theorem isUsed_of_addOp {spec : OpSpec} (h : p.addOp spec = .ok q) : p.isUsed spec.name = false :=
  (addOp_eq_ok_iff.mp h).1.2.2

/-- An operation that is added is found under its name. -/
theorem Named.addOp {names : List Label} (h : p.Named names) (pristine : p.Pristine) {spec : OpSpec}
    (hadd : p.addOp spec = .ok q) : q.Named (names ++ [spec.name]) := by
  have hfree := isUsed_of_addOp hadd
  obtain ⟨op, inputs, hloop, _, _, hin, rfl⟩ := addOp_eq_ok hadd
  have hmade := pristine.opMade spec.name op hin (.inl hloop)
  generalize (p.makeOp spec.name op inputs).2 = r at hmade
  have hname : (r.expr p.exprs.size).name = spec.name := Expr.name_of_header hmade.header
  have hnames : r.names = p.names := by rw [hmade.rest]
  refine ⟨?_, fun k name hk => ?_, ?_, ?_⟩
  · show r.exprs.size = _
    rw [hmade.size, h.size, List.length_append, List.length_singleton]
  · show (r.expr k).name = name
    rcases getElem?_concat_cases hk with ⟨hlt, hk⟩ | ⟨rfl, rfl⟩
    · rw [Expr.name_of_header (hmade.keeps.header k (h.size ▸ hlt)), h.name k name hk]
    · exact h.size ▸ hname
  · show (r.enterNames [p.exprs.size]).names = _
    rw [enterNames, List.map_singleton, List.reverse_singleton, hname, hnames, h.table, h.size,
      List.zipIdx_append, List.reverse_append]
    simp
  · refine List.nodup_append.mpr ⟨h.nodup, List.nodup_singleton _, fun a ha b hb => ?_⟩
    rintro rfl
    rw [List.mem_singleton.mp hb] at ha
    have hused : p.isUsed spec.name = true := by
      rw [isUsed_iff, h.table, List.map_reverse, List.mem_reverse, List.zipIdx_map_fst]
      exact ha
    rw [hfree] at hused
    cases hused

theorem named_empty (name : Label) : ({ name } : Program).Named (([] : List OpSpec).map (·.name)) :=
  ⟨rfl, fun _ _ hk => absurd hk (by simp), rfl, .nil⟩

/-- An operation is found at the place of its name. -/
theorem Named.find?_eq_some {names : List Label} (h : p.Named names) {x : ExprId}
    (hx : p.find? name = some x) : names[x]? = some name := by
  rw [find?, h.table] at hx
  obtain ⟨before, behind, hlist, _⟩ := List.lookup_eq_some_iff.mp hx
  have hmem : (name, x) ∈ names.zipIdx := List.mem_reverse.mp (by rw [hlist]; simp)
  exact List.mem_zipIdx_iff_getElem?.mp hmem

/-- A position at which a named operation stands is the place of its name. -/
theorem Named.positionOf?_eq_some {names : List Label} (h : p.Named names)
    (horder : p.order = List.range p.exprs.size) (hk : p.positionOf? name = some k) :
    names[k]? = some name := by
  obtain ⟨x, hx, hplace⟩ := Option.bind_eq_some_iff.mp hk
  have hsame : k = x := by
    obtain ⟨hlt, hget, _⟩ := List.idxOf?_eq_some_iff.mp hplace
    simpa only [horder, List.getElem_range] using hget
  rw [hsame]
  exact h.find?_eq_some hx

theorem Named.idxOf_eq {names : List Label} (h : p.Named names) (hk : names[k]? = some name) :
    names.idxOf name = k := by
  obtain ⟨hlt, rfl⟩ := List.getElem?_eq_some_iff.mp hk
  exact h.nodup.idxOf_getElem k hlt

/-! ### Uses -/

/-- Every use of a value is entered once. -/
def UsedOnce (p : Program) : Prop := ∀ v, (p.uses v).Nodup

/-- An operation that is added enters its uses once. -/
theorem UsedOnce.addOp (h : p.UsedOnce) (pristine : p.Pristine) {spec : OpSpec}
    (hadd : p.addOp spec = .ok q) : q.UsedOnce := by
  obtain ⟨op, inputs, _, _, _, hin, rfl⟩ := addOp_eq_ok hadd
  intro v
  have huses : (p.makeOp spec.name op inputs).2.uses v = _ :=
    uses_make (p.unused_makeOp spec.name op inputs) (fun i hi => by
      obtain ⟨v, hv, rfl⟩ := List.mem_map.mp hi
      exact hin v hv) v
  change ((p.makeOp spec.name op inputs).2.uses v).Nodup
  rw [huses]
  refine List.nodup_append.mpr ⟨h v, nodup_usesBy .., fun a ha b hb hab => ?_⟩
  have hlt := pristine.wired.consumer_lt_size ha
  rw [hab, (mem_usesBy.mp hb).1] at hlt
  exact Nat.lt_irrefl _ hlt

/-- Registering a loop enters no use. -/
theorem Enclosed.usedOnce (henclosed : p.Enclosed first last l q) (h : p.UsedOnce) : q.UsedOnce := by
  have houtput : ∀ v, q.output? v = p.output? v := fun v => by rw [output?, henclosed.outputs, output?]
  intro v
  rw [uses_of_output? houtput]
  exact h v

/-! ### Loops -/

/-- The number of ports of an expression. -/
def portCount (p : Program) (x : ExprId) : Side → Nat
  | .input => (p.expr x).inputs.length
  | .output => (p.expr x).outputs.length

/-- A port of a loop is the described one: a port of the given side, of an operation in its range. -/
structure Resolved (p : Program) (range : ListedLoop) (side : Side) (spec : PortSpec) (port : LoopPort) :
    Prop where
  sided : port.port.side = side
  covered : range.covers port.port.expr = true
  exists_port : 0 ≤ port.port.index ∧ port.port.index < p.portCount port.port.expr side
  named : Reference.parse spec.port =
    .ok ⟨(p.expr port.port.expr).name, side, port.port.index.toNat⟩

/-- A loop is registered as described. -/
def HasLoop (p : Program) (range : ListedLoop) (spec : LoopSpec) : Prop :=
  ∃ loop : UnifiedLoop, p.loops.loop range.id = .ok (.unified loop) ∧
    loop.work = spec.work ∧ loop.increment = spec.increment ∧
    List.Forall₂ (p.Resolved range .input) spec.entries loop.entries ∧
    List.Forall₂ (p.Resolved range .output) spec.exits loop.exits

/-- A port that is found is the described one. -/
theorem Named.resolved {names : List Label} (h : p.Named names) (horder : p.order = List.range p.exprs.size)
    (hport : p.resolvePort spec range.first range.last side port = .ok found) :
    p.Resolved range side port found := by
  obtain ⟨⟨ref, href, hposition, hside, hfound⟩, hrange, v, hv⟩ := resolvePort_eq_ok horder hport
  have hname := h.name _ _ (h.positionOf?_eq_some horder hposition)
  have hindex : found.port.index = ref.index := by rw [hfound]
  have hfoundSide : found.port.side = side := by rw [hfound]
  refine ⟨hfoundSide, ListedLoop.covers_iff.mpr hrange, ?_, ?_⟩
  · obtain ⟨hle, ⟨hout, hvalue, _⟩ | ⟨hin, i, hi, _⟩⟩ := value_eq_ok.mp hv
    · rw [← hfoundSide, hout]
      exact ⟨hle, (Int.toNat_lt hle).mp hvalue⟩
    · rw [← hfoundSide, hin]
      exact ⟨hle, (Int.toNat_lt hle).mp (List.getElem?_eq_some_iff.mp hi).1⟩
  · rw [href, hname, hindex, Int.toNat_natCast, ← hside]

/-- The ports that are found are the described ones. -/
theorem Named.forall₂_resolved {names : List Label} (h : p.Named names)
    (horder : p.order = List.range p.exprs.size) {ports : List PortSpec} {found : List LoopPort}
    (hports : ports.mapM (p.resolvePort spec range.first range.last side) = .ok found) :
    List.Forall₂ (p.Resolved range side) ports found := by
  induction ports generalizing found with
  | nil =>
    rw [List.mapM_nil, except_pure_eq_ok] at hports
    rw [← hports]
    exact .nil
  | cons port ports ih =>
    rw [List.mapM_cons] at hports
    obtain ⟨first, hfirst, hports⟩ := except_bind_eq_ok.mp hports
    obtain ⟨rest, hrest, hports⟩ := except_bind_eq_ok.mp hports
    rw [except_pure_eq_ok] at hports
    rw [← hports]
    exact .cons (h.resolved horder hfirst) (ih hrest)

/-- Registering a loop moves no port. -/
theorem Enclosed.resolved (henclosed : p.Enclosed first last l q) (h : p.Resolved range side port found) :
    q.Resolved range side port found := by
  obtain ⟨loops, hexpr⟩ := henclosed.expr_loops found.port.expr
  have hcount : q.portCount found.port.expr side = p.portCount found.port.expr side := by
    cases side <;> simp only [portCount, hexpr]
  exact ⟨h.sided, h.covered, hcount ▸ h.exists_port, by rw [hexpr]; exact h.named⟩

theorem Enclosed.hasLoop (henclosed : p.Enclosed first last l q) (pristine : p.Pristine)
    (h : p.HasLoop range spec) : q.HasLoop range spec := by
  obtain ⟨loop, hloop, hwork, hincrement, hentries, hexits⟩ := h
  exact ⟨loop, henclosed.loops ▸ pristine.loop_addUnified l hloop, hwork, hincrement,
    hentries.imp fun _ _ => henclosed.resolved, hexits.imp fun _ _ => henclosed.resolved⟩

/-- Loops are numbered in the order in which they are described. -/
theorem Described.next_eq (h : p.Described specs ls) : p.loops.next = specs.length := by
  have hlength := congrArg List.length h.listed.pristine.ids
  rw [← h.listed.ids, List.length_map, List.length_map, List.length_range, h.aligned.length_eq] at hlength
  exact hlength.symm

end Program

/-- The range of a loop whose operations have the given names. -/
def LoopSpec.rangeIn (spec : LoopSpec) (names : List Label) (id : Nat) : ListedLoop :=
  ⟨id, names.idxOf spec.first, names.idxOf spec.last⟩

namespace Program

variable {p q : Program} {names : List Label}

/-- The described loops are registered under their numbers. -/
def HasLoops (p : Program) (names : List Label) (specs : List LoopSpec) : Prop :=
  ∀ (j : Nat) spec, specs[j]? = some spec → p.HasLoop (spec.rangeIn names j) spec

/-- What is registered when a loop is added. -/
theorem HasLoops.addLoop (h : p.HasLoops names specs) (described : p.Described specs ls)
    (named : p.Named names) (once : p.UsedOnce) (hadd : p.addLoop specs spec = .ok q) :
    q.HasLoops names (specs ++ [spec]) ∧ q.Named names ∧ q.UsedOnce := by
  obtain ⟨first, last, entries, exits, hrange, _, hentries, hexits, rfl⟩ := addLoop_eq_ok hadd
  obtain ⟨⟨hfirst, hlast⟩, _⟩ := loopRange_eq_ok hrange
  have horder := described.listed.order
  have hlt := (positionOf?_eq_some horder hlast).1
  let loop : UnifiedLoop := { work := spec.work, increment := spec.increment, entries, exits }
  have henclosed := enclosed horder first hlt loop
  generalize (p.enclose first (last + 1) loop).2 = q at henclosed
  have hplaces : spec.rangeIn names specs.length = ⟨specs.length, first, last⟩ := by
    rw [LoopSpec.rangeIn, named.idxOf_eq (named.positionOf?_eq_some horder hfirst),
      named.idxOf_eq (named.positionOf?_eq_some horder hlast)]
  refine ⟨fun j other hj => ?_, ⟨henclosed.size.trans named.size, fun k name hk => ?_,
    henclosed.names.trans named.table, named.nodup⟩, henclosed.usedOnce once⟩
  · rcases getElem?_concat_cases hj with ⟨_, hj⟩ | ⟨rfl, rfl⟩
    · exact henclosed.hasLoop described.listed.pristine (h j other hj)
    · rw [hplaces]
      refine ⟨loop, ?_, rfl, rfl, ?_, ?_⟩
      · rw [henclosed.loops, ← described.next_eq]
        exact described.listed.pristine.loop_addUnified_next loop
      · have hfound : List.Forall₂ (p.Resolved ⟨specs.length, first, last⟩ .input) spec.entries entries :=
          named.forall₂_resolved horder hentries
        exact hfound.imp fun _ _ => henclosed.resolved
      · have hfound : List.Forall₂ (p.Resolved ⟨specs.length, first, last⟩ .output) spec.exits exits :=
          named.forall₂_resolved horder hexits
        exact hfound.imp fun _ _ => henclosed.resolved
  · obtain ⟨loops, hexpr⟩ := henclosed.expr_loops k
    rw [hexpr]
    exact named.name k name hk

/-- The loops of a program are in the ranges that their descriptions give. -/
theorem Described.eq_ranges (h : p.Described specs ls) (named : p.Named names) :
    ls = specs.zipIdx.map fun (spec, j) => spec.rangeIn names j := by
  have hlength := h.aligned.length_eq
  refine List.ext_getElem (by simp [hlength]) fun j hj hj' => ?_
  have hspec : j < specs.length := hlength ▸ hj
  obtain ⟨hfirst, hlast⟩ : p.positionOf? specs[j].first = some ls[j].first ∧
      p.positionOf? specs[j].last = some ls[j].last :=
    (List.forall₂_iff_get.mp h.aligned).2 j hj hspec
  have hid : ls[j].id = j := by
    have hids := h.listed.ids.trans h.listed.pristine.ids
    have hget := congrArg (·[j]?) hids
    rw [h.next_eq] at hget
    simpa [hj, hspec] using hget
  have hplace : ∀ name k, p.positionOf? name = some k → names.idxOf name = k := fun _ _ hk =>
    named.idxOf_eq (named.positionOf?_eq_some h.listed.order hk)
  calc ls[j] = specs[j].rangeIn names j := by
        rw [LoopSpec.rangeIn, hplace _ _ hfirst, hplace _ _ hlast, ← hid]
    _ = _ := by simp

end Program

namespace Subgraph

open Program

/-- The names of the operations. -/
def names (sg : Subgraph) : List Label := sg.ops.map (·.name)

/-- The loops with their numbers and with the places of their first and last operations. -/
def ranges (sg : Subgraph) : List ListedLoop :=
  sg.loops.zipIdx.map fun (spec, j) => spec.rangeIn sg.names j

/-- What the passes take for granted about the program of a subgraph. -/
structure BuiltAs (sg : Subgraph) (p : Program) : Prop where
  /-- There is one expression per operation, in their order and under their names. -/
  names : p.list.map (·.name) = sg.names
  /-- The names are different. -/
  different : (p.list.map (·.name)).Nodup
  /-- An input is entered once among the uses of the value that it reads, and not among those of
  others. -/
  uses : ∀ x k v, (p.uses v).count ⟨x, k⟩ =
    if ((p.expr x).inputs[k]?).map (·.source) = some v then 1 else 0
  /-- What is read is produced at an earlier position. -/
  earlier : ∀ (i : Nat) x, p.order[i]? = some x → ∀ input ∈ (p.expr x).inputs,
    ∃ j < i, p.order[j]? = some input.source.producer
  /-- The loops have the numbers of their descriptions. -/
  ids : p.loops.ids = (List.range sg.loops.length).map fun j : Nat => (j : LoopId)
  /-- Their ranges are ranges of operations. -/
  inside : ∀ l ∈ sg.ranges, l.first ≤ l.last ∧ l.last < sg.ops.length
  /-- Of two ranges the later one lies inside the earlier one or apart from it. -/
  nested : sg.ranges.Pairwise fun a b =>
    (a.first ≤ b.first ∧ b.last ≤ a.last) ∨ b.last < a.first ∨ a.last < b.first
  /-- An expression lists the loops whose ranges contain it. -/
  loops : ∀ (i : Nat) x, p.order[i]? = some x →
    (p.expr x).loops = (sg.ranges.filter (·.covers i)).map (·.id)
  /-- Of these ranges the earlier ones contain the later ones. -/
  chain : ∀ i, (sg.ranges.filter (·.covers i)).Pairwise fun a b => a.first ≤ b.first ∧ b.last ≤ a.last
  /-- A loop is registered as described; its entries are inputs, and its exits outputs, of operations in
  its range. -/
  ports : ∀ (j : Nat) spec, sg.loops[j]? = some spec → p.HasLoop (spec.rangeIn sg.names j) spec

/-- A built program has the names, uses and loops that were described. -/
theorem build_named {sg : Subgraph} {p : Program} (built : sg.build = .ok p) :
    ∃ ls, p.Described sg.loops ls ∧ p.Named sg.names ∧ p.UsedOnce ∧ p.HasLoops sg.names sg.loops := by
  obtain ⟨r, hops, hloops⟩ := except_bind_eq_ok.mp built
  obtain ⟨hlisted, hnamed, honce⟩ : r.Listed [] ∧ r.Named sg.names ∧ r.UsedOnce := by
    refine addOps_induction (P := fun done p => p.Listed [] ∧ p.Named (done.map (·.name)) ∧ p.UsedOnce)
      ⟨listed_empty sg.name, named_empty sg.name, fun _ => .nil⟩ ?_ hops
    rintro done spec p q ⟨hlisted, hnamed, honce⟩ hadd
    rw [List.map_append]
    exact ⟨(hlisted.addOp hadd).1, hnamed.addOp hlisted.pristine hadd,
      honce.addOp hlisted.pristine hadd⟩
  refine addLoops_induction (P := fun earlier p => ∃ ls, p.Described earlier ls ∧ p.Named sg.names ∧
    p.UsedOnce ∧ p.HasLoops sg.names earlier) ⟨[], ⟨hlisted, .nil, fun _ l hl => ?_⟩, hnamed, honce,
      fun j spec hj => ?_⟩ ?_ hloops
  · exact absurd hl List.not_mem_nil
  · exact absurd hj (by simp)
  · rintro earlier spec p q ⟨ls, hdescribed, hnamed, honce, hhas⟩ hadd
    obtain ⟨l, hq, _⟩ := hdescribed.addLoop hadd
    obtain ⟨hloops, hnames, huses⟩ := hhas.addLoop hdescribed hnamed honce hadd
    exact ⟨ls ++ [l], hq, hnames, huses, hloops⟩

/-- **Building a subgraph establishes what the passes take for granted.** -/
theorem build_contract {sg : Subgraph} {p : Program} (built : sg.build = .ok p) : sg.BuiltAs p := by
  obtain ⟨ls, described, named, once, hloops⟩ := build_named built
  have listed := described.listed
  obtain rfl : ls = sg.ranges := described.eq_ranges named
  have hsize : p.exprs.size = sg.ops.length := by rw [named.size, Subgraph.names, List.length_map]
  have hplace : ∀ {i x : Nat}, p.order[i]? = some x → x = i ∧ i < p.exprs.size := by
    intro i x hx
    rw [listed.order] at hx
    obtain ⟨hlt, rfl⟩ := List.getElem?_eq_some_iff.mp hx
    exact ⟨List.getElem_range .., by simpa using hlt⟩
  have hlist : p.list.map (·.name) = sg.names := by
    refine List.ext_getElem ?_ fun k hk hk' => ?_
    · rw [list, List.map_map, List.length_map, listed.order, List.length_range, named.size]
    · simp only [list, List.getElem_map, listed.order, List.getElem_range]
      exact named.name k _ (List.getElem?_eq_getElem hk')
  refine ⟨hlist, hlist ▸ named.nodup, fun x k v => ?_, fun i x hx input hinput => ?_, ?_,
    fun l hl => hsize ▸ listed.inside l hl, listed.nested.imp fun hab => ?_, fun i x hx => ?_,
    fun i => ?_, hloops⟩
  · have hlinked := listed.pristine.wired.linked x k v
    split
    · rename_i hread
      exact List.count_eq_one_of_mem (once v) (hlinked.mp hread)
    · rename_i hread
      exact List.count_eq_zero_of_not_mem fun hmem => hread (hlinked.mpr hmem)
  · obtain ⟨rfl, hlt⟩ := hplace hx
    have hproducer := listed.earlier x input hinput
    refine ⟨input.source.producer, hproducer, ?_⟩
    rw [listed.order, List.getElem?_range (Nat.lt_trans hproducer hlt)]
  · rw [listed.pristine.ids, described.next_eq]
  · rwa [ListedLoop.Admits, ListedLoop.isAround_iff] at hab
  · obtain ⟨rfl, hlt⟩ := hplace hx
    exact listed.loops x hlt
  · refine (listed.nested.filter _).imp_of_mem fun {a b} ha hb hab => ?_
    exact ListedLoop.isAround_iff.mp
      (hab.isAround (List.mem_filter.mp ha).2 (List.mem_filter.mp hb).2)

/-- Squares in a loop over two loops behind each other: one loads and squares, the other one stores. -/
def tiledSquare : Subgraph where
  name := "square"
  ops := [
    { name := "source", kind := "Parameter", shape := some [5, 5] },
    { name := "load", kind := "Load", inputs := ["source"] },
    { name := "square", kind := "Mul", inputs := ["load", "load"] },
    { name := "store", kind := "Store", inputs := ["square"] },
    { name := "target", kind := "Result", inputs := ["store"] }]
  loops := [
    { first := "load", last := "store", work := 5, increment := 4, dim := 1
      entries := [{ port := "load.in0" }], exits := [{ port := "store" }] },
    { first := "load", last := "square", work := 5, increment := 4, dim := 0
      entries := [{ port := "load.in0" }], exits := [{ port := "square" }] },
    { first := "store", last := "store", work := 5, increment := 4, dim := 0
      entries := [{ port := "store.in0" }], exits := [{ port := "store" }] }]

theorem build_contract_tiledSquare : ∃ p, tiledSquare.build = .ok p ∧ tiledSquare.BuiltAs p ∧
    (p.uses ⟨1, 0⟩).count ⟨2, 1⟩ = 1 ∧ (p.expr 2).loops = [0, 1] ∧ (p.expr 3).loops = [0, 2] := by
  have hbuilt : (tiledSquare.build.toOption.any fun p => p.order = [0, 1, 2, 3, 4] &&
      (p.expr 2).inputs[1]?.map (·.source) = some ⟨1, 0⟩) = true := by decide +kernel
  cases hp : tiledSquare.build with
  | error e =>
    rw [hp] at hbuilt
    cases hbuilt
  | ok p =>
    rw [hp] at hbuilt
    obtain ⟨horder, hread⟩ : p.order = [0, 1, 2, 3, 4] ∧
        (p.expr 2).inputs[1]?.map (·.source) = some ⟨1, 0⟩ := by
      simpa [Except.toOption] using hbuilt
    have hcontract := build_contract hp
    have huse := hcontract.uses 2 1 ⟨1, 0⟩
    rw [if_pos hread] at huse
    refine ⟨p, rfl, hcontract, huse, ?_, ?_⟩
    · rw [hcontract.loops 2 2 (by simp [horder])]
      decide +kernel
    · rw [hcontract.loops 3 3 (by simp [horder])]
      decide +kernel

end Subgraph

end TensorKernel
