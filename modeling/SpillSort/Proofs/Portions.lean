import SpillSort.Proofs.Phases
import SpillSort.Proofs.Hearing
import SpillSort.Proofs.Outputs

/-!
# Outputs in portions

A sort hands its rows out in portions of one size: all of them are full but the last one.

* A `Route` is the way the rows take out of a sort: windows of a merge in memory, or chunks of merged
  streams. `Route.Gave` says what came out on it.
-/

namespace SpillSort

open Memory Spill
open Workspace (Calm)

/-! ## What came out -/

/-- The entries of a window. -/
def Output.entries : Output → List UInt32
  | .rows _ => []
  | .window v => v.entries.toList

/-- How the rows come out of a sort. -/
inductive Route where
  /-- As windows of a merge in memory. -/
  | memory (m : MemoryMerge)
  /-- As chunks of merged streams. -/
  | streams

namespace Route

variable {options : SortOptions} {order : RowOrder} {route : Route} {served : Nat} {os : List Output}
  {o : Output}

/-- The rows of a full output. -/
def size (options : SortOptions) (order : RowOrder) : Route → Nat
  | memory _ => options.outputRows
  | streams => options.chunkRows order

/-- A route begins with a merge in memory that was just built, if there is one. -/
def Made (options : SortOptions) (order : RowOrder) : Route → Prop
  | memory m => m.position = 0 ∧ ∃ tracker groups w w',
      Stateful.outcome (MemoryMerge.build order tracker options.maxInMemory groups).run w =
        (.ok (.merged m), w')
  | streams => True

/-- The stage of a sort that has handed out a number of rows on its route. -/
def At (options : SortOptions) (order : RowOrder) (served : Nat) : Route → Stage → Prop
  | memory m, stage => stage = .finalMemory { m with position := served }
  | streams, stage => ∃ merger, stage = .finalMerge merger (options.chunkRows order)

theorem size_pos (hv : 0 < options.outputRows) (order : RowOrder) (route : Route) :
    0 < route.size options order := by
  cases route with
  | memory => exact hv
  | streams =>
    rw [size, SortOptions.chunkRows, chunkRows]
    omega

theorem size_le (hv : 0 < options.outputRows) (order : RowOrder) (route : Route) :
    route.size options order ≤ options.outputRows := by
  cases route with
  | memory => exact Nat.le_refl _
  | streams =>
    have hle := options.chunkRows_le order
    rw [size]
    omega

/-- A merge in memory has all rows of the sort. -/
def Covers (rows : Nat) : Route → Prop
  | memory m => m.totalRows = rows
  | streams => True

/-- An output that comes out behind a number of rows. -/
def Hands (served : Nat) (o : Output) : Route → Prop
  | memory m => o = .window ⟨m.batches, m.selection.window served o.length, m.lease⟩
  | streams => ∃ b, o = .rows b

/-- Windows are over the batches of the merge, and have the entries of its selection one after the
other; chunks have rows of their own. -/
def Yields (os : List Output) : Route → Prop
  | memory m => (∀ o ∈ os, ∃ v, o = .window v ∧ v.batches = m.batches ∧ v.lease = m.lease) ∧
      os.flatMap Output.entries = m.selection.entries.toList.take (total (os.map Output.length))
  | streams => ∀ o ∈ os, ∃ b, o = .rows b

/-- The windows have all entries of the selection. -/
def Whole (os : List Output) : Route → Prop
  | memory m => os.flatMap Output.entries = m.selection.entries.toList
  | streams => True

/-- What came out on a route: full outputs under the order of the sort, of which only the last one
may fall short. -/
structure Gave (options : SortOptions) (order : RowOrder) (route : Route) (os : List Output) :
    Prop where
  cut : os.map Output.length = portions (route.size options order) (total (os.map Output.length))
  schema : ∀ o ∈ os, o.schema = order.schema
  yields : route.Yields os

theorem Gave.nil (options : SortOptions) (order : RowOrder) (route : Route) :
    route.Gave options order [] := by
  refine ⟨(portions_zero _).symm, fun o ho => absurd ho List.not_mem_nil, ?_⟩
  cases route with
  | memory m => exact ⟨fun o ho => absurd ho List.not_mem_nil, rfl⟩
  | streams => exact fun o ho => absurd ho List.not_mem_nil

/-- The next output joins the ones before it. -/
theorem Yields.snoc (h : route.Yields os) (ho : route.Hands (total (os.map Output.length)) o) :
    route.Yields (os ++ [o]) := by
  cases route with
  | streams =>
    intro o' ho'
    rcases List.mem_append.mp ho' with ho' | ho'
    · exact h o' ho'
    · exact List.mem_singleton.mp ho' ▸ ho
  | memory m =>
    obtain ⟨hover, hentries⟩ := h
    have ho : o = .window ⟨m.batches, m.selection.window _ o.length, m.lease⟩ := ho
    refine ⟨fun o' ho' => ?_, ?_⟩
    · rcases List.mem_append.mp ho' with ho' | ho'
      · exact hover o' ho'
      · rw [List.mem_singleton.mp ho', ho]
        exact ⟨_, rfl, rfl, rfl⟩
    · have hlast : o.entries =
          (m.selection.entries.toList.drop (total (os.map Output.length))).take o.length := by
        conv_lhs => rw [ho]
        simp [Output.entries, GlobalSelection.window]
      rw [List.flatMap_append, hentries, List.flatMap_singleton, hlast, List.map_append, total_append,
        List.map_singleton, total_cons, total_nil, Nat.add_zero, List.take_add]

theorem Gave.snoc (h : route.Gave options order os)
    (hfull : route.size options order ∣ total (os.map Output.length)) (hpos : 0 < o.length)
    (hle : o.length ≤ route.size options order) (hschema : o.schema = order.schema)
    (ho : route.Hands (total (os.map Output.length)) o) : route.Gave options order (os ++ [o]) := by
  refine ⟨?_, ?_, h.yields.snoc ho⟩
  · rw [List.map_append, List.map_singleton, total_append, total_cons, total_nil, Nat.add_zero,
      portions_add hfull hpos hle, ← h.cut]
  · intro o' ho'
    rcases List.mem_append.mp ho' with ho' | ho'
    · exact h.schema o' ho'
    · exact List.mem_singleton.mp ho' ▸ hschema

/-- Each output has some rows, and no more than a full one. -/
theorem Gave.bounds (h : route.Gave options order os) (hv : 0 < options.outputRows) (ho : o ∈ os) :
    0 < o.length ∧ o.length ≤ options.outputRows := by
  have hmem : o.length ∈ portions (route.size options order) (total (os.map Output.length)) :=
    h.cut ▸ List.mem_map_of_mem ho
  obtain ⟨hpos, hle⟩ := mem_portions (size_pos hv order route) hmem
  exact ⟨hpos, hle.trans (size_le hv order route)⟩

/-- There are as many outputs as the rows take. -/
theorem Gave.length_outputs (h : route.Gave options order os) (hv : 0 < options.outputRows) :
    os.length = (total (os.map Output.length) + route.size options order - 1) /
      route.size options order := by
  have hlength := congrArg List.length h.cut
  rwa [List.length_map, length_portions (size_pos hv order route)] at hlength

/-- Outputs with all rows leave out no entry. -/
theorem Gave.whole (h : route.Gave options order os)
    (hc : route.Covers (total (os.map Output.length))) : route.Whole os := by
  cases route with
  | streams => trivial
  | memory m =>
    obtain ⟨-, hentries⟩ := h.yields
    have hc : m.selection.entries.size = total (os.map Output.length) := hc
    rw [Whole, hentries, ← hc, ← Array.length_toList, List.take_length]

end Route

namespace MemoryMerge

/-- A merge begins at its first row. -/
theorem build_position {order : RowOrder} {tracker : TrackerId} {maxBytes : Nat}
    {groups : List SortedGroup} {w : Workspace} :
    Gives (build order tracker maxBytes groups) (fun a _ => ∀ m, a = .merged m → m.position = 0)
      (fun _ _ => True) w := by
  refine gives_build (R := fun _ _ => True) (fun _ _ _ _ h => by cases h) (fun _ _ h => by cases h)
    (fun _ _ h => by cases h) (fun _ => .of_forall fun _ _ => trivial)
    (fun _ _ _ _ h => by cases h) fun _ selection aux v _ => .of_forall fun _ _ => ?_
  split
  · exact .of_forall fun _ _ => trivial
  · exact .of_forall fun _ _ _ hm => Attempt.merged.inj hm ▸ rfl

end MemoryMerge

namespace Operator

variable {op first : Operator} {w : Workspace} {s t : Operator × Workspace} {order : RowOrder}
  {route : Route} {E : Surroundings} {S U : Resources} {script : List Pull} {all : List Batch}
  {given left : List Row}

/-! ## The final merge -/

/-- The final merge a sort goes on with when its input has ended, if there is anything to merge. -/
def Routed (op : Operator) (stage : Stage) : Prop :=
  stage = .done ∨ ∃ order route, op.order? = some order ∧ Route.Made op.options order route ∧
    route.At op.options order 0 stage

theorem mergeStreams_routed (order : RowOrder) (groups : List SortedGroup) :
    Gives (mergeStreams order groups)
      (fun _ t => ∃ merger, t.1 = { s.1 with stage := .finalMerge merger (s.1.options.chunkRows order) })
      (fun _ t => t.1 = s.1) s := by
  refine gives_mergeStreams fun journal => Gives.of_outcome.mono (fun merger w _ => ?_)
    fun _ _ _ => rfl
  exact (enter_moves (r := Calm) _).mono fun _ t ht => ⟨merger, ht.1⟩

/-- Finalizing changes only the groups and the stage. -/
theorem finalize_routed : Gives finalize
    (fun _ t => t.1.bare = { s.1.bare with stage := t.1.stage } ∧ s.1.Routed t.1.stage)
    (fun _ t => t.1.bare = s.1.bare) s := by
  have hstreams : ∀ {op : Operator} {w : Workspace} (order : RowOrder) (groups : List SortedGroup),
      op.bare = s.1.bare → s.1.order? = some order → Gives (mergeStreams order groups)
        (fun _ t => t.1.bare = { s.1.bare with stage := t.1.stage } ∧ s.1.Routed t.1.stage)
        (fun _ t => t.1.bare = s.1.bare) (op, w) := by
    intro op w order groups hop ho
    refine (mergeStreams_routed order groups).mono (fun _ t ht => ?_) fun _ t ht => ht ▸ hop
    obtain ⟨merger, ht⟩ := ht
    have hoptions : op.options = s.1.options := (congrArg Operator.options hop :)
    refine ⟨?_, .inr ⟨order, .streams, ho, trivial, merger, ?_⟩⟩
    · rw [ht]
      exact congrArg (fun op' : Operator =>
        { op' with stage := .finalMerge merger (op.options.chunkRows order) }) hop
    · rw [ht, hoptions]
  refine gives_finalize (fun _ => ?_) (fun _ _ => rfl) (fun order _ ho _ => ?_)
    fun order _ ho _ => hstreams order _ rfl ho
  · refine (enter_moves (r := Calm) _).mono fun _ t ht => ?_
    rw [ht.1]
    exact ⟨rfl, .inl rfl⟩
  · refine (Gives.of_outcome.and MemoryMerge.build_position).mono (fun attempt w ha journal => ?_)
      fun _ _ _ => rfl
    obtain ⟨hbuilt, hposition⟩ := ha
    cases attempt with
    | merged m =>
      refine (enter_moves (r := Calm) _).mono fun _ t ht => ?_
      have hat : ({ m with position := 0 } : MemoryMerge) = m := by rw [← hposition m rfl]
      rw [ht.1]
      refine ⟨rfl, .inr ⟨order, .memory m, ho, ⟨hposition m rfl, _, _, _, _, hbuilt⟩, ?_⟩⟩
      rw [Route.At, hat]
    | refused reason => exact hstreams order _ rfl ho

/-- Nothing was handed out. -/
structure Unused (op : Operator) : Prop where
  returned : op.rowsReturned = 0
  emitted : op.schemaEmitted = false

theorem Fresh.unused (h : Fresh op) : Unused op := ⟨h.returned, h.emitted⟩

theorem Unused.congr {op' : Operator} (h : Unused op) (hr : op'.rowsReturned = op.rowsReturned)
    (he : op'.schemaEmitted = op.schemaEmitted) : Unused op' :=
  ⟨hr.trans h.returned, he.trans h.emitted⟩

theorem Unused.of_frame {op' : Operator} (h : Unused op) (hf : op'.frame = op.frame) : Unused op' :=
  h.congr (congrArg Operator.rowsReturned hf :) (congrArg Operator.schemaEmitted hf :)

/-- Taking in hands nothing out, and a final merge comes of it only if the end of the input was
heard. -/
theorem takeIn_routed (hscript : ∀ p ∈ script, LeavesFiles p.onDisk)
    (hE : ∀ b ∈ E.books?, b.tracker = first.tracker) (hfresh : Fresh first)
    (h : Taking E script S first all s) (hears : Hears script .waiting s) :
    Gives takeIn (fun goesOn t => Unused t.1 ∧
        (goesOn → Heard script t.1.input.pulls ∧ t.1.Routed t.1.stage))
      (fun _ t => Unused t.1) s := by
  have hunused : Unused { first with stage := Stage.ingesting } :=
    hfresh.unused.congr rfl rfl
  have hbegun : Advances s ({ s.1 with stage := .ingesting }, s.2) := .serves (refl_of Calm s.2)
  refine gives_takeIn (h.stage hfresh) (((ingest_all h.ingesting hscript hE).and
    (ingest_heard (hears.advance hbegun id))).mono (fun goesOn u hu => ?_)
      fun _ u hu => hunused.of_frame hu.1.1)
  obtain ⟨⟨hf, -⟩, hheard⟩ := hu
  have hu := hunused.of_frame hf
  split
  · next hyes =>
    refine finalize_routed.mono (fun _ v hv => ?_) fun _ v hv => ?_
    · obtain ⟨hbare, hrouted⟩ := hv
      have horder : v.1.order? = u.1.order? := (congrArg Operator.order? hbare :)
      have hoptions : v.1.options = u.1.options := (congrArg Operator.options hbare :)
      have hinput : v.1.input = u.1.input := (congrArg Operator.input hbare :)
      refine ⟨hu.congr (congrArg Operator.rowsReturned hbare :)
        (congrArg Operator.schemaEmitted hbare :), fun _ => ⟨?_, ?_⟩⟩
      · rw [hinput]
        exact hheard hyes
      · rw [Routed, horder, hoptions]
        exact hrouted
    · exact hu.congr (congrArg Operator.rowsReturned hv :) (congrArg Operator.schemaEmitted hv :)
  · refine releaseGroups_gives.mono fun _ v hv => (enter_moves (r := Calm) _).mono fun _ x hx => ?_
    rw [hx.1, hv.1]
    exact ⟨⟨hu.returned, hu.emitted⟩, Bool.false_ne_true.elim⟩

/-- A final merge that just began has all rows ahead. -/
theorem covers_of_serves {options : SortOptions} {stage : Stage} {rows : List Row}
    (hat : route.At options order 0 stage) (h : stage.Serves order rows U) :
    route.Covers rows.length := by
  cases route with
  | streams => trivial
  | memory m =>
    obtain rfl : stage = .finalMemory { m with position := 0 } := hat
    cases h with
    | memory hm =>
      rw [hm.entries]
      simp [Route.Covers, MemoryMerge.totalRows]

/-! ## One output -/

/-- What an output does to an operator that is in its final merge, after `served` rows and with
`left` rows to go: it is cut to size. -/
structure HandsOut (route : Route) (order : RowOrder) (served left : Nat) (op : Operator) (o : Output)
    (stage : Stage) : Prop where
  length : o.length = min (route.size op.options order) left
  hands : route.Hands served o
  at_ : route.At op.options order (served + o.length) stage

/-- A window is as long as a full output, or it has all rows that are left. -/
theorem window_handsOut {m : MemoryMerge} {rows : List Row} {served : Nat}
    (hv : 0 < op.options.outputRows) (hm : { m with position := served }.Holds order rows)
    (hlt : served < m.totalRows) :
    let length := min (max op.options.outputRows 1) (m.totalRows - served)
    HandsOut (.memory m) order served rows.length op
      (.window ⟨m.batches, m.selection.window served length, m.lease⟩)
      (.finalMemory { m with position := served + length }) := by
  intro length
  have hrows : rows.length = m.totalRows - served := by
    rw [hm.entries]
    simp [MemoryMerge.totalRows]
  have hlength : length = min op.options.outputRows rows.length := by
    rw [hrows]
    exact congrArg (min · _) (Nat.max_eq_left hv)
  -- the window is not cut short by the end of the selection
  have hsize : (m.selection.window served length).size = length := by
    have hle : length ≤ m.totalRows - served := Nat.min_le_right ..
    simp only [GlobalSelection.window, Array.size_extract, MemoryMerge.totalRows] at hle hlt ⊢
    omega
  refine ⟨hsize.trans hlength, ?_, ?_⟩
  · rw [Route.Hands, Output.length, hsize]
  · rw [Route.At, Output.length, hsize]

theorem output_handsOut (hv : 0 < op.options.outputRows) {rows : List Row} {served : Nat}
    (hat : route.At op.options order served op.stage) (h : op.stage.Serves order rows U)
    (hw : Owns E w (U + S)) :
    Gives output (fun o? t => ∃ stage, t.1 = { op with stage } ∧
        ∀ o ∈ o?, HandsOut route order served rows.length op o stage)
      (fun _ t => ∃ stage, t.1 = { op with stage }) (op, w) := by
  refine gives_output (fun m hs => ?_) (fun m rows hs => ?_)
    (fun _ => ⟨op.stage, rfl, fun _ ho => by cases ho⟩) fun _ => ⟨op.stage, rfl⟩
  · rw [hs] at h hat
    obtain ⟨hm⟩ := h
    cases route with
    | streams =>
      obtain ⟨_, hat⟩ := hat
      cases hat
    | memory m₀ =>
      obtain rfl : m = { m₀ with position := served } := Stage.finalMemory.inj hat
      refine MemoryMerge.ensures_nextWindow (fun _ => ⟨_, rfl, fun _ ho => by cases ho⟩) fun hlt => ?_
      refine .of_forall fun _ w => ⟨_, rfl, fun o ho => ?_⟩
      obtain rfl := Option.some.inj ho
      exact window_handsOut hv hm hlt
  · rw [hs] at h hat
    obtain ⟨⟩ | ⟨_, hm⟩ := h
    cases route with
    | memory m =>
      have hat : Stage.finalMerge _ _ = Stage.finalMemory _ := hat
      cases hat
    | streams =>
      obtain ⟨_, hat⟩ := hat
      obtain ⟨rfl, rfl⟩ := Stage.finalMerge.inj hat
      refine (Merger.nextChunk_spec hm hw _).mono (fun chunk? s hs => ?_) fun _ s hs => ⟨_, rfl⟩
      cases chunk? with
      | none => exact ⟨_, rfl, fun _ ho => by cases ho⟩
      | some chunk =>
        obtain ⟨xs, U, -, -, -, hlength, -⟩ := hs
        refine .of_forall fun _ _ => ⟨_, rfl, fun o ho => ?_⟩
        obtain rfl := Option.some.inj ho
        have hfull : max (op.options.chunkRows order) 1 = op.options.chunkRows order :=
          Nat.max_eq_left (Route.size_pos hv order .streams)
        rw [hfull] at hlength
        exact ⟨hlength, ⟨_, rfl⟩, _, rfl⟩

end Operator

end SpillSort
