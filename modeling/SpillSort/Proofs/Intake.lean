import SpillSort.Proofs.Staging

/-!
# Taking in

An operator pulls batches until its input ends, and stages their slices in the order in which they
arrive.

* `Operator.Has` are the slices staged so far, with or without an order; `Operator.Draws` says how the
  input, the event pulled ahead and the charges taken over belong together.
* `Operator.addBatch_spec` stages a batch, `Operator.ingest_spec` all batches of the input.
-/

namespace SpillSort

open Memory Spill

variable {E : Surroundings} {w : Workspace} {R S : Resources} {order : RowOrder}

/-- The slices of a batch. -/
def Batch.slices (b : Batch) : List Batch := (Operator.slices b.rows).map fun s => b.slice s.1 s.2

namespace Operator

variable {op op' : Operator} {staged : List Batch}

/-- An operator without its order. -/
def unordered (op : Operator) : Operator := { op with order? := none, ordersMade := 0 }

/-- An operator without its groups and its order. -/
def shell (op : Operator) : Operator := op.bare.unordered

/-- An operator without anything that taking in changes. -/
def frame (op : Operator) : Operator :=
  { op.shell with input := { script := [] }, pending? := none }

/-- The groups have the slices staged so far; without an order there are none. -/
def Has (op : Operator) (staged : List Batch) (R : Resources) : Prop :=
  match op.order? with
  | some order => op.Stages order staged R
  | none => op.resident = #[] ∧ op.spilled = #[] ∧ op.monitor.totalRows = 0 ∧ staged = [] ∧ R = 0

theorem Has.stages_nil {op : Operator} (hr : op.resident = #[]) (hs : op.spilled = #[])
    (ht : op.monitor.totalRows = 0) (order : RowOrder) : op.Stages order [] 0 :=
  ⟨⟨[], [], 0, 0, by simp [hs], by simp [hr], rfl, .nil, .nil, rfl⟩, ht⟩

theorem Has.keeps (h : op.Has staged R) : op.KeepsGroups R := by
  unfold Has at h
  split at h
  · exact h.keeps
  · next order _ =>
    obtain ⟨hr, hs, ht, rfl, rfl⟩ := h
    exact ⟨0, 0, by rw [hr]; exact .nil, by rw [hs]; exact .nil, rfl⟩

theorem Has.of_order (h : op.Stages order staged R) (ho : op.order? = some order) :
    op.Has staged R := by
  rw [Has, ho]
  exact h

theorem Has.stages (h : op.Has staged R) (ho : op.order? = some order) :
    op.Stages order staged R := by
  rw [Has, ho] at h
  exact h

theorem Has.congr (h : op.Has staged R) (hr : op'.resident = op.resident)
    (hs : op'.spilled = op.spilled) (ho : op'.order? = op.order?)
    (ht : op'.monitor.totalRows = op.monitor.totalRows) : op'.Has staged R := by
  unfold Has at h ⊢
  rw [ho]
  split at h
  · exact h.congr hr hs ht
  · rwa [hr, hs, ht]

/-- The slices of a batch can be sorted. -/
theorem slices_bounds {rows : Nat} : ∀ s ∈ slices rows, 0 < s.2 ∧ s.2 ≤ maxSelectionRows := by
  intro s hs
  obtain ⟨i, hi, rfl⟩ := List.mem_map.mp hs
  have hlt := List.mem_range.mp hi
  rw [maxSelectionRows] at hlt
  simp only [maxSelectionRows]
  omega

/-! ## Orders -/

/-- The order is the one there was, or it was made for the schema. -/
def Settles (op : Operator) (schema : Schema) (op' : Operator) : Prop :=
  op'.order? = op.order? ∨ op.order? = none ∧
    ∃ order, op'.order? = some order ∧ op.makeOrder schema op.options.keys = .ok order

theorem shell_of_unordered (h : op'.unordered = op.unordered) : op'.shell = op.shell :=
  congrArg bare h

/-- A new order finds no groups. -/
theorem Has.settle (h : op.Has staged R) (hu : op'.unordered = op.unordered) {schema : Schema}
    (hset : op.Settles schema op') : op'.Has staged R := by
  have hr : op'.resident = op.resident := (congrArg Operator.resident hu :)
  have hs : op'.spilled = op.spilled := (congrArg Operator.spilled hu :)
  have hm : op'.monitor = op.monitor := (congrArg Operator.monitor hu :)
  rcases hset with ho | ⟨ho, order, ho', -⟩
  · exact h.congr hr hs ho (congrArg _ hm)
  · rw [Has, ho] at h
    obtain ⟨hr', hs', ht', rfl, rfl⟩ := h
    exact .of_order (Has.stages_nil (hr.trans hr') (hs.trans hs') (hm ▸ ht') order) ho'

theorem orderFor_spec (hw : Owns E w S) (schema : Schema) :
    Gives (orderFor schema)
      (fun order s => s.1.unordered = op.unordered ∧ op.Settles schema s.1 ∧
        s.1.order? = some order ∧ Owns E s.2 S)
      (fun _ s => s.1.unordered = op.unordered ∧ op.Settles schema s.1 ∧ Owns E s.2 S)
      (op, w) := by
  refine gives_orderFor (fun order ho _ => ⟨rfl, .inl rfl, ho, hw⟩)
    (fun _ _ _ => ⟨rfl, .inl rfl, hw⟩) (fun order journal ho hmade => ?_)
    fun _ _ _ => ⟨rfl, .inl rfl, hw⟩
  exact ⟨rfl, .inr ⟨ho, order, rfl, hmade⟩, rfl, hw.journal journal⟩

/-! ## Batches -/

/-- What is left after a failure while a chunk is taken in; its charge was taken over only if there
was an order. -/
def Spoiled (E : Surroundings) (S : Resources) (op : Operator) (chunk : Chunk)
    (s : Operator × Workspace) : Prop :=
  ∃ R' cs, s.1.shell = op.shell ∧ op.Settles chunk.batch.schema s.1 ∧
    (cs = [] ∨ cs = chunk.charge?.toList ∧ s.1.order?.isSome) ∧ s.1.KeepsGroups R' ∧
    Owns (E.take cs) s.2 (R' + S)

theorem shell_of_bare (h : op'.bare = op.bare) : op'.shell = op.shell :=
  congrArg (fun op => { op with order? := none, ordersMade := 0 }) h

/-- All slices of a batch are staged, and its charge is taken over. -/
theorem addBatch_spec {chunk : Chunk} (h : op.Has staged R)
    (hE : ∀ b ∈ E.books?, b.tracker = op.tracker) (hw : Owns E w (R + (chunk.held + S))) :
    Gives (addBatch chunk)
      (fun _ s => ∃ R' order, s.1.shell = op.shell ∧ op.Settles chunk.batch.schema s.1 ∧
        s.1.order? = some order ∧ s.1.Stages order (staged ++ chunk.batch.slices) R' ∧
        Owns (E.take chunk.charge?.toList) s.2 (R' + S))
      (fun _ => Spoiled E S op chunk) (op, w) := by
  have hw' : Owns E w (chunk.held + (R + S)) := hw.cast (by abel)
  refine gives_addBatch ((orderFor_spec hw' _).mono (fun order s hs => ?_) fun _ s hs => ?_)
  · obtain ⟨hu, hset, ho, hw⟩ := hs
    have hsh := shell_of_unordered hu
    have hst := h.settle hu hset
    have htracker : s.1.tracker = op.tracker := (congrArg Operator.tracker hsh :)
    refine ⟨fun hzero => ?_, fun _ => ?_⟩
    · have hnil : chunk.batch.slices = [] := by
        have hrows : chunk.batch.rows = 0 := hzero
        rw [Batch.slices, hrows]
        rfl
      refine hw.dropChunk.mono fun _ w hw => ⟨R, order, hsh, hset, ho, ?_, hw.take _⟩
      rw [hnil, List.append_nil]
      exact hst.stages ho
    · refine ((hw.take chunk.charge?.toList).transfer fun b hb => ?_).mono fun c w hs => ?_
      · obtain ⟨b, hbE, rfl⟩ := Option.map_eq_some_iff.mp hb
        exact ⟨(hE b hbE).trans htracker.symm, fun i hi _ =>
          List.mem_append_right _ (Option.mem_toList.mpr hi)⟩
      obtain ⟨hbatch, hw⟩ := hs
      have hw' : Owns (E.take chunk.charge?.toList) w (R + (c.held + S)) := hw.cast (by abel)
      refine (stageSlices_spec ho (hst.stages ho) slices_bounds hw').mono (fun _ t ht => ?_)
        fun _ t ht => ?_
      · obtain ⟨R', hb, hst', hw⟩ := ht
        have ho' : t.1.order? = s.1.order? := (congrArg Operator.order? hb :)
        have hw' := hw.cast (add_left_comm ..)
        refine hw'.dropChunk.mono fun _ w hw => ⟨R', order, (shell_of_bare hb).trans hsh, ?_,
          ho'.trans ho, ?_, hw⟩
        · rwa [Settles, ho']
        · rw [Batch.slices]
          rwa [hbatch, Chunk.length, hbatch] at hst'
      · obtain ⟨R', hb, hk, hw⟩ := ht
        have ho' : t.1.order? = s.1.order? := (congrArg Operator.order? hb :)
        have hw' := hw.cast (add_left_comm ..)
        refine hw'.dropChunk.mono fun _ w hw => ⟨R', _, (shell_of_bare hb).trans hsh, ?_,
          .inr ⟨rfl, by rw [ho', ho]; rfl⟩, hk, hw⟩
        rwa [Settles, ho']
  · obtain ⟨hu, hset, hw⟩ := hs
    exact hw.dropChunk.mono fun _ w hw => ⟨R, [], shell_of_unordered hu, hset, .inl rfl,
      (h.settle hu hset).keeps, hw.take []⟩

/-- Spilling with or without an order. -/
theorem spill_has (h : op.Has staged R) (hw : Owns E w (R + S)) (reason : SpillReason) :
    Gives (spill reason)
      (fun _ s => ∃ R', s.1.bare = op.bare ∧ s.1.Has staged R' ∧ Owns E s.2 (R' + S))
      (fun _ => Lost E S op) (op, w) := by
  have h' := h
  unfold Has at h
  split at h
  · next order ho =>
    refine (spill_spec ho h hw reason).mono (fun _ s hs => ?_) fun _ _ hs => hs
    obtain ⟨R', hb, hst, hw⟩ := hs
    exact ⟨R', hb, .of_order hst ((congrArg Operator.order? hb).trans ho), hw⟩
  · next ho =>
    refine gives_spill (fun _ => ⟨R, rfl, h', hw⟩) (fun order _ horder => ?_) fun order _ horder => ?_
    · exact absurd (ho.symm.trans horder) nofun
    · exact absurd (ho.symm.trans horder) nofun

/-- Memory ran short where the batches come from: the groups may be spilled. -/
theorem relieveInput_spec (h : op.Has staged R) (hw : Owns E w (R + S)) :
    Gives relieveInput
      (fun _ s => ∃ R', s.1.bare = op.bare ∧ s.1.Has staged R' ∧ Owns E s.2 (R' + S))
      (fun _ => Lost E S op) (op, w) := by
  have h' : Has { op with monitor := op.monitor.onOutOfMemory.2 } staged R :=
    h.congr rfl rfl rfl rfl
  exact gives_relieveInput (fun journal _ => spill_has h' (hw.journal journal) _)
    fun journal => ⟨R, rfl, h', hw.journal journal⟩

end Operator

/-! ## Events -/

/-- The batch that an event brings. -/
def Event.batch? : Event → Option Batch
  | batch chunk => some chunk.batch
  | _ => none

/-- The batch that a pull brings. -/
def Pull.batch? (p : Pull) : Option Batch := p.outcome.toOption.bind Event.batch?

/-- The batches of a script up to the first pull that brings none. -/
def arriving : List Pull → List Batch
  | [] => []
  | p :: rest =>
    match p.batch? with
    | some b => b :: arriving rest
    | none => []

theorem arriving_cons (p : Pull) (rest : List Pull) :
    arriving (p :: rest) = p.batch?.toList ++ if p.batch?.isSome then arriving rest else [] := by
  rw [arriving]
  rcases p.batch? with _ | b
  · rfl
  · simp

namespace Input

theorem charges_next (i : Input) :
    Resources.charges i.charges =
      Resources.charges i.next.1.charges + Resources.charges i.next.2.charges := by
  rcases i with ⟨_ | ⟨p, rest⟩, pressure, pulls, kills⟩
  · rfl
  · simp [next, Input.charges]

theorem pulls_next (i : Input) : i.next.2.pulls = i.pulls + 1 := by
  rcases i with ⟨_ | ⟨p, rest⟩, pressure, pulls, kills⟩ <;> rfl

variable {i : Input} {script : List Pull}

/-- Behind the end of the script nothing happens to the disk. -/
theorem quiet_next (h : ∀ p ∈ i.script, LeavesFiles p.onDisk) : LeavesFiles i.next.1.onDisk := by
  unfold next
  split
  · exact fun _ => ⟨rfl, rfl⟩
  · next p rest hs => exact h p (hs ▸ List.mem_cons_self)

/-- A pull moves on by one in the script; behind its end nothing but the end comes. -/
theorem next_eq (h : i.script = script.drop i.pulls) :
    i.next.2.script = script.drop i.next.2.pulls ∧
      ((i.script = [] ∧ i.next.1 = { outcome := .ok .endOfInput } ∧
          script.take i.next.2.pulls = script.take i.pulls) ∨
        (i.script = i.next.1 :: i.next.2.script ∧ i.next.1 ∈ script ∧
          script.take i.next.2.pulls = script.take i.pulls ++ [i.next.1])) := by
  rcases hs : i.script with _ | ⟨p, rest⟩
  · have hnext : i.next = ({ outcome := .ok .endOfInput }, { i with pulls := i.pulls + 1 }) := by
      rw [next, hs]
    have hle : script.length ≤ i.pulls := List.drop_eq_nil_iff.mp (h.symm.trans hs)
    rw [hnext]
    refine ⟨?_, .inl ⟨rfl, rfl, ?_⟩⟩
    · show i.script = script.drop (i.pulls + 1)
      rw [hs, List.drop_eq_nil_iff.mpr (by omega)]
    · show script.take (i.pulls + 1) = _
      rw [List.take_of_length_le (by omega), List.take_of_length_le hle]
  · have hnext : i.next = (p,
        { i with
          script := rest, pressure := i.pressure || p.pressure, pulls := i.pulls + 1 }) := by
      rw [next, hs]
    have hdrop : script.drop i.pulls = p :: rest := h.symm.trans hs
    have hget : script[i.pulls]? = some p := by
      rw [← List.head?_drop, hdrop, List.head?_cons]
    rw [hnext]
    refine ⟨?_, .inr ⟨rfl, List.mem_of_getElem? hget, ?_⟩⟩
    · show rest = script.drop (i.pulls + 1)
      rw [← List.drop_drop, hdrop, List.drop_one, List.tail_cons]
    · show script.take (i.pulls + 1) = _
      rw [List.take_add_one, hget, Option.toList_some]

/-- A pull brings its batch on top of those that came before. -/
theorem batches_next (h : i.script = script.drop i.pulls) :
    (script.take i.next.2.pulls).filterMap Pull.batch? =
      (script.take i.pulls).filterMap Pull.batch? ++ i.next.1.batch?.toList := by
  rcases (next_eq h).2 with ⟨-, hp, ht⟩ | ⟨-, -, ht⟩
  · rw [ht, hp]
    exact (List.append_nil _).symm
  · rw [ht, List.filterMap_append]
    rcases hb : i.next.1.batch? with _ | b <;> simp [hb]

/-- What arrives begins with what the next pull brings. -/
theorem arriving_next (i : Input) : arriving i.script =
    i.next.1.batch?.toList ++ if i.next.1.batch?.isSome then arriving i.next.2.script else [] := by
  rcases i with ⟨_ | ⟨p, rest⟩, pressure, pulls, kills⟩
  · rfl
  · exact arriving_cons p rest

theorem length_next (h : i.next.1.batch?.isSome) : i.next.2.script.length < i.script.length := by
  rcases i with ⟨_ | ⟨p, rest⟩, pressure, pulls, kills⟩
  · cases h
  · exact Nat.lt_succ_self _

end Input

/-- A pull that leaves the files alone takes nothing away. -/
theorem Owns.pulled {p : Pull} (h : Owns E w R) (hp : LeavesFiles p.onDisk) :
    Owns E (p.after w) R := by
  obtain ⟨haccounts, hdisk, hflag⟩ := h.onDisk hp
  refine ⟨haccounts, hdisk, ?_⟩
  show E.flag (if p.cancels then _ else _)
  split
  · exact E.flag_raised
  · exact hflag

namespace Operator

variable {op op' : Operator} {staged : List Batch} {script : List Pull} {taken : List ChargeId}

/-- The batches that are still to be taken in, if nothing goes wrong. -/
def ahead (op : Operator) : List Batch :=
  match op.pending? with
  | none => arriving op.input.script
  | some e => e.batch?.toList ++ if e.batch?.isSome then arriving op.input.script else []

/-- The charges held for an event that was pulled ahead. -/
def pendingCharges (op : Operator) : List ChargeId := (op.pending?.map Event.charges).getD []

/-- How an operator draws on the script of its input: what it has pulled ahead, what it took over, and
what its order was made for, all came with the pulls so far. -/
structure Draws (script : List Pull) (op : Operator) (taken : List ChargeId) : Prop where
  script_eq : op.input.script = script.drop op.input.pulls
  taken_sub : ∀ c ∈ taken, c ∈ (script.take op.input.pulls).flatMap Pull.charges
  pending_sub : ∀ c ∈ op.pendingCharges, c ∈ (script.take op.input.pulls).flatMap Pull.charges
  pending_batch : ∀ b, op.pending?.bind Event.batch? = some b → ∃ p ∈ script, p.batch? = some b
  untaken : op.order? = none ∨ op.pending?.isSome → taken = []
  made : ∀ order, op.order? = some order → ∃ p ∈ script, ∃ b, p.batch? = some b ∧
    op.makeOrder b.schema op.options.keys = .ok order

/-- Nothing else of the operator matters. -/
theorem Draws.congr (h : op.Draws script taken) (hscript : op'.input.script = op.input.script)
    (hpulls : op'.input.pulls = op.input.pulls) (hpending : op'.pending? = op.pending?)
    (ho : op'.order? = op.order?) (hmake : op'.makeOrder = op.makeOrder)
    (hoptions : op'.options = op.options) : op'.Draws script taken := by
  refine ⟨?_, ?_, ?_, ?_, ?_, ?_⟩
  · rw [hscript, hpulls]
    exact h.script_eq
  · rw [hpulls]
    exact h.taken_sub
  · rw [pendingCharges, hpending, hpulls]
    exact h.pending_sub
  · rw [hpending]
    exact h.pending_batch
  · rw [ho, hpending]
    exact h.untaken
  · rw [ho, hmake, hoptions]
    exact h.made

theorem Draws.of_bare (h : op.Draws script taken) (hb : op'.bare = op.bare) :
    op'.Draws script taken :=
  have hinput : op'.input = op.input := (congrArg Operator.input hb :)
  h.congr (congrArg Input.script hinput) (congrArg Input.pulls hinput)
    (congrArg Operator.pending? hb :) (congrArg Operator.order? hb :)
    (congrArg Operator.makeOrder hb :) (congrArg Operator.options hb :)

/-- An order is made for a batch of the script, and more charges are taken over. -/
theorem Draws.settle (h : op.Draws script taken) (hsh : op'.shell = op.shell) {b : Batch}
    (hset : op.Settles b.schema op') (hb : ∃ p ∈ script, p.batch? = some b) {cs : List ChargeId}
    (hcs : ∀ c ∈ cs, c ∈ (script.take op.input.pulls).flatMap Pull.charges)
    (hfree : cs = [] ∨ op.pending? = none ∧ op'.order?.isSome) : op'.Draws script (taken ++ cs) := by
  have hinput : op'.input = op.input := (congrArg Operator.input hsh :)
  have hpending : op'.pending? = op.pending? := (congrArg Operator.pending? hsh :)
  have hmake : op'.makeOrder = op.makeOrder := (congrArg Operator.makeOrder hsh :)
  have hoptions : op'.options = op.options := (congrArg Operator.options hsh :)
  refine ⟨hinput ▸ h.script_eq, ?_, ?_, hpending ▸ h.pending_batch, fun hn => ?_, fun o ho => ?_⟩
  · rw [hinput]
    exact fun c hc => (List.mem_append.mp hc).elim (h.taken_sub c) (hcs c)
  · rw [hinput, pendingCharges, hpending]
    exact h.pending_sub
  · have hnone : op.order? = none ∨ op.pending?.isSome := by
      rcases hn with hn | hn
      · rcases hset with he | ⟨he, -⟩
        · exact .inl (he.symm.trans hn)
        · exact .inl he
      · exact .inr (hpending ▸ hn)
    rw [h.untaken hnone, List.nil_append]
    rcases hfree with rfl | ⟨hp, ho⟩
    · rfl
    · rcases hn with hn | hn
      · rw [hn] at ho
        cases ho
      · rw [hpending, hp] at hn
        cases hn
  · rw [hmake, hoptions]
    rcases hset with he | ⟨-, o', ho', hmade⟩
    · exact h.made o (he.symm.trans ho)
    · obtain ⟨p, hp, hpb⟩ := hb
      obtain rfl := Option.some.inj (ho.symm.trans ho')
      exact ⟨p, hp, b, hpb, hmade⟩

/-- What is left of the script leaves the files alone, too. -/
theorem Draws.quiet (h : op.Draws script taken) (hscript : ∀ p ∈ script, LeavesFiles p.onDisk) :
    ∀ p ∈ op.input.script, LeavesFiles p.onDisk := fun p hp =>
  hscript p (List.mem_of_mem_drop (h.script_eq ▸ hp))

/-- What was pulled ahead may be forgotten. -/
theorem Draws.forget (h : op.Draws script taken) :
    ({ op with pending? := none } : Operator).Draws script taken :=
  ⟨h.script_eq, h.taken_sub, by simp [pendingCharges], by simp,
    fun hn => h.untaken (hn.imp_right (by simp)), h.made⟩

/-- An event of the script may be kept for later, as long as nothing was taken over. -/
theorem Draws.wait (h : op.Draws script taken) (hfree : taken = []) {e : Event}
    (hcharges : ∀ c ∈ e.charges, c ∈ (script.take op.input.pulls).flatMap Pull.charges)
    (hbatch : ∀ b, e.batch? = some b → ∃ p ∈ script, p.batch? = some b) :
    ({ op with pending? := some e } : Operator).Draws script taken :=
  ⟨h.script_eq, h.taken_sub, hcharges, hbatch, fun _ => hfree, h.made⟩

/-- A pull moves on in the script, and what it brings comes from there. -/
theorem Draws.pull (h : op.Draws script taken) :
    ({ op with pending? := none, input := op.input.next.2 } : Operator).Draws script taken ∧
      ∀ e, op.input.next.1.outcome = .ok e →
        (∀ c ∈ e.charges, c ∈ (script.take op.input.next.2.pulls).flatMap Pull.charges) ∧
        ∀ b, e.batch? = some b → ∃ p ∈ script, p.batch? = some b := by
  obtain ⟨hrest, hnext⟩ := Input.next_eq h.script_eq
  -- what was pulled before still was
  have hmono : ∀ c ∈ (script.take op.input.pulls).flatMap Pull.charges,
      c ∈ (script.take op.input.next.2.pulls).flatMap Pull.charges := by
    intro c hc
    rcases hnext with ⟨-, -, ht⟩ | ⟨-, -, ht⟩
    · rwa [ht]
    · rw [ht, List.flatMap_append]
      exact List.mem_append_left _ hc
  refine ⟨⟨hrest, fun c hc => hmono c (h.taken_sub c hc), by simp [pendingCharges], by simp,
    fun hn => h.untaken (hn.imp_right (by simp)), h.made⟩, fun e he => ⟨?_, ?_⟩⟩
  · intro c hc
    rcases hnext with ⟨-, hp, -⟩ | ⟨-, -, ht⟩
    · rw [hp] at he
      obtain rfl : e = .endOfInput := (Except.ok.inj he).symm
      cases hc
    · rw [ht, List.flatMap_append, List.flatMap_singleton, Pull.charges, he]
      exact List.mem_append_right _ hc
  · intro b hb
    have hpull : op.input.next.1.batch? = some b := by rw [Pull.batch?, he]; exact hb
    rcases hnext with ⟨-, hp, -⟩ | ⟨-, hp, -⟩
    · rw [hp] at hpull
      cases hpull
    · exact ⟨_, hp, hpull⟩

/-- An operator that takes in: all slices of what it has pulled are staged or pulled ahead. -/
structure Takes (E : Surroundings) (script : List Pull) (S : Resources) (s : Operator × Workspace)
    (staged : List Batch) (taken : List ChargeId) (R : Resources) : Prop where
  has : s.1.Has staged R
  draws : s.1.Draws script taken
  pulled : ((script.take s.1.input.pulls).filterMap Pull.batch?).flatMap Batch.slices =
    staged ++ (s.1.pending?.bind Event.batch?).toList.flatMap Batch.slices
  owns : Owns (E.take taken) s.2
    (R + (.charges s.1.pendingCharges + (.charges s.1.input.charges + S)))

/-- What is left of it after a failure. -/
def Fails (E : Surroundings) (script : List Pull) (S : Resources) (s : Operator × Workspace) :
    Prop :=
  ∃ taken R, s.1.KeepsGroups R ∧ s.1.Draws script taken ∧ Owns (E.take taken) s.2
    (R + (.charges s.1.pendingCharges + (.charges s.1.input.charges + S)))

/-- Pulling takes the next pull off the script. -/
theorem pull_spec (op : Operator) (hscript : ∀ p ∈ op.input.script, LeavesFiles p.onDisk)
    (hw : Owns E w (.charges op.input.charges + S)) :
    Gives pull
      (fun e s => s.1 = { op with input := op.input.next.2 } ∧ op.input.next.1.outcome = .ok e ∧
        Owns E s.2 (.charges e.charges + (.charges op.input.next.2.charges + S)))
      (fun e s => s.1 = { op with input := op.input.next.2 } ∧ op.input.next.1.outcome = .error e ∧
        Owns E s.2 (.charges op.input.next.2.charges + S)) (op, w) := by
  rw [op.input.charges_next, add_assoc] at hw
  have hw : Owns E (op.input.next.1.after w)
      (.charges op.input.next.1.charges + (.charges op.input.next.2.charges + S)) :=
    hw.pulled (Input.quiet_next hscript)
  unfold Pull.charges at hw
  refine gives_pull (fun e he => ⟨rfl, he, ?_⟩) fun e he => ⟨rfl, he, ?_⟩
  · rwa [he] at hw
  · rwa [he, Resources.charges_nil, zero_add] at hw

variable {taken : List ChargeId} {s t : Operator × Workspace}

theorem frame_of_shell (h : op'.shell = op.shell) : op'.frame = op.frame :=
  congrArg (fun op => { op with input := { script := [] }, pending? := none }) h

theorem Takes.fails (h : Takes E script S s staged taken R) : Fails E script S s :=
  ⟨taken, R, h.has.keeps, h.draws, h.owns⟩

/-- The number of events that can still bring a batch. -/
def events (op : Operator) : Nat := op.input.script.length + if op.pending?.isSome then 1 else 0

/-- An event has come in, and nothing is pulled ahead any more. -/
structure Comes (E : Surroundings) (script : List Pull) (S : Resources) (op : Operator) (e : Event)
    (s : Operator × Workspace) (staged : List Batch) (taken : List ChargeId) (R : Resources) :
    Prop where
  frame_eq : s.1.frame = op.frame
  has : s.1.Has staged R
  draws : s.1.Draws script taken
  pending : s.1.pending? = none
  charges_sub : ∀ c ∈ e.charges, c ∈ (script.take s.1.input.pulls).flatMap Pull.charges
  batch : ∀ b, e.batch? = some b → ∃ p ∈ script, p.batch? = some b
  pulled : ((script.take s.1.input.pulls).filterMap Pull.batch?).flatMap Batch.slices =
    staged ++ e.batch?.toList.flatMap Batch.slices
  ahead : op.ahead = e.batch?.toList ++ if e.batch?.isSome then s.1.ahead else []
  fewer : e.batch?.isSome → s.1.events < op.events
  owns : Owns (E.take taken) s.2 (R + (.charges e.charges + (.charges s.1.input.charges + S)))

/-- The event that was pulled ahead comes in. -/
theorem Takes.comes_pending (h : Takes E script S (op, w) staged taken R) {e : Event}
    (he : op.pending? = some e) :
    Comes E script S op e ({ op with pending? := none }, w) staged taken R := by
  have hpending : op.pendingCharges = e.charges := by rw [pendingCharges, he]; rfl
  have hsub := h.draws.pending_sub
  have hbatch := h.draws.pending_batch
  have hpulled := h.pulled
  have hw := h.owns
  simp only [he, Option.bind_some] at hbatch hpulled
  rw [hpending] at hsub
  refine ⟨rfl, h.has.congr rfl rfl rfl rfl, h.draws.forget, rfl, hsub, hbatch, hpulled, ?_, ?_, ?_⟩
  · simp only [Operator.ahead, he]
  · intro _
    simp [events, he]
  · rwa [hpending] at hw

/-- The event of the next pull comes in. -/
theorem Takes.comes_pulled (h : Takes E script S (op, w) staged taken R) (hp : op.pending? = none)
    {e : Event} (he : op.input.next.1.outcome = .ok e) {v : Workspace}
    (hw : Owns (E.take taken) v
      (R + (.charges e.charges + (.charges op.input.next.2.charges + S)))) :
    Comes E script S op e ({ op with pending? := none, input := op.input.next.2 }, v) staged taken
      R := by
  have hb : op.input.next.1.batch? = e.batch? := by rw [Pull.batch?, he]; rfl
  obtain ⟨hdraws, hcame⟩ := h.draws.pull
  obtain ⟨hsub, hbatch⟩ := hcame e he
  have hpulled := h.pulled
  simp only [hp, Option.bind_none, Option.toList_none, List.flatMap_nil, List.append_nil] at hpulled
  refine ⟨rfl, h.has.congr rfl rfl rfl rfl, hdraws, rfl, hsub, hbatch, ?_, ?_, fun hsome => ?_, hw⟩
  · show ((script.take op.input.next.2.pulls).filterMap Pull.batch?).flatMap Batch.slices = _
    rw [Input.batches_next h.draws.script_eq, List.flatMap_append, hpulled, hb]
  · rw [Operator.ahead, hp, ← hb]
    exact op.input.arriving_next
  · show op.input.next.2.script.length + 0 < op.input.script.length + _
    exact Nat.lt_of_lt_of_le (Input.length_next (hb ▸ hsome)) (Nat.le_add_right _ _)

theorem nextEvent_spec (hscript : ∀ p ∈ script, LeavesFiles p.onDisk)
    (h : Takes E script S (op, w) staged taken R) :
    Gives nextEvent (fun e s => Comes E script S op e s staged taken R)
      (fun _ s => s.1.frame = op.frame ∧ Fails E script S s) (op, w) := by
  refine gives_nextEvent (fun e he => h.comes_pending he) fun (he : op.pending? = none) => ?_
  have hnone : op.pendingCharges = [] := by rw [pendingCharges, he]; rfl
  have hw := h.owns
  rw [hnone, Resources.charges_nil, zero_add, add_left_comm] at hw
  refine (pull_spec { op with pending? := none } (h.draws.quiet hscript) hw).mono (fun e s hs => ?_)
    fun e s hs => ?_
  · obtain ⟨hop, hout, hw⟩ := hs
    obtain ⟨op', w'⟩ := s
    obtain rfl : op' = _ := hop
    exact h.comes_pulled he hout (hw.cast (by abel))
  · obtain ⟨hop, -, hw⟩ := hs
    obtain ⟨op', w'⟩ := s
    obtain rfl : op' = _ := hop
    refine ⟨rfl, taken, R, h.has.keeps, h.draws.pull.1, hw.cast ?_⟩
    simp only [pendingCharges, Option.map_none, Option.getD_none, Resources.charges_nil]
    abel

/-! ## The whole input -/

/-- What comes of taking in at most `count` events: everything that was pulled is staged, and all that
could come if the input ended. -/
def Ingested (E : Surroundings) (script : List Pull) (S : Resources) (op : Operator)
    (staged : List Batch) (count : Nat) (ended : Bool) (s : Operator × Workspace) : Prop :=
  ∃ staged' taken' R', s.1.frame = op.frame ∧ Takes E script S s staged' taken' R' ∧
    (ended → op.events < count → staged' = staged ++ op.ahead.flatMap Batch.slices)

theorem Comes.of_bare {e : Event} (h : Comes E script S op e s staged taken R) {R' : Resources}
    (hb : t.1.bare = s.1.bare) (hst : t.1.Has staged R')
    (hw : Owns (E.take taken) t.2 (R' + (.charges e.charges + (.charges s.1.input.charges + S)))) :
    Comes E script S op e t staged taken R' := by
  have hinput : t.1.input = s.1.input := (congrArg Operator.input hb :)
  have hpending : t.1.pending? = s.1.pending? := (congrArg Operator.pending? hb :)
  have hahead : t.1.ahead = s.1.ahead := by
    rw [Operator.ahead, hpending, hinput]
    rfl
  refine ⟨(frame_of_shell (shell_of_bare hb)).trans h.frame_eq, hst, h.draws.of_bare hb,
    hpending.trans h.pending, hinput ▸ h.charges_sub, h.batch, hinput ▸ h.pulled, ?_, ?_, hinput ▸ hw⟩
  · rw [hahead]
    exact h.ahead
  · rw [events, hpending, hinput]
    exact h.fewer

/-- Looking for a shortage of memory changes nothing about the event. -/
theorem Comes.takePressure {e : Event} (h : Comes E script S op e s staged taken R) :
    Comes E script S op e ({ s.1 with input := s.1.input.takePressure.2 }, s.2) staged taken R :=
  ⟨h.frame_eq, h.has.congr rfl rfl rfl rfl, h.draws.congr rfl rfl rfl rfl rfl rfl, h.pending,
    h.charges_sub, h.batch, h.pulled, h.ahead, h.fewer, h.owns⟩

theorem Comes.fails {e : Event} (h : Comes E script S op e s staged taken R) {R' : Resources}
    (hb : op'.bare = s.1.bare) (hk : op'.KeepsGroups R')
    (hw : Owns (E.take taken) w (R' + (.charges s.1.input.charges + S))) :
    op'.frame = op.frame ∧ Fails E script S (op', w) := by
  have hinput : op'.input = s.1.input := (congrArg Operator.input hb :)
  have hpending : op'.pending? = none := (congrArg Operator.pending? hb :).trans h.pending
  have hcharges : op'.pendingCharges = [] := by rw [pendingCharges, hpending]; rfl
  refine ⟨(frame_of_shell (shell_of_bare hb)).trans h.frame_eq, taken, R', hk,
    h.draws.of_bare hb, ?_⟩
  rwa [hinput, hcharges, Resources.charges_nil, zero_add]

/-- An event without a batch changes nothing, and nothing could come after it. -/
theorem Comes.takes_of_none {e : Event} (h : Comes E script S op e s staged taken R)
    (hb : e.batch? = none) : Takes E script S s staged taken R ∧ op.ahead = [] := by
  have he : e.charges = [] := by
    cases e with
    | batch chunk => cases hb
    | _ => rfl
  refine ⟨⟨h.has, h.draws, ?_, ?_⟩, ?_⟩
  · rw [h.pulled, hb, h.pending]
    rfl
  · have hnone : s.1.pendingCharges = [] := by rw [pendingCharges, h.pending]; rfl
    have hw := h.owns
    rwa [hnone, ← he]
  · rw [h.ahead, hb]
    rfl

/-- A batch that was taken in is staged. -/
theorem Comes.takes_of_batch {chunk : Chunk} {R' : Resources}
    (h : Comes E script S op (.batch chunk) s staged taken R) (hsh : t.1.shell = s.1.shell)
    (hset : s.1.Settles chunk.batch.schema t.1) (ho : t.1.order? = some order)
    (hst : t.1.Stages order (staged ++ chunk.batch.slices) R')
    (hw : Owns ((E.take taken).take chunk.charge?.toList) t.2
      (R' + (.charges s.1.input.charges + S))) :
    Takes E script S t (staged ++ chunk.batch.slices) (taken ++ chunk.charge?.toList) R' ∧
      t.1.events = s.1.events ∧ t.1.ahead = s.1.ahead := by
  have hinput : t.1.input = s.1.input := (congrArg Operator.input hsh :)
  have hpending : t.1.pending? = none := (congrArg Operator.pending? hsh :).trans h.pending
  have hnone : t.1.pendingCharges = [] := by rw [pendingCharges, hpending]; rfl
  refine ⟨⟨.of_order hst ho, h.draws.settle hsh hset (h.batch _ rfl) h.charges_sub
    (.inr ⟨h.pending, by rw [ho]; rfl⟩), ?_, ?_⟩, ?_, ?_⟩
  · rw [hinput, h.pulled, hpending]
    simp [Event.batch?]
  · rw [Surroundings.take_take] at hw
    rwa [hinput, hnone, Resources.charges_nil, zero_add]
  · rw [events, events, hinput, hpending, h.pending]
  · rw [Operator.ahead, Operator.ahead, hinput, hpending, h.pending]

theorem Comes.fails_of_spoiled {chunk : Chunk}
    (h : Comes E script S op (.batch chunk) s staged taken R)
    (ht : Spoiled (E.take taken) (.charges s.1.input.charges + S) s.1 chunk t) :
    t.1.frame = op.frame ∧ Fails E script S t := by
  obtain ⟨R', cs, hsh, hset, hcs, hk, hw⟩ := ht
  have hinput : t.1.input = s.1.input := (congrArg Operator.input hsh :)
  have hpending : t.1.pending? = none := (congrArg Operator.pending? hsh :).trans h.pending
  have hnone : t.1.pendingCharges = [] := by rw [pendingCharges, hpending]; rfl
  refine ⟨(frame_of_shell hsh).trans h.frame_eq, taken ++ cs, R', hk,
    h.draws.settle hsh hset (h.batch _ rfl) ?_ (hcs.imp_right fun h' => ⟨h.pending, h'.2⟩), ?_⟩
  · rcases hcs with rfl | ⟨rfl, -⟩
    · simp
    · exact h.charges_sub
  · rw [Surroundings.take_take] at hw
    rwa [hinput, hnone, Resources.charges_nil, zero_add]

theorem ingest_spec (hscript : ∀ p ∈ script, LeavesFiles p.onDisk) {tracker : TrackerId}
    (hE : ∀ b ∈ E.books?, b.tracker = tracker) : ∀ (count : Nat) {op : Operator} {w : Workspace}
    {staged : List Batch} {taken : List ChargeId} {R : Resources}, op.tracker = tracker →
    Takes E script S (op, w) staged taken R →
    Gives (ingest count) (Ingested E script S op staged count)
      (fun _ s => s.1.frame = op.frame ∧ Fails E script S s) (op, w)
  | 0, op, w, staged, taken, R, ht, h => by
    unfold ingest
    exact Gives.pure_iff.mpr ⟨staged, taken, R, rfl, h, fun _ hlt => absurd hlt (Nat.not_lt_zero _)⟩
  | count + 1, op, w, staged, taken, R, ht, h => by
    refine gives_ingest_succ (Q := fun e s => Comes E script S op e s staged taken R)
      (R := fun e s => ∃ R, Comes E script S op e s staged taken R) ?_
      (fun e s hc => ⟨R, hc.takePressure⟩) (fun e s hc => ?_) fun e s hc => ?_
    · refine h.owns.cancelled.mono fun b w hs => ?_
      have h : Takes E script S (op, w) staged taken R := ⟨h.has, h.draws, h.pulled, hs.2⟩
      exact ⟨fun _ => ⟨rfl, h.fails⟩, fun _ => nextEvent_spec hscript h⟩
    · have hc := hc.takePressure
      refine (relieveInput_spec hc.has hc.owns).mono (fun _ t ht => ?_) fun _ t ht => ?_
      · obtain ⟨R', hb, hst, hw⟩ := ht
        exact ⟨R', hc.of_bare hb hst hw⟩
      · obtain ⟨R', hb, hk, hw⟩ := ht
        have hw' := hw.cast (add_left_comm ..)
        exact hw'.dropAll.mono fun _ w hw => hc.fails hb hk hw
    obtain ⟨R, hc⟩ := hc
    have htracker : s.1.tracker = tracker := (congrArg Operator.tracker hc.frame_eq :).trans ht
    cases e with
    | endOfInput =>
      obtain ⟨htakes, hahead⟩ := hc.takes_of_none rfl
      refine Gives.pure_iff.mpr ⟨staged, taken, R, hc.frame_eq, htakes, fun _ _ => ?_⟩
      rw [hahead, List.flatMap_nil, List.append_nil]
    | stop =>
      exact Gives.pure_iff.mpr ⟨staged, taken, R, hc.frame_eq, (hc.takes_of_none rfl).1,
        fun h => absurd h (by simp)⟩
    | notYet => exact Gives.throw_iff.mpr ⟨hc.frame_eq, (hc.takes_of_none rfl).1.fails⟩
    | batch chunk =>
      have hbooks : ∀ b ∈ (E.take taken).books?, b.tracker = s.1.tracker := by
        intro b hb
        obtain ⟨b, hbE, rfl⟩ := Option.map_eq_some_iff.mp hb
        exact (hE b hbE).trans htracker.symm
      rw [stageEvent, Gives.bind_iff]
      refine (addBatch_spec hc.has hbooks hc.owns).mono (fun _ t ht => ?_)
        fun _ t ht => hc.fails_of_spoiled ht
      obtain ⟨R', order, hsh, hset, ho, hst, hw⟩ := ht
      obtain ⟨htakes, hevents, hahead⟩ := hc.takes_of_batch hsh hset ho hst hw
      have ht' : t.1.tracker = tracker := (congrArg Operator.tracker hsh :).trans htracker
      have hframe : t.1.frame = op.frame := (frame_of_shell hsh).trans hc.frame_eq
      refine (ingest_spec hscript hE count ht' htakes).mono (fun b u hu => ?_)
        fun _ u hu => ⟨hu.1.trans hframe, hu.2⟩
      obtain ⟨staged', taken', R'', hf, htakes', hall⟩ := hu
      refine ⟨staged', taken', R'', hf.trans hframe, htakes', fun hb hlt => ?_⟩
      have hfewer := hc.fewer rfl
      rw [hall hb (by omega), hc.ahead, hahead]
      simp [Event.batch?]

/-! ## An event ahead of time -/

/-- With nothing pulled ahead, the next event is pulled. -/
theorem gives_nextEvent_iff {P : Event → Operator × Workspace → Prop}
    {F : Failure → Operator × Workspace → Prop} (h : s.1.pending? = none) :
    Gives nextEvent P F s ↔ Gives pull P F s := by
  have hop : { s.1 with pending? := none } = s.1 := by rw [← h]
  unfold nextEvent
  simp only [Gives.bind_iff, Gives.modifyGet_layer_iff, h, hop]

/-- An event that came in may wait, as long as nothing was taken over. -/
theorem Comes.waits {e : Event} (h : Comes E script S op e s staged taken R) (hfree : taken = [])
    (hsh : t.1.shell = s.1.shell) (hdraws : t.1.Draws script taken) (hhas : t.1.Has staged R)
    (hw : Owns (E.take taken) t.2 (R + (.charges e.charges + (.charges s.1.input.charges + S)))) :
    ({ t.1 with pending? := some e } : Operator).frame = op.frame ∧
      Takes E script S ({ t.1 with pending? := some e }, t.2) staged taken R ∧
      ({ t.1 with pending? := some e } : Operator).ahead = op.ahead := by
  have hinput : t.1.input = s.1.input := (congrArg Operator.input hsh :)
  refine ⟨(frame_of_shell hsh).trans h.frame_eq, ⟨hhas.congr rfl rfl rfl rfl,
    hdraws.wait hfree (hinput ▸ h.charges_sub) h.batch, ?_, ?_⟩, ?_⟩
  · show ((script.take t.1.input.pulls).filterMap Pull.batch?).flatMap Batch.slices = _
    rw [hinput]
    exact h.pulled
  · show Owns (E.take taken) t.2 (R + (.charges e.charges + (.charges t.1.input.charges + S)))
    rwa [hinput]
  · have hahead : s.1.ahead = arriving s.1.input.script := by rw [Operator.ahead, h.pending]
    rw [h.ahead, hahead, ← hinput]
    rfl

theorem prime_spec (hscript : ∀ p ∈ script, LeavesFiles p.onDisk)
    (h : Takes E script S (op, w) staged taken R) (ho : op.order? = none)
    (hp : op.pending? = none) :
    Gives prime
      (fun _ s => s.1.frame = op.frame ∧ Takes E script S s staged taken R ∧ s.1.ahead = op.ahead)
      (fun _ s => s.1.frame = op.frame ∧ Fails E script S s) (op, w) := by
  have hfree : taken = [] := h.draws.untaken (.inl ho)
  refine gives_prime ((gives_nextEvent_iff hp).mp ((nextEvent_spec hscript h).mono
    (fun e s hc => ?_) fun _ _ hf => hf))
  cases e with
  | notYet => exact ⟨hc.frame_eq, (hc.takes_of_none rfl).1.fails⟩
  | endOfInput => exact hc.waits hfree rfl hc.draws hc.has hc.owns
  | stop => exact hc.waits hfree rfl hc.draws hc.has hc.owns
  | batch chunk =>
    refine (orderFor_spec hc.owns _).mono (fun order t ht => ?_) fun _ t ht => ?_
    · obtain ⟨hu, hset, -, hw⟩ := ht
      have hsh := shell_of_unordered hu
      have hdraws : t.1.Draws script (taken ++ []) :=
        hc.draws.settle hsh hset (hc.batch _ rfl) (by simp) (.inl rfl)
      rw [List.append_nil] at hdraws
      exact hc.waits hfree hsh hdraws (hc.has.settle hu hset) hw
    · obtain ⟨hu, hset, hw⟩ := ht
      have hw' : Owns (E.take taken) t.2
          (chunk.held + (R + (.charges s.1.input.charges + S))) := hw.cast (add_left_comm ..)
      exact hw'.dropChunk.mono fun _ w hw => hc.fails_of_spoiled (t := (t.1, w))
        ⟨R, [], shell_of_unordered hu, hset, .inl rfl, (hc.has.settle hu hset).keeps, hw.take []⟩

end Operator

end SpillSort
