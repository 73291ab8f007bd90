import SpillSort.Proofs.Cancellations
import SpillSort.Proofs.Portions

/-!
# Handouts

What the outputs of a sort look like to its consumer, whatever else is called in between: the first one
brings the schema, all are cut to size, and there are as many as it takes.

* `Operator.Paced` goes from call to call. It knows the answers so far and, in a final merge, how far
  along its route the operator is.
* `Session.outputs_in_portions` is about all calls.
-/

namespace SpillSort

open Memory Spill
open Workspace (Calm)

/-! ## All outputs -/

/-- The outputs of pulls. -/
def outputs (ps : List (Except Failure Poll)) : List Output := ps.filterMap outputOf?

/-- How an output is announced: the first one brings the schema. -/
def announce (emitted : Bool) (o : Output) : Poll := if emitted then .batch o else .newSchema o

/-- How outputs are announced one after the other. -/
def announced : List Output → List Poll
  | [] => []
  | o :: os => .newSchema o :: os.map .batch

theorem announced_snoc (os : List Output) (o : Output) :
    announced (os ++ [o]) = announced os ++ [announce (!os.isEmpty) o] := by
  cases os with
  | nil => rfl
  | cons o' os => simp [announced, announce]

theorem output?_announce (emitted : Bool) (o : Output) : (announce emitted o).output? = some o := by
  cases emitted <;> rfl

theorem outputs_snoc (ps : List (Except Failure Poll)) (r : Except Failure Poll) :
    outputs (ps ++ [r]) = outputs ps ++ (outputOf? r).toList := by
  rw [outputs, List.filterMap_append, outputs]
  cases h : outputOf? r <;> simp [h]

theorem Stage.Serves.merges {order : RowOrder} {stage : Stage} {left : List Row} {U : Resources}
    (h : stage.Serves order left U) : stage.Merges := by
  cases h <;> trivial

namespace Operator

variable {op op' first : Operator} {s t : Operator × Workspace} {order : RowOrder} {route : Route}
  {E : Surroundings} {S : Resources} {script : List Pull} {all : List Batch} {given left : List Row}
  {rows : Nat} {ps : List (Except Failure Poll)}

/-- What an operator has to show for the answers to its pulls, if there are `rows` rows in all. -/
structure Handed (script : List Pull) (rows : Nat) (ps : List (Except Failure Poll)) (op : Operator) :
    Prop where
  announced : ps.filter (fun p => (outputOf? p).isSome) = (announced (outputs ps)).map .ok
  emitted : op.schemaEmitted = !(outputs ps).isEmpty
  returned : op.rowsReturned = total ((outputs ps).map Output.length)
  gave : outputs ps ≠ [] → Heard script op.input.pulls ∧ ∃ order route, op.order? = some order ∧
    Route.Made op.options order route ∧ route.Covers rows ∧ route.Gave op.options order (outputs ps)

/-- An operator that is under way on a route, with `rows` rows in all. -/
structure Rides (script : List Pull) (rows : Nat) (ps : List (Except Failure Poll)) (op : Operator)
    (order : RowOrder) (route : Route) : Prop where
  established : op.order? = some order
  made : Route.Made op.options order route
  covers : route.Covers rows
  at_ : route.At op.options order op.rowsReturned op.stage
  heard : Heard script op.input.pulls
  gave : route.Gave op.options order (outputs ps)
  full : op.rowsReturned < rows → route.size op.options order ∣ op.rowsReturned

/-- An operator between two calls, and the answers to its pulls so far. -/
structure Paced (script : List Pull) (rows : Nat) (ps : List (Except Failure Poll)) (op : Operator) :
    Prop where
  valid : 0 < op.options.outputRows
  handed : Handed script rows ps op
  waits : op.stage = .uninitialized → outputs ps = [] ∧ ∀ w, Hears script .waiting (op, w)
  rides : op.stage.Merges → ∃ order route, Rides script rows ps op order route

/-- Nothing is handed out, and what is known of the rows stays known. -/
structure Mute (op op' : Operator) : Prop where
  options : op'.options = op.options
  returned : op'.rowsReturned = op.rowsReturned
  emitted : op'.schemaEmitted = op.schemaEmitted
  settled : op.order?.isSome → op'.order? = op.order? ∧ op'.input.pulls = op.input.pulls

theorem Mute.rfl : Mute op op := ⟨Eq.refl _, Eq.refl _, Eq.refl _, fun _ => ⟨Eq.refl _, Eq.refl _⟩⟩

theorem Mute.of_stage {stage : Stage} (h : op' = { op with stage }) : Mute op op' := by
  subst h
  exact ⟨Eq.refl _, Eq.refl _, Eq.refl _, fun _ => ⟨Eq.refl _, Eq.refl _⟩⟩

theorem Mute.trans {op'' : Operator} (h : Mute op op') (h' : Mute op' op'') : Mute op op'' := by
  refine ⟨h'.options.trans h.options, h'.returned.trans h.returned, h'.emitted.trans h.emitted,
    fun ho => ?_⟩
  obtain ⟨horder, hpulls⟩ := h.settled ho
  obtain ⟨horder', hpulls'⟩ := h'.settled (horder ▸ ho)
  exact ⟨horder'.trans horder, hpulls'.trans hpulls⟩

theorem Handed.mute (h : Handed script rows ps op) (hm : Mute op op') : Handed script rows ps op' := by
  refine ⟨h.announced, hm.emitted.trans h.emitted, hm.returned.trans h.returned, fun hne => ?_⟩
  obtain ⟨hheard, order, route, ho, hmade, hcovers, hgave⟩ := h.gave hne
  obtain ⟨horder, hpulls⟩ := hm.settled (by rw [ho]; rfl)
  refine ⟨hpulls ▸ hheard, order, route, horder.trans ho, ?_⟩
  rw [hm.options]
  exact ⟨hmade, hcovers, hgave⟩

/-- An answer without an output adds nothing. -/
theorem Handed.silent (h : Handed script rows ps op) {r : Except Failure Poll} (hr : outputOf? r = none) :
    Handed script rows (ps ++ [r]) op := by
  have houts : outputs (ps ++ [r]) = outputs ps := by
    rw [outputs_snoc, hr, Option.toList_none, List.append_nil]
  refine ⟨?_, houts ▸ h.emitted, houts ▸ h.returned, houts ▸ h.gave⟩
  rw [houts, List.filter_append, h.announced]
  simp [hr]

/-- Without a final merge the answers are all there is to know. -/
theorem Handed.paced (h : Handed script rows ps op) (hv : 0 < op.options.outputRows)
    (hs : op.stage = .done ∨ op.stage = .failed) : Paced script rows ps op := by
  refine ⟨hv, h, fun hu => ?_, fun hm => ?_⟩
  · rcases hs with hs | hs
    · cases hs.symm.trans hu
    · cases hs.symm.trans hu
  · rcases hs with hs | hs
    · rw [hs] at hm
      exact hm.elim
    · rw [hs] at hm
      exact hm.elim

/-- An operator that handed nothing out has nothing to show. -/
theorem Handed.of_unused (h : Handed script rows ps op) (hnone : outputs ps = []) (hu : Unused op') :
    Handed script rows ps op' := by
  refine ⟨h.announced, ?_, ?_, fun hne => absurd hnone hne⟩
  · rw [hu.emitted, hnone]
    rfl
  · rw [hu.returned, hnone]
    rfl

/-- One more output, cut to size. -/
theorem Rides.handsOut (h : Rides script rows ps op order route) (hh : Handed script rows ps op)
    (hv : 0 < op.options.outputRows) {o : Output} {stage : Stage} (hpos : op.rowsReturned < rows)
    (hschema : o.schema = order.schema)
    (ho : HandsOut route order op.rowsReturned (rows - op.rowsReturned) op o stage) :
    Paced script rows (ps ++ [.ok (announce op.schemaEmitted o)])
      { op with stage, rowsReturned := op.rowsReturned + o.length, schemaEmitted := true } := by
  have hsize := Route.size_pos hv order route
  have hlength := ho.length
  have houts : outputs (ps ++ [.ok (announce op.schemaEmitted o)]) = outputs ps ++ [o] := by
    rw [outputs_snoc]
    simp [outputOf?, Except.toOption, output?_announce]
  have hgave : route.Gave op.options order (outputs ps ++ [o]) := by
    have hfull := h.full hpos
    rw [hh.returned] at hfull
    refine h.gave.snoc hfull (by omega) (by omega) hschema ?_
    rw [← hh.returned]
    exact ho.hands
  have hhanded : Handed script rows (ps ++ [.ok (announce op.schemaEmitted o)])
      { op with stage, rowsReturned := op.rowsReturned + o.length, schemaEmitted := true } := by
    refine ⟨?_, ?_, ?_, fun _ => ⟨h.heard, order, route, h.established, h.made, h.covers, ?_⟩⟩
    · rw [houts, announced_snoc, List.filter_append, hh.announced, ← hh.emitted]
      simp [outputOf?, Except.toOption, output?_announce]
    · rw [houts]
      simp
    · rw [houts, List.map_append, total_append, ← hh.returned]
      rfl
    · rw [houts]
      exact hgave
  refine ⟨hv, hhanded, fun hu => ?_, fun _ => ⟨order, route, h.established, h.made, h.covers, ho.at_,
    h.heard, ?_, ?_⟩⟩
  · have hat := ho.at_
    have hu : stage = .uninitialized := hu
    rw [hu] at hat
    cases route with
    | memory => cases (show Stage.uninitialized = _ from hat)
    | streams =>
      obtain ⟨_, hat⟩ := hat
      cases hat
  · rw [houts]
    exact hgave
  · intro hmore
    have hmore : op.rowsReturned + o.length < rows := hmore
    have hwhole : o.length = route.size op.options order := by omega
    exact (Nat.dvd_add_right (h.full hpos)).mpr (hwhole ▸ Nat.dvd_refl _)

/-- The rows that are still to come. -/
theorem Serving.rows_left (h : Serving E script S first all given left s) :
    total (all.map Batch.rows) = s.1.rowsReturned + left.length := by
  obtain ⟨order, -, -, -, hgiven, -⟩ := h.serves
  have hlength := congrArg List.length hgiven
  rw [List.length_append, RowOrder.length_sortedTables] at hlength
  rw [h.returned, hlength]

/-- Serving hands out the next output of its route. -/
theorem serve_paced (h : Serving E script S first all given left s)
    (hrides : Rides script (total (all.map Batch.rows)) ps s.1 order route)
    (hh : Handed script (total (all.map Batch.rows)) ps s.1) (hv : 0 < s.1.options.outputRows) :
    Gives serve (fun p t => Paced script (total (all.map Batch.rows)) (ps ++ [.ok p]) t.1)
      (fun _ t => Mute s.1 t.1) s := by
  obtain ⟨order', U, taken, ho, -, hserves, -, hw⟩ := h.serves
  obtain rfl : order' = order := Option.some.inj (ho.symm.trans hrides.established)
  have hrows := h.rows_left
  refine gives_serve (((output_handsOut hv hrides.at_ hserves hw).and
    (output_spec hserves hw)).mono (fun o? t ht => ?_) fun _ t ht => ?_)
  · obtain ⟨⟨stage, hop, hout⟩, _, -, ht⟩ := ht
    obtain ⟨op, w⟩ := t
    obtain rfl : op = { s.1 with stage } := hop
    cases o? with
    | none =>
      refine fun _ _ => (enter_moves (r := Calm) _).mono fun _ t ht => ?_
      have hmute : Mute s.1 t.1 := .of_stage ht.1
      refine ((hh.mute hmute).silent rfl).paced (hmute.options ▸ hv) (.inl ?_)
      rw [ht.1]
    | some o =>
      obtain ⟨front, rest, _, rfl, hne, hfront, -⟩ := ht
      have hlength : 0 < front.length := List.length_pos_of_ne_nil hne
      rw [List.length_append] at hrows
      have hschema : o.schema = order'.schema := by
        cases o with
        | rows b => exact hfront.1
        | window v => exact hfront.schema
      have hleft : HandsOut route order' s.1.rowsReturned
          (total (all.map Batch.rows) - s.1.rowsReturned) s.1 o stage := by
        have hhands := hout o rfl
        rw [List.length_append] at hhands
        rwa [hrows, Nat.add_sub_cancel_left]
      exact hrides.handsOut hh hv (by omega) hschema hleft
  · obtain ⟨⟨stage, hop⟩, -⟩ := ht
    exact .of_stage hop

/-- With no rows left, a pull hands nothing out. -/
theorem serve_done_paced (hs : s.1.stage = .done) (hh : Handed script rows ps s.1)
    (hv : 0 < s.1.options.outputRows) :
    Gives serve (fun p t => Paced script rows (ps ++ [.ok p]) t.1) (fun _ _ => False) s := by
  refine (serve_done hs).mono (fun p t ht => ?_) fun _ _ hf => hf
  obtain ⟨rfl, rfl⟩ := ht
  exact (hh.silent rfl).paced hv (.inl hs)

/-- A final merge starts at the beginning of its route. -/
theorem Serving.rides (h : Serving E script S first all given left s) (hu : Unused s.1)
    (hnone : outputs ps = []) (hheard : Heard script s.1.input.pulls)
    (hrouted : s.1.Routed s.1.stage) :
    ∃ order route, Rides script (total (all.map Batch.rows)) ps s.1 order route := by
  obtain ⟨_, _, _, ho', -, hserves, -⟩ := h.serves
  rcases hrouted with hs | ⟨order, route, ho, hmade, hat⟩
  · rw [hs] at hserves
    cases hserves
  obtain rfl := Option.some.inj (ho.symm.trans ho')
  have hrows := h.rows_left
  rw [hu.returned, Nat.zero_add] at hrows
  refine ⟨order, route, ho, hmade, hrows ▸ covers_of_serves hat hserves, hu.returned ▸ hat, hheard,
    ?_, fun _ => ?_⟩
  · rw [hnone]
    exact Route.Gave.nil ..
  · rw [hu.returned]
    exact Nat.dvd_zero _

/-- After everything was taken in, the first output is handed out if there are rows. -/
theorem takenIn_paced {goesOn : Bool} (h : TakenIn E script S first all goesOn s)
    (hh : Handed script (total (all.map Batch.rows)) ps s.1) (hv : 0 < first.options.outputRows)
    (hu : Unused s.1) (hnone : outputs ps = [])
    (hrouted : goesOn → Heard script s.1.input.pulls ∧ s.1.Routed s.1.stage) :
    if goesOn then
      Gives serve (fun p t => Paced script (total (all.map Batch.rows)) (ps ++ [.ok p]) t.1)
        (fun _ t => Handed script (total (all.map Batch.rows)) ps t.1) s
    else Paced script (total (all.map Batch.rows)) (ps ++ [.ok .stopped]) s.1 := by
  unfold TakenIn at h
  split at h
  · next hyes =>
    rw [if_pos hyes]
    obtain ⟨hheard, hrouted⟩ := hrouted hyes
    rcases h with hfinished | ⟨left, hserving⟩
    · have hcore : s.1.options = first.options := (congrArg Operator.options hfinished.core :)
      exact (serve_done_paced hfinished.done hh (hcore ▸ hv)).mono (fun _ _ ht => ht)
        fun _ _ hf => hf.elim
    · have hcore : s.1.options = first.options := (congrArg Operator.options hserving.core :)
      obtain ⟨_, _, hrides⟩ := hserving.rides hu hnone hheard hrouted
      exact (serve_paced hserving hrides hh (hcore ▸ hv)).mono (fun _ _ ht => ht)
        fun _ _ ht => hh.mute ht
  · next hno =>
    rw [if_neg hno]
    have hstopped : s.1.stage = .done ∨ s.1.stage = .failed := h.isOver.stage.imp id And.left
    have hcore : s.1.options = first.options := (congrArg Operator.options h.core :)
    exact (hh.silent rfl).paced (hcore ▸ hv) hstopped

/-- A pull that goes on hands out the first output of a route or the next one. -/
theorem step_paced (hscript : ∀ p ∈ script, LeavesFiles p.onDisk)
    (hE : ∀ b ∈ E.books?, b.tracker = first.tracker) (hfresh : Fresh first)
    (h : Working E script S first all given s)
    (hp : Paced script (total (all.map Batch.rows)) ps s.1) :
    Gives step (fun p t => Paced script (total (all.map Batch.rows)) (ps ++ [.ok p]) t.1)
      (fun _ t => Handed script (total (all.map Batch.rows)) ps t.1) s := by
  refine gives_step ?_
  cases h with
  | taking h =>
    obtain ⟨hnone, hears⟩ := hp.waits (h.stage hfresh)
    have hoptions : s.1.options = first.options := (congrArg Operator.options h.frame :)
    refine ((takeIn_spec hscript hE hfresh h).and
      (takeIn_routed hscript hE hfresh h (hears s.2))).mono (fun goesOn t ht => ?_) fun _ t ht =>
        hp.handed.of_unused hnone ht.2
    obtain ⟨htaken, hunused, hrouted⟩ := ht
    exact takenIn_paced htaken (hp.handed.of_unused hnone hunused) (hoptions ▸ hp.valid) hunused hnone
      hrouted
  | @serving _ left _ h =>
    obtain ⟨_, _, _, -, -, hserves, -⟩ := h.serves
    obtain ⟨order, route, hrides⟩ := hp.rides hserves.merges
    refine (takeIn_serves hserves).mono (fun goesOn t ht => ?_) fun _ _ hf => hf.elim
    obtain ⟨rfl, rfl⟩ := ht
    exact (serve_paced h hrides hp.handed hp.valid).mono (fun _ _ hu => hu)
      fun _ _ hu => hp.handed.mute hu
  | finished h =>
    refine (takeIn_done h.done).mono (fun goesOn t ht => ?_) fun _ _ hf => hf.elim
    obtain ⟨rfl, rfl⟩ := ht
    exact (serve_done_paced h.done hp.handed hp.valid).mono (fun _ _ ht => ht) fun _ _ hf => hf.elim

/-! ## Calls -/

theorem mute_emptied {stage : Stage} {input : Input} {released : Bool} {failure? : Option Failure}
    (hi : input.pulls = op.input.pulls) :
    Mute op { op.emptied with stage, input, released, failure? } :=
  ⟨rfl, rfl, rfl, fun _ => ⟨rfl, hi⟩⟩

theorem releaseOnCancel_mute : Ensures releaseOnCancel (fun _ t => Mute s.1 t.1 ∧
    (s.1.released = false → t.1.stage = .done)) s := by
  refine releaseOnCancel_gives.mono fun _ t ht => ?_
  obtain ⟨-, ht⟩ := ht
  rw [ht]
  split
  · next hr => exact ⟨.rfl, fun hf => absurd hf (by rw [hr]; decide)⟩
  · exact ⟨mute_emptied rfl, fun _ => rfl⟩

theorem fail_mute (e : Failure) : Ensures (fail e) (fun _ t => Mute s.1 t.1 ∧ t.1.stage = .failed)
    s := by
  refine (fail_gives e).mono fun _ t ht => ?_
  rw [ht.2.1]
  exact ⟨mute_emptied rfl, rfl⟩

/-- A sort that was ended before its time stays as it is but for the end. -/
theorem Handed.stopped (h : Handed script rows ps s.1) (hv : 0 < s.1.options.outputRows)
    (hr : s.1.released = false) :
    Ensures releaseOnCancel (fun _ t => Paced script rows (ps ++ [.ok .stopped]) t.1) s := by
  refine releaseOnCancel_mute.mono fun _ t ht => ?_
  obtain ⟨hmute, hdone⟩ := ht
  exact ((h.mute hmute).silent rfl).paced (hmute.options ▸ hv) (.inl (hdone hr))

/-- A pull of a sort that goes on. -/
theorem next_paced (hscript : ∀ p ∈ script, LeavesFiles p.onDisk)
    (hE : ∀ b ∈ E.books?, b.tracker = first.tracker) (hfresh : Fresh first)
    (h : Working E script S first all given s)
    (hp : Paced script (total (all.map Batch.rows)) ps s.1) :
    Ensures next (fun r t => Paced script (total (all.map Batch.rows)) (ps ++ [r]) t.1) s := by
  have hbroken := h.broken hfresh
  have hoptions : s.1.options = first.options := (congrArg Operator.options hbroken.core :)
  refine ensures_next (fun e he => absurd (hbroken.failure.symm.trans he) nofun) fun _ => ?_
  refine (h.frame frames_cancelled).mono fun b w h => ?_
  split
  · exact Handed.stopped (s := (s.1, w)) hp.handed hp.valid hbroken.released
  · refine ((step_paced hscript hE hfresh h hp).and (step_spec hscript hE hfresh h)).mono
      (fun p t ht => ht.1) fun e t ht => ?_
    obtain ⟨hhanded, hbroken⟩ := ht
    have hoptions' : t.1.options = first.options := (congrArg Operator.options hbroken.core :)
    have hv : 0 < t.1.options.outputRows := by
      rw [hoptions', ← hoptions]
      exact hp.valid
    split
    · exact hhanded.stopped hv hbroken.released
    · refine (fail_mute e).mono fun _ u hu => ?_
      obtain ⟨hmute, hfailed⟩ := hu
      exact ((hhanded.mute hmute).silent rfl).paced (hmute.options ▸ hv) (.inr hfailed)

/-- Priming hands nothing out, and there is no order yet. -/
theorem Primes.mute (h : Primes s t) (ho : s.1.order? = none) : Mute s.1 t.1 where
  options := (congrArg Operator.options h.frame :)
  returned := (congrArg Operator.rowsReturned h.frame :)
  emitted := (congrArg Operator.schemaEmitted h.frame :)
  settled := by
    rw [ho]
    intro h
    cases h

/-- A look at the schema. -/
theorem buildSchema_paced (h : Paced script rows ps s.1) :
    Ensures buildSchema (fun _ t => Paced script rows ps t.1) s := by
  refine ensures_buildSchema (fun _ _ => h) (fun _ _ => h) fun _ ho hpending => ?_
  have hquiet : outputs ps = [] := by
    by_contra hne
    obtain ⟨-, order, -, ho', -⟩ := h.handed.gave hne
    cases ho.symm.trans ho'
  have hhears : Gives prime (fun _ t => s.1.stage = .uninitialized → Hears script .waiting t)
      (fun _ _ => True) s := by
    by_cases hs : s.1.stage = .uninitialized
    · exact (prime_hears ((h.waits hs).2 s.2) hpending).mono (fun _ _ ht _ => ht) fun _ _ _ => trivial
    · exact (prime_gives ho).mono (fun _ _ _ hu => absurd hu hs) fun _ _ _ => trivial
  refine ((prime_gives ho).and hhears).mono (fun _ t ht => ?_) fun e t ht => ?_
  · obtain ⟨⟨hprimes, -⟩, hhears⟩ := ht
    have hstage : t.1.stage = s.1.stage := (congrArg Operator.stage hprimes.frame :)
    have hmute := hprimes.mute ho
    refine ⟨hmute.options ▸ h.valid, h.handed.mute hmute, fun hu => ?_, fun hm => ?_⟩
    · have hears := hhears (hstage.symm.trans hu)
      exact ⟨hquiet, fun w => ⟨hears.script_eq, hears.pending, hears.ended⟩⟩
    · obtain ⟨order, route, hrides⟩ := h.rides (hstage ▸ hm)
      cases ho.symm.trans hrides.established
  · refine (fail_mute e).mono fun _ u hu => ?_
    have hmute := (ht.1.1.mute ho).trans hu.1
    exact (h.handed.mute hmute).paced (hmute.options ▸ h.valid) (.inr hu.2)

/-- A pull of a sort that is over. -/
theorem next_mute (h : s.1.stage = .done ∨ s.1.failure?.isSome) :
    Ensures next (fun r t => Mute s.1 t.1 ∧ outputOf? r = none) s := by
  refine ensures_next (fun _ _ => ⟨.rfl, rfl⟩) fun hf => ?_
  have hdone : s.1.stage = .done := h.resolve_right (by simp [hf])
  refine .of_forall fun b w => ?_
  split
  · exact (releaseOnCancel_mute (s := (s.1, w))).mono fun _ t ht => ⟨ht.1, rfl⟩
  · refine (step_done (s := (s.1, w)) hdone).mono (fun p t ht => ?_) fun _ _ hf => hf.elim
    obtain ⟨rfl, rfl⟩ := ht
    exact ⟨.rfl, rfl⟩

theorem kill_mute : Ensures kill (fun _ t => Mute s.1 t.1) s := by
  unfold kill
  rw [Ensures.bind_iff]
  exact (releaseOnCancel_mute (s := (s.1, { s.2 with cancel := { raised := true } }))).mono
    fun _ _ ht => ht.1

theorem close_mute : Ensures close (fun _ t => Mute s.1 t.1) s :=
  close_gives.mono fun _ _ ht => ht.2 ▸ mute_emptied rfl

/-- Memory runs short. -/
theorem Paced.press (h : Paced script rows ps op) : Paced script rows ps op.pressed := by
  have hh := h.handed
  refine ⟨h.valid, ⟨hh.announced, hh.emitted, hh.returned, hh.gave⟩, fun hu => ?_, fun hm => ?_⟩
  · obtain ⟨hnone, hears⟩ := h.waits hu
    exact ⟨hnone, fun w => ⟨(hears w).script_eq, (hears w).pending, (hears w).ended⟩⟩
  · obtain ⟨order, route, hr⟩ := h.rides hm
    exact ⟨order, route, hr.established, hr.made, hr.covers, hr.at_, hr.heard, hr.gave, hr.full⟩

end Operator

/-! ## All calls -/

namespace Session

variable {X : Resources} {first : Operator} {script : List Pull} {all : List Batch}
  {ps : List (Except Failure Poll)} {E : Surroundings} {s : Session}

/-- A session with the answers to its pulls so far. -/
structure Flows (E : Surroundings) (script : List Pull) (X : Resources) (first : Operator)
    (all : List Batch) (ps : List (Except Failure Poll)) (s : Session) : Prop where
  phase : (∃ given, Goes E script X first all given s) ∨ Ended E script X first s
  paced : Operator.Paced script (total (all.map Batch.rows)) ps s.operator

theorem Flows.core (h : Flows E script X first all ps s) (hfresh : first.Fresh) :
    s.operator.core = first.core := by
  rcases h.phase with ⟨given, hgoes⟩ | hended
  · exact (hgoes.broken hfresh).core
  · exact hended.core

/-- A pull is done once it answered: what the consumer does with the output is no concern of the
operator's. -/
theorem next_operator (s : Session) (keep : Bool) :
    (s.next keep).1 = (s.act Operator.next).1 ∧
      (s.next keep).2.operator = (s.act Operator.next).2.operator := by
  unfold Session.next
  generalize s.act Operator.next = a
  obtain ⟨r, t⟩ := a
  dsimp only
  cases r.toOption.bind Poll.output? with
  | none => exact ⟨rfl, rfl⟩
  | some o => cases keep <;> exact ⟨rfl, rfl⟩

theorem Ended.paced {qs : List (Except Failure Poll)} {op : Operator} (hs : Ended E script X first s)
    (hh : Operator.Handed script (total (all.map Batch.rows)) qs op) (hm : Operator.Mute op s.operator)
    (hv : 0 < op.options.outputRows) :
    Operator.Paced script (total (all.map Batch.rows)) qs s.operator :=
  (hh.mute hm).paced (hm.options ▸ hv) (hs.isOver.stage.imp id And.left)

variable (hscript : ∀ p ∈ script, LeavesFiles p.onDisk)
  (hE : ∀ b ∈ E.books?, b.tracker = first.tracker) (hfresh : first.Fresh)
include hscript hE hfresh

theorem Flows.next (h : Flows E script X first all ps s) (keep : Bool) :
    Flows E script X first all (ps ++ [(s.next keep).1]) (s.next keep).2 := by
  rcases h.phase with ⟨given, hgoes⟩ | hended
  · refine ⟨?_, ?_⟩
    · cases next_spec hscript hE hfresh hgoes keep with
      | goes _ _ hgoes => exact .inl ⟨_, hgoes⟩
      | finished _ _ hfinished => exact .inl ⟨_, .finished hfinished⟩
      | ended _ hended => exact .inr hended
    · obtain ⟨hr, hop⟩ := s.next_operator keep
      rw [hr, hop]
      exact (act_spec (Operator.next_paced hscript hE hfresh hgoes h.paced)).1
  · obtain ⟨hnone, hended'⟩ := next_ended hended keep
    have hover : s.operator.stage = .done ∨ s.operator.failure?.isSome :=
      hended.isOver.stage.imp id And.right
    have hmute := (act_spec (s := s) (Operator.next_mute hover)).1.1
    refine ⟨.inr hended', hended'.paced (h.paced.handed.silent hnone) ?_ h.paced.valid⟩
    rw [(s.next_operator keep).2]
    exact hmute

/-- Pulling goes on as long as there are outputs. -/
theorem Flows.pulls (h : Flows E script X first all ps s) (count : Nat)
    (found : List (Except Failure Poll)) : ∃ qs, (s.pulls count found).1 = found.reverse ++ qs ∧
      Flows E script X first all (ps ++ qs) (s.pulls count found).2 := by
  induction count generalizing s ps found with
  | zero => exact ⟨[], (List.append_nil _).symm, by rwa [List.append_nil]⟩
  | succ count ih =>
    have hnext := h.next hscript hE hfresh false
    rw [pulls_succ]
    split
    · obtain ⟨qs, hqs, hflows⟩ := ih hnext ((s.next false).1 :: found)
      refine ⟨(s.next false).1 :: qs, ?_, ?_⟩
      · rw [hqs, List.reverse_cons, List.append_assoc, List.singleton_append]
      · rwa [List.append_assoc, List.singleton_append] at hflows
    · exact ⟨[(s.next false).1], List.reverse_cons, hnext⟩

/-- One more call. -/
theorem Flows.perform (h : Flows E script X first all ps s) (c : Call) (hc : c.Quiet ∧ c.Spares E) :
    Flows E script X first all (ps ++ (s.perform c).1.pulls) (s.perform c).2 := by
  have hphase : ((∃ given, Goes E script X first all given (s.perform c).2) ∧ ¬c.Ends) ∨
      Ended E script X first (s.perform c).2 := by
    rcases h.phase with ⟨given, hgoes⟩ | hended
    · cases perform_spec hscript hE hfresh hgoes c hc with
      | goes hnot _ _ _ hgoes => exact .inl ⟨⟨_, hgoes⟩, hnot⟩
      | ended _ hended => exact .inr hended
    · exact .inr (perform_ended hscript hended c hc)
  have hpaced := h.paced
  rw [← List.append_nil ps] at hpaced
  have hends : c.Ends → Operator.Mute s.operator (s.perform c).2.operator →
      Operator.Paced script (total (all.map Batch.rows)) (ps ++ []) (s.perform c).2.operator :=
    fun hc hm => (hphase.resolve_left fun hp => hp.2 hc).paced hpaced.handed hm hpaced.valid
  have hphase := hphase.imp_left And.left
  cases c with
  | buildSchema => exact ⟨hphase, (act_spec (s := s) (Operator.buildSchema_paced hpaced)).1⟩
  | next keep => exact h.next hscript hE hfresh keep
  | drain =>
    obtain ⟨qs, hqs, hflows⟩ := h.pulls hscript hE hfresh (s.rowsLeft + 1) []
    rw [show (s.perform .drain).1.pulls = qs from hqs]
    exact hflows
  | letGo =>
    refine ⟨hphase, ?_⟩
    rw [perform_letGo]
    exact hpaced
  | kill => exact ⟨hphase, hends trivial (act_spec (s := s) Operator.kill_mute).1⟩
  | close => exact ⟨hphase, hends trivial (act_spec (s := s) Operator.close_mute).1⟩
  | cancel => exact ⟨hphase, hpaced⟩
  | pressure => exact ⟨hphase, hpaced.press⟩
  | memory f => exact ⟨hphase, hpaced⟩
  | disk f => exact ⟨hphase, hpaced⟩

theorem Flows.run (h : Flows E script X first all ps s) (cs : List Call)
    (hcs : ∀ c ∈ cs, c.Quiet ∧ c.Spares E) :
    Flows E script X first all (ps ++ (s.run cs).1.flatMap Reply.pulls) (s.run cs).2 := by
  induction cs generalizing s ps with
  | nil =>
    rw [show (s.run []).1.flatMap Reply.pulls = [] from rfl, List.append_nil]
    exact h
  | cons c cs ih =>
    have hrun := ih (h.perform hscript hE hfresh c (hcs c List.mem_cons_self)) fun c hc =>
      hcs c (List.mem_cons_of_mem _ hc)
    rw [run_cons, List.flatMap_cons, ← List.append_assoc]
    exact hrun

end Session

namespace Session

/-- Calls found a sort done that nobody ended and that neither stopped nor failed. -/
structure Drained (cs : List Call) (rs : List Reply) : Prop where
  unended : ∀ c ∈ cs, ¬c.Ends
  fine : ∀ r ∈ rs, r.Fine
  done : ∃ r ∈ rs, .ok .done ∈ r.pulls

section Begin

variable {name : String} {options : SortOptions} {makeOrder : OrderMaker} {script : List Pull}
  {pressure : Bool} {stem : String} {fragment : Fragment} {ledger : Ledger} {disk : Disk}
  {s : Operator × Workspace}

theorem begin_flows (hs : Operator.create name options makeOrder { script, pressure } stem fragment
      ledger disk = .ok s) (flag : CancelFlag) :
    Flows (.careless s.2.disk) script 0 s.1 ((arriving script).flatMap Batch.slices) []
      (begin s flag) := by
  refine ⟨.inl ⟨[], begin_goes hs flag (Owns.careless_iff.mpr ⟨[], by simp, .nil _⟩)⟩, ?_⟩
  obtain ⟨hcheck, v, -, hop, -⟩ := Operator.create_ok hs
  show Operator.Paced script _ [] s.1
  rw [hop]
  refine ⟨SortOptions.outputRows_pos hcheck, ⟨rfl, rfl, rfl, fun hne => absurd rfl hne⟩,
    fun _ => ⟨rfl, fun w => ⟨rfl, (fun h => by cases h), False.elim⟩⟩, False.elim⟩

/-- **The protocol of the outputs.** Whatever is called: the first output brings the schema and no
later one does; the rows returned are those of the outputs. There is an output only once the input has
said that it ended. All outputs have the schema of the sort and some rows, at most as many as an output
may have, and all but the last one are full: windows that follow each other through one merge in memory,
or chunks of merged streams. If a pull answers that the sort is done, and nobody ended it and it neither
stopped nor failed, then the outputs have all rows, and there are as many as that takes. -/
theorem outputs_in_portions (hs : Operator.create name options makeOrder { script, pressure } stem
      fragment ledger disk = .ok s) (hscript : ∀ p ∈ script, LeavesFiles p.onDisk) (flag : CancelFlag)
    (cs : List Call) (hcs : ∀ c ∈ cs, c.Quiet) :
    let a := (begin s flag).run cs
    let ps := a.1.flatMap Reply.pulls
    let os := outputs ps
    let rows := ((arriving script).flatMap Batch.table).length
    ps.filter (fun p => (outputOf? p).isSome) = (announced os).map .ok ∧
    a.2.operator.rowsReturned = total (os.map Output.length) ∧
    (Drained cs a.1 → total (os.map Output.length) = rows) ∧
    (os ≠ [] → Heard script a.2.operator.input.pulls ∧ ∃ order route,
      a.2.operator.order? = some order ∧ Route.Made options order route ∧
      route.Gave options order os ∧ (∀ o ∈ os, 0 < o.length ∧ o.length ≤ options.outputRows) ∧
      (Drained cs a.1 → route.Whole os ∧
        os.length = (rows + route.size options order - 1) / route.size options order)) := by
  intro a ps os rows
  have hflows := (begin_flows hs flag).run hscript (fun _ hb => by cases hb) (create_fresh hs) cs
    fun c hc => ⟨hcs c hc, c.spares_careless _⟩
  rw [List.nil_append] at hflows
  obtain ⟨-, -, -, hop, -⟩ := Operator.create_ok hs
  have hoptions : a.2.operator.options = options := by
    have hcore : a.2.operator.options = s.1.options :=
      (congrArg Operator.options (hflows.core (create_fresh hs)) :)
    rw [hcore, hop]
  have hpaced : Operator.Paced script _ ps a.2.operator := hflows.paced
  have hhanded := hpaced.handed
  have hall : Drained cs a.1 → total (os.map Output.length) = rows := fun hd =>
    hhanded.returned.symm.trans (counts_of_done hs hscript flag cs
      (fun c hc => ⟨hcs c hc, hd.unended c hc⟩) hd.fine hd.done).1
  refine ⟨hhanded.announced, hhanded.returned, hall, fun hne => ?_⟩
  obtain ⟨hheard, order, route, ho, hmade, hcovers, hgave⟩ := hhanded.gave hne
  have hv := hpaced.valid
  rw [hoptions] at hmade hgave hv
  refine ⟨hheard, order, route, ho, hmade, hgave, fun o => hgave.bounds hv, fun hdrained => ⟨?_, ?_⟩⟩
  · refine hgave.whole ?_
    rw [show total (os.map Output.length) = _ from hall hdrained]
    rw [total_rows_slices] at hcovers
    exact hcovers
  · rw [← hall hdrained]
    exact hgave.length_outputs hv

end Begin

end Session

/-- Options under which outputs are short. -/
def Sample.narrow : SortOptions := { roomy with outputRows := 2 }

/-- Two outputs, and then the sort is done. -/
def Sample.twoOutputs : List Reply → Bool
  | [.poll p, .poll q, .poll (.ok .done)] => (outputOf? p).isSome && (outputOf? q).isSome
  | _ => false

namespace Session

/-- Three rows in windows of two: a full one and what is left over. -/
theorem outputs_in_portions_three_rows : ∃ s,
    Sample.operator Sample.narrow [Sample.pull [(2, 1), (1, 2), (3, 0)]] = .ok s ∧
      let os := outputs (((begin s {}).run [.next true, .next true, .next true]).1.flatMap Reply.pulls)
      total (os.map Output.length) = 3 ∧ ∃ (order : RowOrder) (route : Route), route.Whole os ∧
        route.Gave Sample.narrow order os := by
  have hpasses : Sample.passes Sample.narrow
      [Sample.pull [(2, 1), (1, 2), (3, 0)]] fun s =>
        Sample.twoOutputs ((begin s {}).run [.next true, .next true, .next true]).1 := by
    decide +kernel
  obtain ⟨s, hs, hrun⟩ := Sample.exists_of_passes hpasses
  unfold Sample.twoOutputs at hrun
  split at hrun
  case h_2 => cases hrun
  next p q hrs =>
    obtain ⟨hp, hq⟩ := Bool.and_eq_true_iff.mp hrun
    obtain ⟨o, ho⟩ := Option.isSome_iff_exists.mp hp
    obtain ⟨-, -, hall, hshape⟩ := outputs_in_portions hs (by simp [Sample.pull, LeavesFiles]) {}
      [.next true, .next true, .next true] (by simp [Call.Quiet])
    have hfine : ∀ {p : Except Failure Poll}, (outputOf? p).isSome → (Reply.poll p).Fine := fun hp =>
      ⟨List.forall_mem_singleton.mpr (fine_of_output hp), rfl⟩
    have hdone : (Reply.poll (.ok .done)).Fine := ⟨List.forall_mem_singleton.mpr trivial, rfl⟩
    have hdrained : Drained [.next true, .next true, .next true]
        ((begin s {}).run [.next true, .next true, .next true]).1 := by
      rw [hrs]
      exact ⟨by simp [Call.Ends], by simp [hfine hp, hfine hq, hdone], .poll (.ok .done), by simp,
        List.mem_singleton_self _⟩
    obtain ⟨-, order, route, -, -, hgave, -, hwhole⟩ := hshape (by
      rw [hrs]
      simp [outputs, Reply.pulls, List.filterMap_cons, ho])
    exact ⟨s, hs, hall hdrained, order, route, (hwhole hdrained).1, hgave⟩

/-- An input that stops after a batch: the sort says that it stopped, and then that it is done. No
output has come before that, although two rows were taken in. -/
theorem done_without_outputs : ∃ s,
    Sample.operator Sample.options [Sample.pull [(2, 1), (1, 2)], { outcome := .ok .stop }] = .ok s ∧
      let a := (begin s {}).run [.next true, .next true]
      .ok .done ∈ a.1.flatMap Reply.pulls ∧ outputs (a.1.flatMap Reply.pulls) = [] ∧
        a.2.operator.rowsProcessed = 2 := by
  have hpasses : Sample.passes Sample.options
      [Sample.pull [(2, 1), (1, 2)], { outcome := .ok .stop }] fun s =>
        let a := (begin s {}).run [.next true, .next true]
        a.1.map Sample.glance == [.stopped, .done] && a.2.operator.rowsProcessed == 2 := by
    decide +kernel
  obtain ⟨s, hs, hrun⟩ := Sample.exists_of_passes hpasses
  rw [Bool.and_eq_true, beq_iff_eq, beq_iff_eq] at hrun
  obtain ⟨hglances, hprocessed⟩ := hrun
  obtain ⟨r, rs, hrs, hstopped, hglances⟩ := List.map_eq_cons_iff.mp hglances
  obtain ⟨r', rs, rfl, hdone, hglances⟩ := List.map_eq_cons_iff.mp hglances
  obtain rfl := List.map_eq_nil_iff.mp hglances
  obtain rfl := Sample.eq_stopped_of_glance hstopped
  obtain rfl := Sample.eq_done_of_glance hdone
  refine ⟨s, hs, ?_, ?_, hprocessed⟩
  · rw [hrs]
    simp [Reply.pulls]
  · rw [hrs]
    rfl

end Session

end SpillSort
