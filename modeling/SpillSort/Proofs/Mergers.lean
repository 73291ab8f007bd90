import SpillSort.Proofs.Frontiers
import SpillSort.Proofs.Groups
import SpillSort.Proofs.StableSort
import SpillSort.Sort.Merger

/-!
# What mergers hold

A merger has many sources, each with rows in key order. What it hands out is the stable sort of all
these rows, in the order of the sources, from the front on.

* `Source` is a group with its loaded run and the rows of both; `Merger.Holds` says that the merger
  has some sources, and that its frontier shows the next row of each. Sources that are away have no
  row in the frontier at the moment.
* `Merger.load_spec` brings a source back, `Merger.pick_spec` merges rows.
* `Merger.ofGroups_spec`, `Merger.nextChunk_spec` and `Merger.drop_spec` are about whole merges.
-/

namespace SpillSort

open Memory Spill

variable {E : Surroundings} {w : Workspace} {R S : Resources} {order : RowOrder}

/-- What is in the first arena is at the same place in the second one. -/
def Grows (arena arena' : Array Batch) : Prop :=
  ∀ (i : Nat) (b : Batch), arena[i]? = some b → arena'[i]? = some b

theorem Grows.refl (arena : Array Batch) : Grows arena arena := fun _ _ h => h

theorem Grows.trans {a b c : Array Batch} (h : Grows a b) (h' : Grows b c) : Grows a c :=
  fun i x hx => h' i x (h i x hx)

theorem Grows.push (arena : Array Batch) (b : Batch) : Grows arena (arena.push b) := fun i x hx => by
  have hi := (Array.getElem?_eq_some_iff.mp hx).1
  rw [Array.getElem?_push_lt hi]
  simpa [hi] using hx

theorem Grows.holds {a b : Array Batch} (h : Grows a b) {i : Nat × Nat} (hi : Batch.holds a i) :
    Batch.holds b i ∧ Batch.rowAt b i = Batch.rowAt a i := by
  unfold Batch.holds Batch.rowAt at *
  split at hi
  · next x hx =>
    have hb := h _ _ hx
    exact ⟨by rw [hb]; exact hi, by
      rw [Array.getD_eq_getD_getElem?, Array.getD_eq_getD_getElem?, hx, hb]⟩
  · cases hi

/-! ## Candidates -/

namespace Candidate

variable {c : Candidate} {z s : Row} {j : Nat}

/-- What goes before a row is not greater. -/
theorem rowLe_of_le (hk : c.key = order.key z) (h : c.le order ⟨order.key s, j⟩) :
    order.rowLe z s := by
  rw [le, hk] at h
  rw [RowOrder.rowLe, RowOrder.le]
  revert h
  cases order.compare (order.key z) (order.key s) <;> simp

/-- What goes before a row of an earlier source is less. -/
theorem rowLe_of_earlier (hk : c.key = order.key z) (hj : j < c.source)
    (h : c.le order ⟨order.key s, j⟩) : order.rowLe s z = false := by
  rw [le, hk, Nat.compare_eq_gt.mpr hj] at h
  rw [RowOrder.rowLe, RowOrder.le, order.compare_swap (order.key z)]
  revert h
  cases order.compare (order.key z) (order.key s) <;> simp

end Candidate

/-! ## Cursors and sources -/

/-- The cursor stands before these rows of its run, whose batch lies in the arena. -/
structure MergeCursor.Reads (order : RowOrder) (arena : Array Batch) (c : MergeCursor)
    (front : List Row) : Prop where
  run : ∃ rows, c.run.Reads order rows ∧ front = rows.drop c.position
  inRun : c.position < c.run.length
  slot : arena[c.slot]? = some c.run.chunk.batch

/-- A source of a merge: its group, its loaded run, and the rows of both that are left. -/
structure Source where
  group : SortedGroup
  cursor? : Option MergeCursor
  front : List Row
  rest : List Row

namespace MergeCursor.Reads

variable {arena arena' : Array Batch} {c : MergeCursor} {front : List Row}

theorem grow (h : c.Reads order arena front) (ha : Grows arena arena') :
    c.Reads order arena' front :=
  ⟨h.run, h.inRun, ha _ _ h.slot⟩

/-- The next row is the one that the cursor names, by its slot and by its keys. -/
theorem front_eq (h : c.Reads order arena front) : ∃ z tail, front = z :: tail ∧
    Batch.holds arena (c.slot, c.run.rowAt c.position) ∧
    Batch.rowAt arena (c.slot, c.run.rowAt c.position) = z ∧
    c.run.keyAt c.position = order.key z ∧
    if c.position + 1 < c.run.length then
      MergeCursor.Reads order arena { c with position := c.position + 1 } tail
    else tail = [] := by
  obtain ⟨rows, hr, rfl⟩ := h.run
  have hin : c.position < rows.length := hr.length_eq ▸ h.inRun
  have hz : rows[c.position] = c.run.rowOf c.position := by simp [hr.eq_map]
  refine ⟨c.run.rowOf c.position, rows.drop (c.position + 1), ?_, ?_, ?_, hr.keyAt _ h.inRun, ?_⟩
  · rw [List.drop_eq_getElem_cons hin, hz]
  · rw [Batch.holds, h.slot]
    exact decide_eq_true (hr.inRange _ h.inRun)
  · simp [Batch.rowAt, Array.getD_eq_getD_getElem?, h.slot, SortedRun.rowOf]
  · split
    · next hlt => exact ⟨⟨rows, hr, rfl⟩, hlt, h.slot⟩
    · next hge =>
      rw [List.drop_eq_nil_iff, hr.length_eq]
      omega

end MergeCursor.Reads

namespace Source

/-- The rows of a source. -/
def rows (x : Source) : List Row := x.front ++ x.rest

/-- The rows of a source, those of the loaded run and those of the group. -/
def left (x : Source) : List Row × List Row := (x.front, x.rest)

/-- The charges of the loaded run. -/
def charges (x : Source) : List ChargeId := (x.cursor?.map fun c => c.run.charges).getD []

/-- The source owns the resources, and reads its rows. -/
structure Holds (order : RowOrder) (arena : Array Batch) (x : Source) (S : Resources) : Prop where
  inOrder : InOrder order.rowLe x.rows
  group : ∃ T, x.group.Holds order x.rest T ∧ S = .charges x.charges + T
  cursor : match x.cursor? with
    | none => x.front = []
    | some c => c.Reads order arena x.front

/-- The source owns the resources. -/
def Keeps (x : Source) (S : Resources) : Prop :=
  ∃ T, x.group.Keeps T ∧ S = .charges x.charges + T

variable {arena arena' : Array Batch} {x : Source}

theorem Holds.keeps (h : x.Holds order arena S) : x.Keeps S := by
  obtain ⟨T, hT, hS⟩ := h.group
  exact ⟨T, hT.keeps, hS⟩

theorem Holds.grow (h : x.Holds order arena S) (ha : Grows arena arena') :
    x.Holds order arena' S := by
  refine ⟨h.inOrder, h.group, ?_⟩
  have hc := h.cursor
  split at hc
  · exact hc
  · exact hc.grow ha

/-- All rows of sources in key order, rows with equal keys in the order of their sources. -/
def merged (order : RowOrder) (xs : List Source) : List Row :=
  (xs.flatMap rows).mergeSort order.rowLe

theorem flatMap_rows_set {xs : List Source} {i : Nat} (hi : i < xs.length) (x : Source) :
    (xs.set i x).flatMap rows =
      (xs.take i).flatMap rows ++ (x.rows ++ (xs.drop (i + 1)).flatMap rows) := by
  rw [List.set_eq_take_append_cons_drop, if_pos hi, List.flatMap_append, List.flatMap_cons]

theorem flatMap_rows_eq {xs : List Source} {i : Nat} (hx : xs[i]? = some x) :
    xs.flatMap rows = (xs.take i).flatMap rows ++ (x.rows ++ (xs.drop (i + 1)).flatMap rows) := by
  obtain ⟨hi, rfl⟩ := List.getElem?_eq_some_iff.mp hx
  rw [← flatMap_rows_set hi, List.set_getElem_self]

end Source

namespace Merger

/-! ## The state of a merge -/

/-- The merger has these sources. -/
structure Has (m : Merger) (xs : List Source) : Prop where
  groups : m.groups.toList = xs.map Source.group
  cursors : m.cursors.toList = xs.map Source.cursor?

/-- The merger owns the resources. -/
def Keeps (m : Merger) (R : Resources) : Prop := ∃ xs, m.Has xs ∧ Shared Source.Keeps xs R

/-- The candidate shows the next row of its source, which is not away. -/
def Shows (order : RowOrder) (xs : List Source) (away : Nat → Prop) (c : Candidate) : Prop :=
  ¬away c.source ∧ ∃ x z, xs[c.source]? = some x ∧ x.front.head? = some z ∧ c.key = order.key z

/-- The merger reads these sources, and its frontier shows those that are not away. -/
structure Holds (order : RowOrder) (m : Merger) (xs : List Source) (away : Nat → Prop)
    (R : Resources) : Prop where
  order_eq : m.order = order
  has : m.Has xs
  parts : Shared (Source.Holds order m.arena) xs R
  schemas : ∀ b ∈ m.arena, b.schema = order.schema
  ordered : m.frontier.Ordered order
  nodup : (m.frontier.toList.map Candidate.source).Nodup
  frontier : ∀ c, c ∈ m.frontier.toList ↔ Shows order xs away c
  settled : ∀ (i : Nat) (x : Source), xs[i]? = some x → ¬away i → x.front = [] → x.rest = []

variable {m m' : Merger} {xs : List Source} {x x' : Source} {away away' : Nat → Prop} {i : Nat}

theorem Has.set {y : Source} (h : m.Has xs) (hg : m'.groups.toList = m.groups.toList.set i y.group)
    (hc : m'.cursors.toList = m.cursors.toList.set i y.cursor?) : m'.Has (xs.set i y) :=
  ⟨by rw [hg, h.groups, List.map_set], by rw [hc, h.cursors, List.map_set]⟩

theorem Has.cursor?_eq (h : m.Has xs) (hx : xs[i]? = some x) : m.cursor? i = x.cursor? := by
  rw [cursor?, ← Array.getElem?_toList, h.cursors, List.getElem?_map, hx]
  rfl

theorem Has.group_eq (h : m.Has xs) (hx : xs[i]? = some x) : m.groups[i]? = some x.group := by
  rw [← Array.getElem?_toList, h.groups, List.getElem?_map, hx]
  rfl

theorem Holds.keeps (h : m.Holds order xs away R) : m.Keeps R :=
  ⟨xs, h.has, h.parts.mono fun _ _ _ hx => hx.keeps⟩

/-- A source that was away is replaced, and its next row shown if it has one. -/
theorem Holds.replace (h : m.Holds order xs away R) (hx : xs[i]? = some x) (hi : away i)
    (ho : m'.order = order) (hg : m'.groups.toList = m.groups.toList.set i x'.group)
    (hc : m'.cursors.toList = m.cursors.toList.set i x'.cursor?)
    (hparts : Shared (Source.Holds order m'.arena) (xs.set i x') S)
    (hschemas : ∀ b ∈ m'.arena, b.schema = order.schema) (hord : m'.frontier.Ordered order)
    (hf : m'.frontier.toList.Perm
      ((x'.front.head?.map fun z => ⟨order.key z, i⟩).toList ++ m.frontier.toList))
    (hsettled : x'.front = [] → x'.rest = []) (haway : ∀ j, away' j ↔ away j ∧ j ≠ i) :
    m'.Holds order (xs.set i x') away' S := by
  have hlt : i < xs.length := (List.getElem?_eq_some_iff.mp hx).1
  have hself : (xs.set i x')[i]? = some x' := by simp [hlt]
  have hother : ∀ {j}, j ≠ i → (xs.set i x')[j]? = xs[j]? := fun hj =>
    List.getElem?_set_ne (Ne.symm hj)
  have hold : ∀ c ∈ m.frontier.toList, c.source ≠ i := fun c hm he =>
    ((h.frontier c).mp hm).1 (he ▸ hi)
  refine ⟨ho, h.has.set hg hc, hparts, hschemas, hord, ?_, fun c => ?_, fun j y hy hj hnil => ?_⟩
  · rw [(hf.map Candidate.source).nodup_iff]
    rcases x'.front.head? with _ | z
    · exact h.nodup
    · refine List.nodup_cons.mpr ⟨fun hm => ?_, h.nodup⟩
      obtain ⟨c, hm, he⟩ := List.mem_map.mp hm
      exact hold c hm he
  · rw [hf.mem_iff, List.mem_append, h.frontier]
    by_cases hci : c.source = i
    · constructor
      · rintro (hm | hs)
        · obtain ⟨z, hz, rfl⟩ := Option.map_eq_some_iff.mp (Option.mem_toList.mp hm)
          exact ⟨fun ha => ((haway i).mp ha).2 rfl, x', z, hself, hz, rfl⟩
        · exact absurd (hci ▸ hi) hs.1
      · rintro ⟨-, y, z, hy, hz, hk⟩
        rw [hci, hself] at hy
        obtain rfl := Option.some.inj hy
        refine .inl (Option.mem_toList.mpr (Option.map_eq_some_iff.mpr ⟨z, hz, ?_⟩))
        rw [← hk, ← hci]
    · have hs : Shows order (xs.set i x') away' c ↔ Shows order xs away c := by
        rw [Shows, Shows, hother hci, haway]
        simp [hci]
      rw [hs]
      refine or_iff_right fun hm => hci ?_
      obtain ⟨z, -, rfl⟩ := Option.map_eq_some_iff.mp (Option.mem_toList.mp hm)
      rfl
  · by_cases hji : j = i
    · subst hji
      rw [hself] at hy
      obtain rfl := Option.some.inj hy
      exact hsettled hnil
    · rw [hother hji] at hy
      exact h.settled j y hy (fun ha => hj ((haway j).mpr ⟨ha, hji⟩)) hnil

/-- Which sources are away matters only for those that there are. -/
theorem Holds.congr_away (h : m.Holds order xs away R)
    (ha : ∀ j < xs.length, away' j ↔ away j) : m.Holds order xs away' R := by
  have hlt : ∀ {j : Nat} {y : Source}, xs[j]? = some y → (away' j ↔ away j) := fun hy =>
    ha _ (List.getElem?_eq_some_iff.mp hy).1
  refine ⟨h.order_eq, h.has, h.parts, h.schemas, h.ordered, h.nodup, fun c => (h.frontier c).trans ?_,
    fun j y hy hj => h.settled j y hy fun hw => hj ((hlt hy).mpr hw)⟩
  constructor
  · rintro ⟨hw, y, z, hy, hz⟩
    exact ⟨fun hw' => hw ((hlt hy).mp hw'), y, z, hy, hz⟩
  · rintro ⟨hw, y, z, hy, hz⟩
    exact ⟨fun hw' => hw ((hlt hy).mpr hw'), y, z, hy, hz⟩

/-! ## Loading runs -/

/-- What stays the same while a merge goes on, and that the arena only grows. -/
structure Follows (m m' : Merger) : Prop where
  rowsLeft : m'.rowsLeft = m.rowsLeft
  arena : Grows m.arena m'.arena

theorem Follows.refl (m : Merger) : m.Follows m := ⟨rfl, .refl _⟩

theorem Follows.trans {m'' : Merger} (h : m.Follows m') (h' : m'.Follows m'') : m.Follows m'' :=
  ⟨h'.rowsLeft.trans h.rowsLeft, h.arena.trans h'.arena⟩

/-- Loading the next run of a source lets go of the loaded one and of the rows it had left. -/
theorem load_spec (away' : Nat → Prop) (h : m.Holds order xs away R) (hx : xs[i]? = some x)
    (hi : away i) (haway : ∀ j, away' j ↔ away j ∧ j ≠ i) (ho : Owns E w (R + S)) :
    Gives (load i)
      (fun _ s => ∃ x' R', x'.rows = x.rest ∧ s.1.Holds order (xs.set i x') away' R' ∧
        m.Follows s.1 ∧ Owns E s.2 (R' + S))
      (fun _ s => ∃ R', s.1.Keeps R' ∧ Owns E s.2 (R' + S)) (m, w) := by
  obtain rfl := h.order_eq
  obtain ⟨U, V, rfl, hU, hset⟩ := h.parts.exists_set hx
  obtain ⟨T, hT, rfl⟩ := hU.group
  have hrest : InOrder m.order.rowLe x.rest := hT.inOrder
  refine gives_load (fun hnone => ?_) fun g hg => ?_
  · rw [h.has.group_eq hx] at hnone
    cases hnone
  obtain rfl : x.group = g := Option.some.inj ((h.has.group_eq hx).symm.trans hg)
  rw [h.has.cursor?_eq hx]
  rw [add_assoc, add_assoc] at ho
  refine ho.dropAll.mono fun _ w ho => ?_
  refine (SortedGroup.nextRun_spec hT m.tracker ho).mono fun r w ht => ?_
  obtain ⟨e | _ | run, g⟩ := r
  · obtain ⟨T', hg, ho⟩ := ht
    rw [← add_assoc] at ho
    refine ⟨_, ⟨_, h.has.set (y := ⟨g, none, [], []⟩) (by simp [retire, setGroup])
      (by simp [retire, setGroup]),
      hset _ (fun _ _ hy => hy.keeps) _ _ ⟨T', hg, by simp [Source.charges]⟩⟩, ho⟩
  · obtain ⟨hnil, T', hg, ho⟩ := ht
    rw [← add_assoc] at ho
    refine ⟨⟨g, none, [], []⟩, _, hnil.symm, h.replace hx hi h.order_eq (by simp [retire, setGroup])
      (by simp [retire, setGroup]) (hset _ (fun _ _ hy => hy) _ _ ⟨.nil, ⟨T', hg, ?_⟩, rfl⟩)
      h.schemas h.ordered (.refl _) (fun _ => rfl) haway, ⟨rfl, .refl _⟩, ho⟩
    simp [Source.charges]
  · obtain ⟨front, rest, T', heq, hne, hreads, hg, ho⟩ := ht
    rw [← add_assoc] at ho
    have hlen : 0 < run.length := by
      rw [← hreads.length_eq]
      exact List.length_pos_iff.mpr hne
    have hcur : MergeCursor.Reads m.order (m.arena.push run.chunk.batch)
        ⟨run, 0, m.arena.size⟩ front :=
      ⟨⟨front, hreads, rfl⟩, hlen, by simp⟩
    obtain ⟨z, tail, hz, -, -, hkey, -⟩ := hcur.front_eq
    refine ⟨⟨g, some ⟨run, 0, m.arena.size⟩, front, rest⟩, _, heq.symm,
      h.replace hx hi h.order_eq (by simp [accept, retire, setGroup])
        (by simp [accept, retire, setGroup])
        (hset _ (fun y _ hy => hy.grow (.push m.arena run.chunk.batch)) _ _
          ⟨by rwa [heq] at hrest, ⟨T', hg, ?_⟩, hcur⟩) ?_ (Frontier.push_ordered h.ordered) ?_
        (fun hnil => absurd hnil hne) haway, ⟨rfl, .push _ _⟩, ho⟩
    · simp [Source.charges, SortedRun.held]
    · intro b hb
      rcases Array.mem_push.mp hb with hb | rfl
      · exact h.schemas b hb
      · exact hreads.schema
    · rw [hz, List.head?_cons, Option.map_some, ← hkey]
      exact Frontier.push_perm _ _

/-- Letting go of a merger gives up what it owns. -/
theorem drop_spec (h : m.Keeps R) (ho : Owns E w (R + S)) :
    Ensures m.drop (fun _ w => Owns E w S) w := by
  obtain ⟨xs, hxs, hR⟩ := h
  have hsplit : ∃ G, Shared SortedGroup.Keeps (xs.map Source.group) G ∧
      R = G + .charges ((xs.map Source.cursor?).filterMap id |>.flatMap fun c => c.run.charges) := by
    clear hxs ho
    induction hR with
    | nil => exact ⟨0, .nil, rfl⟩
    | @cons x xs U V hx _ ih =>
      obtain ⟨T, hT, rfl⟩ := hx
      obtain ⟨G, hG, rfl⟩ := ih
      refine ⟨T + G, .cons hT hG, ?_⟩
      rcases hc : x.cursor? with _ | c
      · simp [Source.charges, hc, add_assoc]
      · simp only [Source.charges, hc, Option.map_some, Option.getD_some, List.map_cons,
          List.filterMap_cons, id_eq, List.flatMap_cons, Resources.charges_append]
        abel
  obtain ⟨G, hG, rfl⟩ := hsplit
  unfold drop liveCursors
  rw [hxs.groups, hxs.cursors, Ensures.bind_iff]
  rw [add_assoc] at ho
  exact (SortedGroup.dropAll_spec hG ho).mono fun _ w ho => ho.dropAll

/-! ## Starting a merge -/

theorem loadAll_spec : ∀ (count start : Nat) {m : Merger} {xs : List Source} {R : Resources}
    {w : Workspace}, m.Holds order xs (start ≤ ·) R → xs.length = start + count →
    (∀ (i : Nat) (x : Source), start ≤ i → xs[i]? = some x → x.front = []) → Owns E w (R + S) →
    Gives (loadAll count start)
      (fun _ s => ∃ ys R', ys.map Source.rows = xs.map Source.rows ∧
        s.1.Holds order ys (fun _ => False) R' ∧ s.1.rowsLeft = m.rowsLeft ∧ Owns E s.2 (R' + S))
      (fun _ s => ∃ R', s.1.Keeps R' ∧ Owns E s.2 (R' + S)) (m, w)
  | 0, start, m, xs, R, w, h, hlen, _, ho => by
    unfold loadAll
    rw [Gives.pure_iff]
    exact ⟨xs, R, rfl, h.congr_away fun j hj => iff_of_false not_false (by omega), rfl, ho⟩
  | count + 1, start, m, xs, R, w, h, hlen, hfront, ho => by
    have hlt : start < xs.length := by omega
    have hx : xs[start]? = some xs[start] := List.getElem?_eq_getElem hlt
    refine gives_loadAll_succ ?_
    refine (load_spec (start + 1 ≤ ·) h hx (Nat.le_refl _) (fun j => by omega) ho).mono
      (fun _ s hs => ?_) fun _ _ hs => hs
    obtain ⟨x', R', hx', hm, hf, ho⟩ := hs
    refine (loadAll_spec count (start + 1) hm (by rw [List.length_set]; omega) (fun i y hi hy => ?_)
      ho).mono (fun _ s hs => ?_) fun _ _ hs => hs
    · rw [List.getElem?_set_ne (by omega)] at hy
      exact hfront i y (by omega) hy
    · obtain ⟨ys, R'', hys, hm', hl, ho⟩ := hs
      refine ⟨ys, R'', hys.trans ?_, hm', hl.trans hf.rowsLeft, ho⟩
      have hsame : x'.rows = xs[start].rows := by
        rw [hx', Source.rows, hfront start _ (Nat.le_refl _) hx, List.nil_append]
      rw [List.map_set, hsame, ← List.map_set, List.set_getElem_self]

/-- A merge starts with the rows of its groups. -/
theorem ofGroups_spec {ps : List (SortedGroup × List Row)}
    (h : Shared (fun p S => p.1.Holds order p.2 S) ps R) (tracker : TrackerId)
    (ho : Owns E w (R + S)) :
    Gives (ofGroups order tracker (ps.map Prod.fst))
      (fun m w => ∃ xs R', xs.map Source.rows = ps.map Prod.snd ∧
        m.Holds order xs (fun _ => False) R' ∧
        m.rowsLeft = total (ps.map fun p => p.1.rows) ∧ Owns E w (R' + S))
      (fun _ w => Owns E w S) w := by
  have hstart : Holds order (unloaded order tracker (ps.map Prod.fst))
      (ps.map fun p => ⟨p.1, none, [], p.2⟩) (0 ≤ ·) R := by
    unfold unloaded
    refine ⟨rfl, ⟨?_, ?_⟩, h.map fun p _ S hp => ?_, by simp, by rw [Frontier.Ordered]; trivial,
      by simp, fun c => ?_, fun i x _ hi => absurd (Nat.zero_le i) hi⟩
    · simp
    · simp [Function.comp_def]
    · exact ⟨hp.inOrder, ⟨S, hp, by simp [Source.charges]⟩, rfl⟩
    · simp [Shows]
  refine gives_ofGroups ((loadAll_spec _ 0 hstart (by simp) (fun i x _ hx => ?_) ho).mono
    (fun _ s hs => ?_) fun _ s hs => ?_)
  · obtain ⟨p, -, rfl⟩ := List.mem_map.mp (List.mem_of_getElem? hx)
    rfl
  · obtain ⟨ys, R', hys, hm, hl, ho⟩ := hs
    exact ⟨ys, R', by simpa [Function.comp_def, Source.rows] using hys, hm,
      by simpa [unloaded, Function.comp_def] using hl, ho⟩
  · obtain ⟨R', hm, ho⟩ := hs
    exact drop_spec hm ho

/-! ## The next row -/

/-- All rows of a source are behind its next one. -/
theorem Holds.head_le (h : m.Holds order xs away R) (hx : xs[i]? = some x) (ha : ¬away i)
    {r : Row} (hr : r ∈ x.rows) : ∃ z, x.front.head? = some z ∧ order.rowLe z r := by
  have hin : InOrder order.rowLe x.rows := by
    obtain ⟨U, V, -, hU, -⟩ := h.parts.exists_set hx
    exact hU.inOrder
  rcases hf : x.front with _ | ⟨z, tail⟩
  · rw [Source.rows, hf, h.settled i x hx ha hf] at hr
    cases hr
  · refine ⟨z, by rw [List.head?_cons], ?_⟩
    rw [Source.rows, hf, List.cons_append] at hin hr
    rcases List.mem_cons.mp hr with rfl | hr
    · exact order.rowLe_preordering.refl r
    · exact (List.pairwise_cons.mp hin).1 r hr

/-- The row of the candidate that is taken out comes first among all rows. -/
theorem merged_of_pop {c : Candidate} {f : Frontier}
    (h : m.Holds order xs (fun _ => False) R) (hp : m.frontier.pop? order = some (c, f)) :
    ∃ x z tail, xs[c.source]? = some x ∧ x.front = z :: tail ∧
      ∀ x', x'.rows = tail ++ x.rest →
        Source.merged order xs = z :: Source.merged order (xs.set c.source x') := by
  obtain ⟨-, -, hmin⟩ := Frontier.pop_spec h.ordered hp
  have hc : c ∈ m.frontier.toList := (Frontier.pop_spec h.ordered hp).1.mem_iff.mpr
    List.mem_cons_self
  obtain ⟨-, x, z, hx, hz, hk⟩ := (h.frontier c).mp hc
  obtain ⟨tail, hfront⟩ : ∃ tail, x.front = z :: tail := List.head?_eq_some_iff.mp hz
  refine ⟨x, z, tail, hx, hfront, fun x' hx' => ?_⟩
  -- what another source shows does not go before the candidate
  have hother : ∀ {j y r}, xs[j]? = some y → r ∈ y.rows → ∃ s, order.rowLe s r ∧
      c.le order ⟨order.key s, j⟩ := by
    intro j y r hy hr
    obtain ⟨s, hs, hle⟩ := h.head_le hy (fun h => h) hr
    exact ⟨s, hle, hmin _ ((h.frontier ⟨order.key s, j⟩).mpr ⟨fun h => h, y, s, hy, hs, rfl⟩)⟩
  have hlt := (List.getElem?_eq_some_iff.mp hx).1
  have hpre := order.rowLe_preordering
  rw [Source.merged, Source.merged, Source.flatMap_rows_eq hx, Source.flatMap_rows_set hlt, hx',
    Source.rows, hfront, List.cons_append, List.cons_append]
  refine hpre.mergeSort_append_cons (fun r hr => ?_) fun r hr => ?_
  · obtain ⟨y, hy, hr⟩ := List.mem_flatMap.mp hr
    obtain ⟨j, hj⟩ := List.mem_iff_getElem?.mp hy
    have hji : j < c.source := by
      have := (List.getElem?_eq_some_iff.mp hj).1
      rw [List.length_take] at this
      omega
    rw [List.getElem?_take_of_lt hji] at hj
    obtain ⟨s, hle, hcs⟩ := hother hj hr
    have hzs : order.rowLe s z = false := Candidate.rowLe_of_earlier hk hji hcs
    by_contra hrz
    exact Bool.false_ne_true (hzs.symm.trans (hpre.trans s r z hle (by simpa using hrz)))
  · rcases List.mem_append.mp hr with hr | hr
    · obtain ⟨U, V, -, hU, -⟩ := h.parts.exists_set hx
      have hin := hU.inOrder
      rw [Source.rows, hfront, List.cons_append] at hin
      exact (List.pairwise_cons.mp hin).1 r hr
    · obtain ⟨y, hy, hr⟩ := List.mem_flatMap.mp hr
      obtain ⟨j, hj⟩ := List.mem_iff_getElem?.mp hy
      rw [List.getElem?_drop] at hj
      obtain ⟨s, hle, hcs⟩ := hother hj hr
      have hzs : order.rowLe z s := Candidate.rowLe_of_le hk hcs
      exact hpre.trans z s r hzs hle

/-- Once its candidate is taken out, a source is away. -/
theorem Holds.popped {c : Candidate} {f : Frontier}
    (h : m.Holds order xs (fun _ => False) R) (hp : m.frontier.pop? order = some (c, f)) :
    Holds order { m with frontier := f } xs (· = c.source) R := by
  obtain ⟨hperm, hord, -⟩ := Frontier.pop_spec h.ordered hp
  have hnd := (hperm.map Candidate.source).nodup_iff.mp h.nodup
  rw [List.map_cons, List.nodup_cons] at hnd
  refine ⟨h.order_eq, ⟨h.has.groups, h.has.cursors⟩, h.parts, h.schemas, hord, hnd.2, fun d => ?_,
    fun j y hy _ => h.settled j y hy fun h => h⟩
  have hd := h.frontier d
  rw [hperm.mem_iff, List.mem_cons] at hd
  constructor
  · intro hm
    refine ⟨fun he => hnd.1 (List.mem_map.mpr ⟨d, hm, he⟩), (hd.mp (.inr hm)).2⟩
  · rintro ⟨hne, hs⟩
    refine (hd.mpr ⟨fun h => h, hs⟩).resolve_left fun he => hne ?_
    rw [he]

/-- With nothing in the frontier no source has rows. -/
theorem Holds.merged_eq_nil (h : m.Holds order xs (fun _ => False) R)
    (hp : m.frontier.pop? order = none) : Source.merged order xs = [] := by
  have hnil : ∀ x ∈ xs, x.rows = [] := by
    intro x hx
    obtain ⟨i, hi⟩ := List.mem_iff_getElem?.mp hx
    refine List.eq_nil_iff_forall_not_mem.mpr fun r hr => ?_
    obtain ⟨z, hz, -⟩ := h.head_le hi (fun h => h) hr
    have hm := (h.frontier ⟨order.key z, i⟩).mpr ⟨fun h => h, x, z, hi, hz, rfl⟩
    rw [Frontier.toList_of_pop_none hp] at hm
    cases hm
  rw [Source.merged, List.flatMap_eq_nil_iff.mpr hnil, List.mergeSort_nil]

/-! ## Picking rows -/

/-- The candidate that is taken is that of a source with rows, which is away until it shows the next
one. -/
theorem Holds.popCandidate {c : Candidate} (h : m.Holds order xs (fun _ => False) R)
    (hp : m.popCandidate = (some c, m')) :
    ∃ f x z tail, m' = { m with frontier := f } ∧ xs[c.source]? = some x ∧ x.front = z :: tail ∧
      (∀ x', x'.rows = tail ++ x.rest →
        Source.merged order xs = z :: Source.merged order (xs.set c.source x')) ∧
      m'.Holds order xs (· = c.source) R := by
  obtain ⟨f, hpop, rfl⟩ := popCandidate_eq_some hp
  rw [h.order_eq] at hpop
  obtain ⟨x, z, tail, hx, hz, hmerged⟩ := merged_of_pop h hpop
  exact ⟨f, x, z, tail, rfl, hx, hz, hmerged, h.popped hpop⟩

/-- What comes of picking at most `count` rows: so many off the front of what there was, all of them
if there are fewer, and a merger that has the others. -/
def Picked (E : Surroundings) (order : RowOrder) (S : Resources) (m : Merger) (xs : List Source)
    (count : Nat) (picked picked' : Array (Nat × Nat)) (s : Merger × Workspace) : Prop :=
  ∃ new xs' R', picked'.toList = picked.toList ++ new ∧ (∀ i ∈ new, Batch.holds s.1.arena i) ∧
    Source.merged order xs = new.map (Batch.rowAt s.1.arena) ++ Source.merged order xs' ∧
    new.length ≤ count ∧ (new.length < count → Source.merged order xs' = []) ∧
    s.1.Holds order xs' (fun _ => False) R' ∧ m.Follows s.1 ∧ Owns E s.2 (R' + S)

/-- One row more. -/
theorem Picked.cons {count : Nat} {picked picked' : Array (Nat × Nat)} {s : Merger × Workspace}
    {row : Nat × Nat} {z : Row} {xs' : List Source} (hz : Source.merged order xs =
      z :: Source.merged order xs') (hrow : Batch.holds m.arena row)
    (hat : Batch.rowAt m.arena row = z) (hm : m.Follows m')
    (h : Picked E order S m' xs' count (picked.push row) picked' s) :
    Picked E order S m xs (count + 1) picked picked' s := by
  obtain ⟨new, ys, R', hp, hnew, hmerged, hle, hall, hh, hf, ho⟩ := h
  have hgrow := (hm.trans hf).arena.holds hrow
  refine ⟨row :: new, ys, R', ?_, List.forall_mem_cons.mpr ⟨hgrow.1, hnew⟩, ?_,
    Nat.succ_le_succ hle, fun hlt => hall (Nat.lt_of_succ_lt_succ hlt), hh, hm.trans hf, ho⟩
  · rw [hp, Array.toList_push, List.append_assoc, List.singleton_append]
  · rw [hz, hmerged, List.map_cons, hgrow.2, hat, List.cons_append]

/-- A source with rows in front shows the first of them: the cursor moves on, or has read its run. -/
theorem takeRow_spec (h : m.Holds order xs (· = i) R) (hx : xs[i]? = some x) {z : Row}
    {tail : List Row} (hz : x.front = z :: tail) {row? : Option ((Nat × Nat) × Bool)}
    (ht : m.takeRow i = (row?, m')) :
    ∃ row last, row? = some (row, last) ∧ Batch.holds m.arena row ∧
      Batch.rowAt m.arena row = z ∧ m.Follows m' ∧
      if last then tail = [] ∧ m' = m
      else ∃ x', x'.rows = tail ++ x.rest ∧ m'.Holds order (xs.set i x') (fun _ => False) R := by
  obtain rfl := h.order_eq
  obtain ⟨U, V, rfl, hU, hset⟩ := h.parts.exists_set hx
  have hcur := hU.cursor
  split at hcur
  · rw [hcur] at hz
    cases hz
  next c hc =>
  have hsame : m.cursor? i = some c := (h.has.cursor?_eq hx).trans hc
  obtain ⟨z', tail', hz', hrow, hat, -, hnext⟩ := hcur.front_eq
  obtain ⟨rfl, rfl⟩ := List.cons.inj (hz.symm.trans hz')
  rcases row? with _ | ⟨row, last⟩
  · cases (takeRow_eq_none ht).1.symm.trans hsame
  obtain ⟨c', hc', rfl, hm⟩ := takeRow_eq_some ht
  obtain rfl : c = c' := Option.some.inj (hsame.symm.trans hc')
  cases last with
  | true =>
    obtain ⟨hge, rfl⟩ := hm
    rw [if_neg (Nat.not_lt.mpr hge)] at hnext
    exact ⟨_, true, rfl, hrow, hat, .refl _, hnext, rfl⟩
  | false =>
    obtain ⟨hlt, rfl⟩ := hm
    rw [if_pos hlt] at hnext
    obtain ⟨T, hT, rfl⟩ := hU.group
    have hin := hU.inOrder
    rw [Source.rows, hz, List.cons_append] at hin
    obtain ⟨z', tail', hz', -, -, hkey, -⟩ := hnext.front_eq
    refine ⟨_, false, rfl, hrow, hat, ⟨rfl, .refl _⟩, ?_⟩
    refine ⟨⟨x.group, some { c with position := c.position + 1 }, tail, x.rest⟩, rfl, ?_⟩
    refine h.replace hx rfl rfl ?_ (by simp)
      (hset _ (fun _ _ hy => hy) _ _ ⟨(List.pairwise_cons.mp hin).2, ⟨T, hT, ?_⟩, hnext⟩)
      h.schemas (Frontier.push_ordered h.ordered) ?_ (fun hnil => ?_) fun j => by simp
    · obtain ⟨hi, rfl⟩ := List.getElem?_eq_some_iff.mp hx
      show m.groups.toList = m.groups.toList.set i (xs[i]).group
      rw [h.has.groups, ← List.map_set, List.set_getElem_self]
    · simp [Source.charges, hc]
    · rw [hz', List.head?_cons, Option.map_some, ← hkey]
      exact Frontier.push_perm _ _
    · rw [hz'] at hnil
      cases hnil

theorem pick_spec : ∀ (count : Nat) (picked : Array (Nat × Nat)) {m : Merger} {xs : List Source}
    {R : Resources} {w : Workspace}, m.Holds order xs (fun _ => False) R → Owns E w (R + S) →
    Gives (pick count picked) (Picked E order S m xs count picked)
      (fun _ s => ∃ R', s.1.Keeps R' ∧ Owns E s.2 (R' + S)) (m, w)
  | 0, picked, m, xs, R, w, h, ho => by
    unfold pick
    rw [Gives.pure_iff]
    exact ⟨[], xs, R, by simp, by simp, by simp, Nat.le_refl _, by simp, h, .refl m, ho⟩
  | count + 1, picked, m, xs, R, w, h, ho => by
    refine gives_pick_succ (fun m₁ hpop => ?_) (fun c m₁ m₂ hpop htake => ?_)
      (fun c m₁ row m₂ hpop htake => ?_) fun c m₁ row m₂ hpop htake => ?_
    · obtain ⟨hp, rfl⟩ := popCandidate_eq_none hpop
      rw [h.order_eq] at hp
      have hnil := h.merged_eq_nil hp
      have hf := h.frontier
      simp only [Frontier.toList_of_pop_none hp] at hf
      exact ⟨[], xs, R, by simp, by simp, by simp, Nat.zero_le _, fun _ => hnil,
        ⟨h.order_eq, ⟨h.has.groups, h.has.cursors⟩, h.parts, h.schemas, by rw [Frontier.Ordered]; trivial,
          by simp, by simpa using hf, h.settled⟩, ⟨rfl, .refl _⟩, ho⟩
    · -- the source of a candidate has a row
      obtain ⟨f, x, z, tail, rfl, hx, hz, -, haway⟩ := h.popCandidate hpop
      obtain ⟨row, last, hrow?, -⟩ := takeRow_spec haway hx hz htake
      cases hrow?
    · obtain ⟨f, x, z, tail, rfl, hx, hz, hmerged, haway⟩ := h.popCandidate hpop
      obtain ⟨_, _, hrow?, hrow, hat, hfol, hnext⟩ := takeRow_spec haway hx hz htake
      cases hrow?
      obtain ⟨x', hx', hm'⟩ := hnext
      refine (pick_spec count (picked.push row) hm' ho).mono (fun p s hs => ?_) fun _ _ hs => hs
      exact Picked.cons (hmerged x' hx') hrow hat ⟨hfol.rowsLeft, hfol.arena⟩ hs
    · obtain ⟨f, x, z, tail, rfl, hx, hz, hmerged, haway⟩ := h.popCandidate hpop
      obtain ⟨_, _, hrow?, hrow, hat, -, hnext⟩ := takeRow_spec haway hx hz htake
      cases hrow?
      obtain ⟨rfl, rfl⟩ := hnext
      refine (load_spec (fun _ => False) haway hx rfl (by simp) ho).mono
        (fun _ s hs => ?_) fun _ _ hs => hs
      obtain ⟨x', R', hx', hm', hfol, ho⟩ := hs
      refine (pick_spec count (picked.push row) hm' ho).mono (fun p s hs => ?_) fun _ _ hs => hs
      exact Picked.cons (hmerged x' hx') hrow hat ⟨hfol.rowsLeft, hfol.arena⟩ hs

/-! ## Chunks -/

/-- Moving the batches of loaded runs to a new arena. -/
theorem keepBatches {arena : Array Batch} {xs : List Source} {R : Resources}
    (h : Shared (Source.Holds order arena) xs R) (cs : Array (Option MergeCursor))
    (kept : Array Batch) (hkept : ∀ b ∈ kept, b.schema = order.schema) :
    ∃ ys cs' kept', (xs.map Source.cursor?).foldl (keepBatch arena) (cs, kept) = (cs', kept') ∧
      cs'.toList = cs.toList ++ ys.map Source.cursor? ∧ ys.map Source.group = xs.map Source.group ∧
      ys.map Source.left = xs.map Source.left ∧
      Grows kept kept' ∧ (∀ b ∈ kept', b.schema = order.schema) ∧
      Shared (Source.Holds order kept') ys R := by
  induction h generalizing cs kept with
  | nil => exact ⟨[], cs, kept, rfl, by simp, rfl, rfl, .refl _, hkept, .nil⟩
  | @cons x xs S T hx hxs ih =>
    have hc := hx.cursor
    split at hc
    · next hnil =>
      obtain ⟨ys, cs', kept', hfold, hcs, hg, hf, hgrow, hs, hys⟩ := ih (cs.push none) kept hkept
      refine ⟨x :: ys, cs', kept', ?_, ?_, ?_, ?_, hgrow, hs,
        .cons ⟨hx.inOrder, hx.group, by rw [hnil]; exact hc⟩ hys⟩
      · rw [List.map_cons, List.foldl_cons, hnil, keepBatch, hfold]
      · simp [hcs, hnil]
      · rw [List.map_cons, List.map_cons, hg]
      · rw [List.map_cons, List.map_cons, hf]
    · next c hsc =>
      have hb : arena.getD c.slot default = c.run.chunk.batch := by
        rw [Array.getD_eq_getD_getElem?, hc.slot, Option.getD_some]
      obtain ⟨rows, hreads, hfront⟩ := hc.run
      obtain ⟨ys, cs', kept', hfold, hcs, hg, hf, hgrow, hs, hys⟩ :=
        ih (cs.push (some { c with slot := kept.size })) (kept.push c.run.chunk.batch) fun b hm => by
          rcases Array.mem_push.mp hm with hm | rfl
          · exact hkept b hm
          · exact hreads.schema
      refine ⟨⟨x.group, some { c with slot := kept.size }, x.front, x.rest⟩ :: ys, cs', kept', ?_, ?_,
        ?_, ?_, (Grows.push _ _).trans hgrow, hs, .cons ⟨hx.inOrder, ?_, ?_⟩ hys⟩
      · rw [List.map_cons, List.foldl_cons, hsc, keepBatch, hb, hfold]
      · simp [hcs]
      · rw [List.map_cons, List.map_cons, hg]
      · rw [List.map_cons, List.map_cons, hf]
        rfl
      · obtain ⟨T, hT, hS⟩ := hx.group
        exact ⟨T, hT, by simpa [Source.charges, hsc] using hS⟩
      · exact ⟨⟨rows, hreads, hfront⟩, hc.inRun, hgrow _ _ (by simp)⟩

theorem compact_spec (h : m.Holds order xs (fun _ => False) R) :
    ∃ ys, Source.merged order ys = Source.merged order xs ∧
      m.compact.Holds order ys (fun _ => False) R := by
  obtain ⟨ys, cs', kept', hfold, hcs, hg, hf, -, hs, hys⟩ :=
    keepBatches h.parts (Array.emptyWithCapacity m.cursors.size) #[] (by simp)
  have hlook : ∀ i : Nat, ys[i]?.map Source.left = xs[i]?.map Source.left := fun i => by
    rw [← List.getElem?_map, ← List.getElem?_map, hf]
  rw [← h.has.cursors, Array.foldl_toList] at hfold
  have hcompact : m.compact = { m with cursors := cs', arena := kept' } := by
    simp only [compact, hfold]
  rw [hcompact]
  refine ⟨ys, ?_, h.order_eq, ⟨h.has.groups.trans hg.symm, by simpa using hcs⟩, hys, hs, h.ordered,
    h.nodup, fun c => (h.frontier c).trans ?_, fun i y hy _ hnil => ?_⟩
  · have hrows : ys.flatMap Source.rows = xs.flatMap Source.rows := by
      have := congrArg (List.flatMap fun p : List Row × List Row => p.1 ++ p.2) hf
      rwa [List.flatMap_map, List.flatMap_map] at this
    rw [Source.merged, Source.merged, hrows]
  · have hl := hlook c.source
    refine and_congr_right fun _ => ⟨?_, ?_⟩
    · rintro ⟨x, z, hx, hz, hk⟩
      rw [hx, Option.map_some] at hl
      obtain ⟨y, hy, he⟩ := Option.map_eq_some_iff.mp hl
      exact ⟨y, z, hy, (congrArg (·.1.head?) he).trans hz, hk⟩
    · rintro ⟨y, z, hy, hz, hk⟩
      rw [hy, Option.map_some] at hl
      obtain ⟨x, hx, he⟩ := Option.map_eq_some_iff.mp hl.symm
      exact ⟨x, z, hx, (congrArg (·.1.head?) he).trans hz, hk⟩
  · have hl := hlook i
    rw [hy, Option.map_some] at hl
    obtain ⟨x, hx, he⟩ := Option.map_eq_some_iff.mp hl.symm
    have hrest : x.rest = y.rest := congrArg (·.2) he
    rw [← hrest]
    exact h.settled i x hx (fun h => h) ((congrArg (·.1) he).trans hnil)

theorem settle_spec (h : m.Holds order xs (fun _ => False) R) (rows : Nat) :
    ∃ ys, Source.merged order ys = Source.merged order xs ∧
      (m.settle rows).Holds order ys (fun _ => False) R ∧
      (m.settle rows).rowsLeft = m.rowsLeft - rows :=
  have h' : Holds order { m with rowsLeft := m.rowsLeft - rows } xs (fun _ => False) R :=
    ⟨h.order_eq, ⟨h.has.groups, h.has.cursors⟩, h.parts, h.schemas, h.ordered, h.nodup, h.frontier,
      h.settled⟩
  let ⟨ys, hys, hc⟩ := compact_spec h'
  ⟨ys, hys, hc, rfl⟩

/-- A merge that has no rows left needs no batches. -/
theorem Holds.clear (h : m.Holds order xs (fun _ => False) R) (hnil : Source.merged order xs = []) :
    Holds order { m with arena := #[] } xs (fun _ => False) R := by
  have hrows : xs.flatMap Source.rows = [] := by
    refine List.eq_nil_of_length_eq_zero ?_
    rw [← (List.mergeSort_perm (xs.flatMap Source.rows) order.rowLe).length_eq]
    exact congrArg List.length hnil
  refine ⟨h.order_eq, ⟨h.has.groups, h.has.cursors⟩, h.parts.mono fun x hx S hs => ?_, by simp,
    h.ordered, h.nodup, h.frontier, h.settled⟩
  refine ⟨hs.inOrder, hs.group, ?_⟩
  have hfront : x.front = [] := (List.append_eq_nil_iff.mp (List.flatMap_eq_nil_iff.mp hrows x hx)).1
  have hcursor := hs.cursor
  split at hcursor
  · exact hcursor
  · obtain ⟨z, tail, hz, -⟩ := hcursor.front_eq
    rw [hfront] at hz
    cases hz

/-- What comes of merging at most `count` rows into a chunk, if all rows were `rows`. -/
def Merged (E : Surroundings) (order : RowOrder) (S : Resources) (m : Merger) (count : Nat)
    (rows : List Row) (result : Option Chunk) (s : Merger × Workspace) : Prop :=
  match result with
  | none => rows = [] ∧ ∃ xs' R', Source.merged order xs' = [] ∧
      s.1.Holds order xs' (fun _ => False) R' ∧ s.1.rowsLeft = m.rowsLeft ∧ Owns E s.2 (R' + S)
  | some chunk => ∃ xs' R', rows = chunk.batch.table ++ Source.merged order xs' ∧
      chunk.batch.schema = order.schema ∧ 0 < chunk.length ∧ chunk.length = min count rows.length ∧
      s.1.Holds order xs' (fun _ => False) R' ∧ s.1.rowsLeft = m.rowsLeft - chunk.length ∧
      Owns E s.2 (chunk.held + (R' + S))

theorem nextChunk_spec (h : m.Holds order xs (fun _ => False) R) (ho : Owns E w (R + S))
    (maxRows : Nat) :
    Gives (nextChunk maxRows) (Merged E order S m (max maxRows 1) (Source.merged order xs))
      (fun _ s => ∃ R', s.1.Keeps R' ∧ Owns E s.2 (R' + S)) (m, w) := by
  refine gives_nextChunk (pick_spec (max maxRows 1) #[] h ho) (fun s hs => ?_)
    (fun picked s batch hs hne hb => ?_) fun picked s e hs hne he => ?_
  · obtain ⟨new, ys, R', hp, -, hmerged, -, hall, hm, hf, ho⟩ := hs
    obtain rfl : new = [] := by simpa using hp.symm
    have hdone : Source.merged order ys = [] := hall (by rw [List.length_nil]; omega)
    rw [List.map_nil, List.nil_append, hdone] at hmerged
    exact ⟨hmerged, ys, R', hdone, hm.clear hdone, hf.rowsLeft, ho⟩
  · obtain ⟨new, ys, R', hp, hnew, hmerged, hle, hall, hm, hf, ho⟩ := hs
    rw [List.nil_append] at hp
    have hsize : picked.size = new.length := by rw [← Array.length_toList, hp]
    rw [hm.order_eq] at hb
    obtain ⟨hschema, hrows, htable⟩ := Batch.gather_ok hm.schemas hb
    have hpos : picked.size ≠ 0 := fun h0 => hne (Array.size_eq_zero_iff.mp h0)
    obtain ⟨zs, hzs, hc⟩ := settle_spec hm picked.size
    refine (ho.tracked batch s.1.tracker).mono fun chunk w hchunk => ?_
    obtain ⟨hbatch, ho⟩ := hchunk
    have hlen : chunk.length = picked.size := by rw [Chunk.length, hbatch, hrows]
    refine ⟨zs, R', ?_, hbatch ▸ hschema, ?_, ?_, hc.1, ?_, ho⟩
    · rw [hmerged, hbatch, htable, hp, hzs]
    · omega
    · rw [hmerged, List.length_append, List.length_map]
      rcases Nat.lt_or_ge new.length (max maxRows 1) with hless | hfull
      · rw [hall hless, List.length_nil]
        omega
      · omega
    · rw [hlen, hc.2, hf.rowsLeft]
  · obtain ⟨new, ys, R', -, -, -, -, -, hm, -, ho⟩ := hs
    exact ⟨R', hm.keeps, ho⟩

end Merger

end SpillSort
