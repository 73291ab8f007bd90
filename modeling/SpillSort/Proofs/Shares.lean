import SpillSort.Proofs.Resident

/-!
# Shares of chunks

A chunk that comes in answers for all of its charge, and its slices for no more than that: each for
its share, rounded down. A chunk without a charge has no bytes once it was moved to the operator's
tracker, and neither have its slices.

* `Batch.bytes_slice_le` and `Account.total_share_le` are the facts about slices.
* `Operator.transfer_backed` takes in a chunk, `Operator.Backed.split` turns its stake into those of
  its slices, and `Operator.slice_backed` cuts one of them out.
-/

namespace SpillSort

open Memory Spill
open Workspace (Steady)

/-! ## Buffers -/

theorem hasNull_mono {vs ws : List Value} (h : vs ⊆ ws) (hn : hasNull vs) : hasNull ws := by
  obtain ⟨v, hv, hnull⟩ := List.any_eq_true.mp hn
  exact List.any_eq_true.mpr ⟨v, h hv, hnull⟩

/-- The null bitmap counts for some rows only if it counts for more. -/
theorem nulls_mono {vs ws : List Value} (h : vs ⊆ ws) (nulls : Nat) :
    (if hasNull vs then nulls else 0) ≤ if hasNull ws then nulls else 0 := by
  split
  · next hn => rw [if_pos (hasNull_mono h hn)]
  · exact Nat.zero_le _

mutual

/-- Fewer rows do not have more bytes under them. -/
theorem Buffers.bytes_mono {vs ws : List Value} (h : vs ⊆ ws) :
    ∀ f : Buffers, f.bytes vs ≤ f.bytes ws
  | .flat data nulls => Nat.add_le_add_left (nulls_mono h nulls) data
  | .parts nulls columns => Nat.add_le_add (nulls_mono h nulls) (Buffers.partBytes_mono h columns 0)

theorem Buffers.partBytes_mono {vs ws : List Value} (h : vs ⊆ ws) :
    ∀ (fs : List Buffers) (k : Nat), Buffers.partBytes fs k vs ≤ Buffers.partBytes fs k ws
  | [], _ => Nat.le_refl _
  | f :: fs, k => Nat.add_le_add (Buffers.bytes_mono (List.map_subset _ h) f)
    (Buffers.partBytes_mono h fs (k + 1))

end

theorem total_map_le {α : Type} {f g : α → Nat} {xs : List α} (h : ∀ x ∈ xs, f x ≤ g x) :
    total (xs.map f) ≤ total (xs.map g) := by
  induction xs with
  | nil => exact Nat.le_refl _
  | cons x xs ih =>
    obtain ⟨hx, hxs⟩ := List.forall_mem_cons.mp h
    exact Nat.add_le_add hx (ih hxs)

/-- A slice has no more bytes under it than its batch. -/
theorem Batch.bytes_slice_le (b : Batch) (offset length : Nat) :
    (b.slice offset length).bytes ≤ b.bytes := by
  simp only [bytes, slice, Array.toList_map, Array.toList_zip, List.zip_map_right, List.map_map]
  refine total_map_le fun x _ => ?_
  obtain ⟨f?, c⟩ := x
  cases f? with
  | none => exact Nat.le_refl _
  | some f =>
    refine f.bytes_mono fun v hv => ?_
    rw [Array.toList_extract, List.extract_eq_take_drop] at hv
    exact List.mem_of_mem_drop (List.mem_of_mem_take hv)

/-! ## Shares -/

namespace Account

variable {a : Account}

theorem share_mul_le {n : Nat} (h : n ≤ a.rows) : a.share n * a.rows ≤ a.bytes * n := by
  unfold share
  split
  · next hall =>
    rcases hall with hge | hzero
    · rw [Nat.le_antisymm h hge]
    · rw [hzero] at h ⊢
      simp
  · exact Nat.div_mul_le_self _ _

/-- Shares of parts that do not make up more rows than the whole do not exceed it. -/
theorem total_share_le {ns : List Nat} (hrows : 0 < a.rows) (h : total ns ≤ a.rows) :
    total (ns.map a.share) ≤ a.bytes := by
  have hmul : total (ns.map a.share) * a.rows ≤ a.bytes * total ns := by
    induction ns with
    | nil => simp
    | cons n ns ih =>
      rw [total_cons] at h
      have hhead := a.share_mul_le (n := n) (by omega)
      have htail := ih (by omega)
      rw [List.map_cons, total_cons, total_cons, Nat.add_mul, Nat.mul_add]
      exact Nat.add_le_add hhead htail
  exact Nat.le_of_mul_le_mul_right (Nat.le_trans hmul (Nat.mul_le_mul_left _ h)) hrows

end Account

/-- The slices of a batch have all of its rows. -/
theorem Operator.total_slices (rows : Nat) : total ((slices rows).map Prod.snd) = rows := by
  generalize hb : ({ (default : Batch) with rows } : Batch) = b
  have hrows : b.rows = rows := by rw [← hb]
  have hmap : (slices rows).map (fun s => (b.slice s.1 s.2).table.length) =
      (slices rows).map Prod.snd :=
    List.map_congr_left fun s _ => (b.slice s.1 s.2).length_table
  have hlength := congrArg List.length b.tables_slices
  rw [List.length_flatMap, Batch.length_table, hrows, hmap] at hlength
  exact hlength

/-! ## What chunks offer -/

/-- All bytes of a chunk's charge. -/
def Chunk.offers (c : Chunk) : List Stake := c.account?.toList.map fun a => (a.charge, a.bytes)

/-- The charge of a chunk was opened for all of its rows at least. -/
def Chunk.Measured (c : Chunk) : Prop := ∀ a ∈ c.account?, c.length ≤ a.rows

/-- What slices of a chunk answer for. -/
def Chunk.shares (c : Chunk) (slices : List (Nat × Nat)) : List Stake :=
  c.account?.toList.flatMap fun a => slices.map fun s => (a.charge, a.share s.2)

@[simp] theorem Chunk.shares_nil (c : Chunk) : c.shares [] = [] := by
  simp [shares]

theorem Chunk.shares_cons (c : Chunk) (offset length : Nat) (slices : List (Nat × Nat)) :
    c.shares ((offset, length) :: slices) =
      (c.account?.toList.map fun a => (a.charge, a.share length)) ++ c.shares slices := by
  cases ha : c.account? <;> simp [shares, ha]

/-- The slices of a chunk answer for no more than the chunk. -/
theorem Chunk.staked_shares_le {c : Chunk} (h : c.Measured) (hpos : 0 < c.length) (d : ChargeId) :
    staked (c.shares (Operator.slices c.length)) d ≤ staked c.offers d := by
  unfold shares offers
  cases ha : c.account? with
  | none => simp
  | some a =>
    have hrows : c.length ≤ a.rows := h a ha
    have hle : total ((Operator.slices c.length).map (a.share ∘ Prod.snd)) ≤ a.bytes := by
      rw [← List.map_map]
      exact a.total_share_le (Nat.lt_of_lt_of_le hpos hrows)
        (Nat.le_trans (Nat.le_of_eq (Operator.total_slices _)) hrows)
    have hmap : ((Operator.slices c.length).map fun s => (a.charge, a.share s.2)) =
        ((Operator.slices c.length).map (a.share ∘ Prod.snd)).map (a.charge, ·) := by
      rw [List.map_map]
      rfl
    simp only [Option.toList_some, List.flatMap_cons, List.flatMap_nil, List.append_nil, hmap,
      staked_map, List.map_cons, List.map_nil, staked_cons, staked_nil, Nat.add_zero]
    split
    · exact hle
    · exact Nat.le_refl _

theorem Resources.charges_middle (as bs cs : List ChargeId) :
    charges (as ++ (bs ++ cs)) = charges bs + charges (as ++ cs) := by
  simp only [charges_append]
  abel

namespace Operator

variable {op : Operator} {cs : List ChargeId} {mine rest theirs others : List Stake} {l l' : Ledger}
  {w : Workspace}

/-- Stakes may be given up, or exchanged for others in the same charges. -/
theorem Backed.exchange (h : op.Backed l cs mine rest)
    (hle : ∀ c, staked (theirs ++ others) c ≤ staked (mine ++ rest) c)
    (hcharges : ∀ s ∈ theirs, ∃ s' ∈ mine, s'.1 = s.1) : op.Backed l cs theirs others := by
  refine ⟨h.simple, h.accounts, h.sorted, h.charged, h.covers.le fun c => ?_, fun s hs => ?_⟩
  · have hc := hle c
    simp only [staked_append] at hc ⊢
    omega
  · rcases List.mem_append.mp hs with hs | hs
    · exact h.places s (List.mem_append_left _ hs)
    · obtain ⟨s', hs', hsame⟩ := hcharges s hs
      exact hsame ▸ h.places s' (List.mem_append_right _ hs')

/-- What was answered for as a whole is answered for in slices. -/
theorem Backed.split {c : Chunk} (h : op.Backed l cs c.offers rest) (hm : c.Measured)
    (hpos : 0 < c.length) : op.Backed l cs (c.shares (slices c.length)) rest := by
  refine h.exchange (fun d => ?_) fun s hs => ?_
  · simp only [staked_append]
    exact Nat.add_le_add_right (Chunk.staked_shares_le hm hpos d) _
  · obtain ⟨a, ha, hs⟩ := List.mem_flatMap.mp hs
    obtain ⟨_, -, rfl⟩ := List.mem_map.mp hs
    exact ⟨(a.charge, a.bytes), List.mem_map.mpr ⟨a, ha, rfl⟩, rfl⟩

/-- Charges that the operator holds besides its groups may be let go of. -/
theorem Backed.dropAll {ds : List ChargeId} (h : op.Backed w.ledger (ds ++ cs) mine rest) :
    Ensures (Workspace.dropAll ds) (fun _ v => Steady w v ∧ op.Backed v.ledger cs mine rest) w := by
  have ha : Accounts (.sole op.tracker) (w.ledger.dropAll ds)
      (.charges (op.groupCharges ++ cs)) := by
    have ha := h.accounts
    rw [Resources.charges_middle] at ha
    exact ha.dropAll
  exact ⟨⟨w.ledger.dropAll_steady ds, rfl, rfl⟩,
    h.beside (w.ledger.dropAll_steady ds) ha (.nil ..)⟩

/-- A slice holds the charge of its chunk once more, and takes over its share. -/
theorem slice_backed {chunk : Chunk} {offset length : Nat} {slices : List (Nat × Nat)}
    (h : op.Backed w.ledger (chunk.charge?.toList ++ cs) (chunk.shares ((offset, length) :: slices))
      rest) (hc : chunk.Charged) :
    Ensures (Workspace.withLedger (chunk.slice offset length)) (fun s v => Steady w v ∧
      s.length = length ∧ s.Charged ∧
      op.Backed v.ledger (s.charge?.toList ++ (chunk.charge?.toList ++ cs))
        (s.stakes ++ chunk.shares slices) rest) w := by
  have hs := w.ledger.shareAll_steady chunk.charge?.toList
  have ha : Accounts (.sole op.tracker) (w.ledger.shareAll chunk.charge?.toList) (.charges
      (op.groupCharges ++ (chunk.charge?.toList ++ (chunk.charge?.toList ++ cs)))) := by
    have ha := h.accounts
    rw [Resources.charges_middle] at ha ⊢
    rw [Resources.charges_middle]
    exact ha.shareAll
  have hback := h.beside hs ha (.nil ..)
  have hshares : (chunk.slice offset length w.ledger).1.stakes ++ chunk.shares slices =
      chunk.shares ((offset, length) :: slices) := by
    rw [Chunk.shares_cons]
    rfl
  refine ⟨⟨hs, rfl, rfl⟩, rfl, fun hnone => ?_, ?_⟩
  · have hzero := hc hnone
    have hle := chunk.batch.bytes_slice_le offset length
    exact Nat.le_zero.mp (hzero ▸ hle)
  · show op.Backed _ _ ((chunk.slice offset length w.ledger).1.stakes ++ _) _
    rw [hshares]
    exact hback

/-- A chunk that comes in has its charge moved to the operator's tracker, or gets one there. -/
theorem transfer_backed {chunk : Chunk}
    (h : op.Backed w.ledger (chunk.charge?.toList ++ cs) [] (chunk.offers ++ rest))
    (hm : chunk.Measured) :
    Ensures (Workspace.withLedger (chunk.transfer op.tracker)) (fun c v => c.batch = chunk.batch ∧
      c.Measured ∧ c.Charged ∧ v.shownPeak? = w.shownPeak? ∧
      (∀ t, w.ledger.forest.peak t ≤ v.ledger.forest.peak t) ∧
      op.Backed v.ledger (c.charge?.toList ++ cs) c.offers rest) w := by
  obtain ⟨batch, _ | a⟩ := chunk
  · simp only [Workspace.withLedger, Chunk.transfer, Ensures.modifyGet_iff]
    split
    · next hzero =>
      refine ⟨rfl, hm, fun _ => ?_, rfl, fun _ => Int64.le_refl _, h⟩
      by_contra hb
      have hpos := clampBytes_pos (Nat.pos_of_ne_zero hb)
      rw [hzero] at hpos
      exact absurd hpos (by decide)
    · refine ⟨rfl, fun a ha => ?_, fun hc => absurd hc (Option.some_ne_none _), rfl,
        fun t => Forest.peak_consume, h.charge _⟩
      obtain rfl := Option.some.inj ha
      exact Nat.le_refl _
  · have hheld : .charge a.charge ∈ Resources.charges (op.groupCharges ++ (a.charge :: cs)) :=
      Multiset.mem_coe.mpr (List.mem_map_of_mem
        (List.mem_append_right _ List.mem_cons_self))
    obtain ⟨x, hx, -⟩ := h.accounts.exists_charge hheld
    have ha : Accounts (.sole op.tracker) (w.ledger.transfer a.charge op.tracker)
        (.charges (op.groupCharges ++ (a.charge :: cs))) :=
      h.accounts.transfer hheld fun hlt => absurd hlt (Nat.not_lt_zero _)
    have hplace : (w.ledger.transfer a.charge op.tracker).trackerOf? a.charge =
        some op.tracker := by
      rw [Ledger.trackerOf?, Ledger.charges_transfer, Array.getElem?_modify, if_pos rfl, hx]
      rfl
    refine ⟨rfl, hm, fun hc => absurd hc (Option.some_ne_none _), rfl,
      fun _ => Ledger.peak_transfer .., ?_, ha, h.sorted, h.charged, ?_, ?_⟩
    · intro id
      show ((w.ledger.transfer a.charge op.tracker).forest.path id).Nodup
      rw [Ledger.path_transfer]
      exact h.simple id
    · exact Ledger.transfer_covers h.covers a.charge op.tracker
    · intro s hs
      rcases List.mem_append.mp hs with hs | hs
      · exact Ledger.transfer_places h.places a.charge s (List.mem_append_left _ hs)
      · obtain rfl := List.mem_singleton.mp hs
        exact hplace

end Operator

end SpillSort
