import SpillSort.Proofs.Shares

/-!
# What slices of a chunk report

A chunk may be cut into slices and these into slices again. Each reports the share of the charge
that its rows make up, rounded down, so that slices without a row in common never report more than
the charge, and consecutive ones lose less than a byte each. A charge without rows has no such
parts: all its slices report the whole of it.

* `Chunk.CutFrom` is a slice with the place of its rows, over any number of cuts.
* `Account.lt_total_share` is what rounding loses, next to `Account.total_share_le`.
* `Chunk.slices_report` is the theorem about all slices of a tracked chunk, and
  `Chunk.empty_slices_exceed` is why it needs rows.
-/

namespace SpillSort

open Memory

/-! ## Shares by number of rows -/

namespace Account

variable {a : Account} {m n : Nat}

theorem share_eq_bytes (h : a.rows ≤ n) : a.share n = a.bytes := if_pos (.inl h)

theorem share_le (n : Nat) : a.share n ≤ a.bytes := by
  unfold share
  split
  · exact Nat.le_refl _
  · next hn =>
    apply Nat.div_le_of_le_mul
    rw [Nat.mul_comm a.rows]
    exact Nat.mul_le_mul_left _ (by omega)

/-- More rows make up no smaller share. -/
theorem share_mono (h : m ≤ n) : a.share m ≤ a.share n := by
  by_cases hn : a.rows ≤ n ∨ a.rows = 0
  · have hall : a.share n = a.bytes := if_pos hn
    rw [hall]
    exact share_le m
  · rw [share, share, if_neg hn, if_neg (by omega)]
    exact Nat.div_le_div_right (Nat.mul_le_mul_left _ h)

/-- Rounding takes less than a byte off a share. -/
theorem mul_lt_succ_share (hrows : 0 < a.rows) (h : n ≤ a.rows) :
    a.bytes * n < (a.share n + 1) * a.rows := by
  unfold share
  split
  · have hn : n = a.rows := by omega
    rw [hn]
    exact Nat.mul_lt_mul_of_pos_right (Nat.lt_succ_self _) hrows
  · rw [Nat.mul_comm _ a.rows]
    exact Nat.lt_mul_div_succ _ hrows

/-- Shares of parts that make up all rows lose fewer bytes than there are parts. -/
theorem lt_total_share {ns : List Nat} (hne : ns ≠ []) (h : total ns = a.rows) :
    a.bytes < total (ns.map a.share) + ns.length := by
  rcases Nat.eq_zero_or_pos a.rows with hzero | hrows
  · obtain ⟨n, ns, rfl⟩ := List.exists_cons_of_ne_nil hne
    rw [List.map_cons, total_cons, share_eq_bytes (by omega), List.length_cons]
    omega
  have hmul : ∀ ms : List Nat, total ms ≤ a.rows → ms ≠ [] →
      a.bytes * total ms < (total (ms.map a.share) + ms.length) * a.rows := by
    intro ms hms hne
    induction ms with
    | nil => exact absurd rfl hne
    | cons m ms ih =>
      rw [total_cons] at hms
      have hhead := mul_lt_succ_share (n := m) hrows (by omega)
      rw [List.map_cons, total_cons, total_cons, List.length_cons, Nat.mul_add]
      by_cases hnil : ms = []
      · simpa [hnil] using hhead
      · have htail := ih (by omega) hnil
        calc a.bytes * m + a.bytes * total ms
            < (a.share m + 1) * a.rows + (total (ms.map a.share) + ms.length) * a.rows := by omega
          _ = (a.share m + total (ms.map a.share) + (ms.length + 1)) * a.rows := by
            rw [← Nat.add_mul]
            congr 1
            omega
  have hall := hmul ns (Nat.le_of_eq h) hne
  rw [h] at hall
  exact Nat.lt_of_mul_lt_mul_right hall

end Account

deriving instance DecidableEq for Account

/-! ## Slices of slices -/

theorem Batch.le_rows_of_slice? {b : Batch} {offset length : Nat}
    (h : (b.slice? offset length).isSome) : offset + length ≤ b.rows := by
  by_contra hgt
  simp [slice?, hgt] at h

namespace Chunk

/-- A chunk was cut from `c`, at once or by slices of slices; its rows begin at this row of `c`. -/
inductive CutFrom (c : Chunk) : Chunk → Nat → Prop where
  | all : CutFrom c c 0
  | slice {s : Chunk} {first offset length : Nat} (h : CutFrom c s first)
    (hin : (s.batch.slice? offset length).isSome) (l : Ledger) :
    CutFrom c (s.slice offset length l).1 (first + offset)

/-- The rows that a slice has of the chunk it was cut from. -/
def rowsAt (s : Chunk × Nat) : List Nat := List.range' s.2 s.1.length

/-- The slices have no row in common. -/
def Apart (s s' : Chunk × Nat) : Prop := ∀ row ∈ rowsAt s, row ∉ rowsAt s'

instance : DecidableRel Apart := fun _ _ => inferInstanceAs (Decidable (∀ _ ∈ _, _))

variable {c s : Chunk} {first : Nat} {a : Account}

/-- Slices hold the charge of their chunk, and have their rows of it. -/
theorem CutFrom.account_rows (h : c.CutFrom s first) :
    s.account? = c.account? ∧ first + s.length ≤ c.length := by
  induction h with
  | all => simp
  | @slice s first offset length _ hin l ih =>
    have hle := Batch.le_rows_of_slice? hin
    have hlength : (s.slice offset length l).1.length = length := rfl
    refine ⟨ih.1, ?_⟩
    rw [hlength]
    exact Nat.le_trans (by omega) (Nat.le_trans (Nat.add_le_add_left hle first) ih.2)

/-- The rows of a slice are those of its chunk, from its first row on. -/
theorem CutFrom.table_eq (h : c.CutFrom s first) :
    s.batch.table = (c.batch.table.drop first).take s.length := by
  induction h with
  | all =>
    have hlength : c.batch.table.length = c.length := c.batch.length_table
    rw [List.drop_zero, ← hlength, List.take_length]
  | @slice s first offset length _ hin l ih =>
    have hle := Batch.le_rows_of_slice? hin
    have hmin : min length (s.length - offset) = length :=
      Nat.min_eq_left (Nat.le_sub_of_add_le' hle)
    show (s.batch.slice offset length).table = (c.batch.table.drop (first + offset)).take length
    rw [Batch.table_slice_eq _ hle, ih, List.drop_take, List.take_take, List.drop_drop, hmin]

theorem CutFrom.logicalBytes_eq (h : c.CutFrom s first) (ha : c.account? = some a) :
    s.logicalBytes = a.share s.length := by
  rw [logicalBytes, h.account_rows.1, ha]

theorem total_logicalBytes {parts : List (Chunk × Nat)} (ha : c.account? = some a)
    (h : ∀ p ∈ parts, c.CutFrom p.1 p.2) :
    total (parts.map fun p => p.1.logicalBytes) =
      total ((parts.map fun p => p.1.length).map a.share) := by
  rw [List.map_map]
  congr 1
  exact List.map_congr_left fun p hp => (h p hp).logicalBytes_eq ha

theorem length_flatMap_rowsAt (parts : List (Chunk × Nat)) :
    (parts.flatMap rowsAt).length = total (parts.map fun p => p.1.length) := by
  induction parts with
  | nil => rfl
  | cons p parts ih => simp [rowsAt, ih]

/-- Slices without a row in common have no more rows than their chunk. -/
theorem total_length_le {parts : List (Chunk × Nat)} (h : ∀ p ∈ parts, c.CutFrom p.1 p.2)
    (hapart : parts.Pairwise Apart) : total (parts.map fun p => p.1.length) ≤ c.length := by
  have hnodup : (parts.flatMap rowsAt).Nodup :=
    List.nodup_flatMap.mpr ⟨fun p _ => List.nodup_range', hapart⟩
  have hsubset : parts.flatMap rowsAt ⊆ List.range c.length := by
    intro row hrow
    obtain ⟨p, hp, hrow⟩ := List.mem_flatMap.mp hrow
    have hin := (h p hp).account_rows.2
    rw [rowsAt, List.mem_range'_1] at hrow
    rw [List.mem_range]
    omega
  rw [← length_flatMap_rowsAt, ← List.length_range (n := c.length)]
  exact (hnodup.subperm hsubset).length_le

/-- A batch that is charged to a tracker has a charge of as many bytes as its account, which counts
all of its rows. -/
theorem account_of_tracked {b : Batch} {tracker : TrackerId} {l : Ledger}
    (ha : (tracked b tracker l).1.account? = some a) :
    (tracked b tracker l).1.batch = b ∧ a.rows = b.rows ∧
      ((tracked b tracker l).2.bytesOf a.charge).toInt = a.bytes := by
  simp only [tracked, transfer] at ha ⊢
  split at ha
  · cases ha
  · next hpos =>
    obtain rfl := Option.some.inj ha
    rw [if_neg hpos]
    refine ⟨rfl, rfl, ?_⟩
    have hsome : 0 < b.bytes := by
      apply Nat.pos_of_ne_zero
      intro hzero
      exact hpos (by rw [hzero]; rfl)
    have hnonneg : 0 ≤ (clampBytes b.bytes).toInt :=
      Int.le_of_lt (Int64.lt_iff_toInt_lt.mp (clampBytes_pos hsome))
    rw [Ledger.bytesOf_of_some (l.charge_some tracker (clampBytes b.bytes))]
    exact (Int.toNat_of_nonneg hnonneg).symm

/-- **What slices report.** A batch is charged to a tracker, and slices are cut from it, and slices
from these. Slices that have all rows report all of the charge, those with more rows no less than
those with fewer, and slices that make up the batch one after the other lose fewer bytes than there
are slices. Slices without a row in common report no more bytes together than the charge has, unless
the batch has no rows and there is more than one of them. -/
theorem slices_report {b : Batch} {tracker : TrackerId} {l : Ledger}
    (ha : (tracked b tracker l).1.account? = some a) :
    let c := (tracked b tracker l).1
    ((tracked b tracker l).2.bytesOf a.charge).toInt = a.bytes ∧
    (∀ s first, c.CutFrom s first → s.batch.table = (b.table.drop first).take s.length ∧
      (s.length = b.rows → s.logicalBytes = a.bytes)) ∧
    (∀ s first s' first', c.CutFrom s first → c.CutFrom s' first' → s.length ≤ s'.length →
      s.logicalBytes ≤ s'.logicalBytes) ∧
    (∀ parts : List (Chunk × Nat), (∀ p ∈ parts, c.CutFrom p.1 p.2) → parts.Pairwise Apart →
      (b.rows = 0 → parts.length ≤ 1) → total (parts.map fun p => p.1.logicalBytes) ≤ a.bytes) ∧
    (∀ parts : List (Chunk × Nat), (∀ p ∈ parts, c.CutFrom p.1 p.2) → parts ≠ [] →
      parts.flatMap rowsAt = List.range b.rows →
      a.bytes < total (parts.map fun p => p.1.logicalBytes) + parts.length) := by
  intro c
  obtain ⟨hbatch, hrows, hbytes⟩ := account_of_tracked ha
  have hlength : c.length = b.rows := congrArg Batch.rows hbatch
  refine ⟨hbytes, ?_, ?_, ?_, ?_⟩
  · intro s first hs
    have htable := hs.table_eq
    rw [hbatch] at htable
    refine ⟨htable, fun hall => ?_⟩
    rw [hs.logicalBytes_eq ha]
    exact Account.share_eq_bytes (by omega)
  · intro s first s' first' hs hs' hle
    rw [hs.logicalBytes_eq ha, hs'.logicalBytes_eq ha]
    exact Account.share_mono hle
  · intro parts hparts hapart hfew
    have hle := total_length_le hparts hapart
    rw [total_logicalBytes ha hparts]
    rcases Nat.eq_zero_or_pos b.rows with hzero | hpos
    · match parts, hfew hzero with
      | [], _ => exact Nat.zero_le _
      | [p], _ => exact Account.share_le _
    · exact a.total_share_le (by omega) (by omega)
  · intro parts hparts hne htiles
    have htotal : total (parts.map fun p => p.1.length) = a.rows := by
      rw [← length_flatMap_rowsAt, htiles, List.length_range, hrows]
    have hlost := Account.lt_total_share (by simpa using hne) htotal
    rw [total_logicalBytes ha hparts]
    simpa using hlost

end Chunk

namespace Sample

/-- A ledger with one tracker. -/
def books : Ledger := (({} : Ledger).addRoot "root" (-1)).2

/-- A column of texts, charged to the tracker. -/
def texts (values : List String) : Chunk × Ledger :=
  Chunk.tracked (.ofColumns ⟨[.mk "k" (.scalar .utf8) false []]⟩ values.length
    #[(values.map Value.text).toArray]) 0 books

/-- Slices of one row each from a column of three, the second of them cut out of another slice. -/
def singles : List (Chunk × Nat) :=
  let (c, l) := texts ["a", "", ""]
  [((c.slice 0 1 l).1, 0), (((c.slice 0 2 l).1.slice 1 1 l).1, 0 + 0 + 1),
    ((c.slice 2 1 l).1, 0 + 2)]

end Sample

/-- Three slices of one row share 17 bytes. -/
theorem Chunk.slices_report_singles :
    (Sample.texts ["a", "", ""]).1.account? = some ⟨0, 17, 3⟩ ∧
      (∀ p ∈ Sample.singles, (Sample.texts ["a", "", ""]).1.CutFrom p.1 p.2) ∧
      total (Sample.singles.map fun p => p.1.logicalBytes) ≤ 17 ∧
      17 < total (Sample.singles.map fun p => p.1.logicalBytes) + 3 := by
  have ha : (Sample.texts ["a", "", ""]).1.account? = some ⟨0, 17, 3⟩ := by decide +kernel
  have hparts : ∀ p ∈ Sample.singles, (Sample.texts ["a", "", ""]).1.CutFrom p.1 p.2 := by
    simp only [Sample.singles, List.forall_mem_cons]
    refine ⟨.slice .all (by decide +kernel) _, ?_, .slice .all (by decide +kernel) _, by simp⟩
    exact .slice (.slice .all (by decide +kernel) _) (by decide +kernel) _
  obtain ⟨-, -, -, hle, hlt⟩ := slices_report ha
  exact ⟨ha, hparts, hle _ hparts (by decide +kernel) (by decide),
    hlt _ hparts (by decide +kernel) (by decide +kernel)⟩

/-- A column without rows still has a buffer, and two slices of it report that twice. -/
theorem Chunk.empty_slices_exceed :
    let c := (Sample.texts []).1
    let s := c.slice 0 0 (Sample.texts []).2
    let s' := c.slice 0 0 s.2
    c.account? = some ⟨0, 4, 0⟩ ∧ ((Sample.texts []).2.bytesOf 0).toInt = 4 ∧
      c.CutFrom s.1 0 ∧ c.CutFrom s'.1 0 ∧ Apart (s.1, 0) (s'.1, 0) ∧
      ¬s.1.logicalBytes + s'.1.logicalBytes ≤ 4 := by
  intro c s s'
  refine ⟨by decide +kernel, by decide +kernel, ?_, ?_, by decide +kernel, by decide +kernel⟩
  · exact .slice .all (by decide +kernel) (Sample.texts []).2
  · exact .slice .all (by decide +kernel) s.2

end SpillSort
