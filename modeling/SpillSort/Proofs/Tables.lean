import Mathlib.Data.List.Basic
import SpillSort.Data.HyperBatch
import SpillSort.Proofs.KeyOrder
import SpillSort.Sort.Operator
import SpillSort.Spill.Message

/-!
# Tables

The rows of a batch as lists of values. Cutting, collecting, writing and reading batches, and the
encoding of their keys, are described by what they do to these rows.

* `Batch.table` are the rows; `RowOrder.key` reads the keys of a row, and `RowOrder.rowLe` compares
  rows by them.
* `RowOrder.encode_ok` says that encoding finds the keys of the rows, `Batch.gather_ok` and
  `Batch.gather_eq` that gathering collects rows, `Batch.tables_slices` that slices have them all.
-/

namespace SpillSort

/-- The values of a row. -/
abbrev Row := List Value

namespace Batch

/-- A row of a batch: the values of the columns that its schema names. -/
def row (b : Batch) (i : Nat) : Row := (List.range b.schema.fields.length).map fun k => b.value k i

/-- All rows of a batch, in physical order. -/
def table (b : Batch) : List Row := (List.range b.rows).map b.row

@[simp] theorem length_table (b : Batch) : b.table.length = b.rows := by simp [table]

/-! ## Slices -/

theorem value_slice (b : Batch) (offset : Nat) {length i : Nat} (hi : i < length) (k : Nat) :
    (b.slice offset length).value k i = b.value k (offset + i) := by
  have hcol : (b.slice offset length).columns.getD k #[] =
      (b.columns.getD k #[]).extract offset (offset + length) := by
    simp only [slice, Array.getD_eq_getD_getElem?, Array.getElem?_map]
    rcases b.columns[k]? with _ | c <;> simp
  rw [value, value, hcol]
  generalize b.columns.getD k #[] = column
  rw [Array.getD_eq_getD_getElem?, Array.getD_eq_getD_getElem?, Array.getElem?_extract]
  split
  · rfl
  · next h => rw [Array.getElem?_eq_none (by omega)]

theorem table_slice (b : Batch) (offset length : Nat) :
    (b.slice offset length).table = (List.range length).map fun i => b.row (offset + i) := by
  refine List.map_congr_left fun i hi => List.map_congr_left fun k _ => ?_
  exact b.value_slice offset (List.mem_range.mp hi) k

theorem table_slice_eq (b : Batch) {offset length : Nat} (h : offset + length ≤ b.rows) :
    (b.slice offset length).table = (b.table.drop offset).take length := by
  rw [table_slice]
  refine List.ext_getElem (by simp [table]; omega) fun i h₁ h₂ => ?_
  simp [table]

/-- Cutting a list into parts of `n` elements, of which the last may have fewer. -/
theorem flatMap_parts {α : Type} (n : Nat) (xs : List α) :
    ∀ count, xs.length ≤ count * n →
      ((List.range count).flatMap fun i => (xs.drop (i * n)).take n) = xs := by
  intro count
  induction count generalizing xs with
  | zero =>
    intro h
    rw [Nat.zero_mul] at h
    simp [List.eq_nil_of_length_eq_zero (Nat.le_zero.mp h)]
  | succ count ih =>
    intro h
    rw [List.range_succ_eq_map, List.flatMap_cons, List.flatMap_map]
    have hd := ih (xs.drop n) (by
      rw [List.length_drop]
      rw [Nat.succ_mul] at h
      omega)
    have hshift : (fun i => (xs.drop ((i + 1) * n)).take n) =
        fun i => ((xs.drop n).drop (i * n)).take n := by
      funext i
      rw [List.drop_drop, Nat.succ_mul, Nat.add_comm]
    simp only [Nat.zero_mul, List.drop_zero, Nat.succ_eq_add_one, hshift, hd, List.take_append_drop]

/-- The slices of a batch have all its rows, in order. -/
theorem tables_slices (b : Batch) :
    ((Operator.slices b.rows).flatMap fun s => (b.slice s.1 s.2).table) = b.table := by
  have hcount : b.table.length ≤
      (b.rows + maxSelectionRows - 1) / maxSelectionRows * maxSelectionRows := by
    rw [length_table, maxSelectionRows]
    omega
  rw [Operator.slices, List.flatMap_map, ← flatMap_parts maxSelectionRows b.table _ hcount]
  refine List.flatMap_congr fun i hi => ?_
  have hlt := List.mem_range.mp hi
  have hin : i * maxSelectionRows < b.rows := by
    rw [maxSelectionRows] at hlt ⊢
    omega
  have hmin := Nat.min_le_right maxSelectionRows (b.rows - i * maxSelectionRows)
  rw [b.table_slice_eq (by omega)]
  rcases Nat.le_total maxSelectionRows (b.rows - i * maxSelectionRows) with h | h
  · rw [Nat.min_eq_left h]
  · have hlen : (b.table.drop (i * maxSelectionRows)).length = b.rows - i * maxSelectionRows := by
      rw [List.length_drop, length_table]
    rw [Nat.min_eq_right h, List.take_of_length_le (Nat.le_of_eq hlen), List.take_of_length_le (hlen ▸ h)]

/-! ## Gathering -/

/-- The row that a pair of batch and row names. -/
def rowAt (batches : Array Batch) (i : Nat × Nat) : Row := (batches.getD i.1 default).row i.2

theorem value_ofColumns (schema : Schema) (rows : Nat) (columns : Array (Array Value))
    (k i : Nat) : (ofColumns schema rows columns).value k i = (columns.getD k #[]).getD i .null :=
  rfl

/-- A batch that went through a message has its rows. -/
theorem table_ofColumns (b : Batch) : (ofColumns b.schema b.rows b.columns).table = b.table := rfl

theorem row_ofColumns_pick (schema : Schema) {batches : Array Batch}
    (hs : ∀ b ∈ batches, b.schema = schema) {indices : Array (Nat × Nat)} {i : Nat × Nat} {n : Nat}
    (hn : indices[n]? = some i) (hi : holds batches i) :
    (ofColumns schema indices.size ((Array.range schema.fields.length).map fun k =>
      indices.map (pick batches k))).row n = rowAt batches i := by
  unfold holds at hi
  split at hi
  · next b hb =>
    have hbs : b.schema = schema := hs b (Array.mem_of_getElem? hb)
    have hat : rowAt batches i = b.row i.2 := by
      rw [rowAt, Array.getD_eq_getD_getElem?, hb, Option.getD_some]
    rw [hat, row, row, hbs]
    refine List.map_congr_left fun k hk => ?_
    have hk' : k < schema.fields.length := List.mem_range.mp hk
    rw [value_ofColumns]
    simp [Array.getD_eq_getD_getElem?, hk', hn, pick, hb]
  · simp at hi

/-- Gathering collects the rows that are named. -/
theorem gather_ok {schema : Schema} {batches : Array Batch} {indices : Array (Nat × Nat)}
    {b : Batch} (hs : ∀ b ∈ batches, b.schema = schema)
    (h : gather schema batches indices = .ok b) :
    b.schema = schema ∧ b.rows = indices.size ∧ b.table = indices.toList.map (rowAt batches) := by
  unfold gather at h
  split at h
  · cases h
  split at h
  · cases h
  split at h
  · cases h
  next hin =>
    obtain rfl := Except.ok.inj h
    refine ⟨rfl, rfl, List.ext_getElem (by simp [table, ofColumns]) fun n h₁ h₂ => ?_⟩
    have hn : n < indices.size := by simpa using h₂
    have hi : holds batches indices[n] := by
      simp only [Array.any_eq_true, not_exists, Bool.not_eq_true', Bool.not_eq_false] at hin
      exact hin n hn
    simp only [table, List.getElem_map, List.getElem_range, Array.getElem_toList]
    exact row_ofColumns_pick schema hs (Array.getElem?_eq_getElem hn) hi

/-- Rows that are there can be gathered, unless there are no columns or no batches. -/
theorem gather_eq {schema : Schema} {batches : Array Batch} {indices : Array (Nat × Nat)}
    (hf : schema.fields ≠ []) (hb : batches ≠ #[]) (hi : ∀ i ∈ indices, holds batches i) :
    ∃ b, gather schema batches indices = .ok b := by
  unfold gather
  rw [if_neg (by simpa using hf), if_neg (by simpa using hb), if_neg ?_]
  · exact ⟨_, rfl⟩
  · simpa [Array.any_eq_true] using fun n hn => hi indices[n] (Array.getElem_mem hn)

end Batch

/-! ## Keys -/

namespace RowOrder

variable (o : RowOrder)

/-- The keys of a row. -/
def key (r : Row) : List Value := o.columns.map fun k => r.getD k.val .null

/-- Whether a row may stand before another: their keys decide. -/
def rowLe (a b : Row) : Bool := o.le (o.key a) (o.key b)

theorem rowLe_preordering : Preordering o.rowLe where
  trans _ _ _ := o.preordering.trans _ _ _
  total _ _ := o.preordering.total _ _

theorem key_row {b : Batch} (hs : b.schema = o.schema) (i : Nat) :
    o.key (b.row i) = o.columns.map fun k => b.value k.val i := by
  refine List.map_congr_left fun k _ => ?_
  have hk : k.val < b.schema.fields.length := by
    rw [hs]
    exact k.isLt
  simp [Batch.row, hk]

theorem row_keyRows {b : Batch} (hs : b.schema = o.schema) {i : Nat} (hi : i < b.rows) (bytes : Nat) :
    EncodedKeys.row ⟨o.keyRows b, bytes⟩ i = o.key (b.row i) := by
  rw [o.key_row hs]
  simp [EncodedKeys.row, keyRows, Batch.value, Array.getD_eq_getD_getElem?, hi]

/-- Encoding finds the keys of all rows, and takes only batches of the order's schema. -/
theorem encode_ok {b : Batch} {keys : EncodedKeys} (h : o.encode b = .ok keys) :
    b.schema = o.schema ∧ ∀ i < b.rows, keys.row i = o.key (b.row i) := by
  unfold encode at h
  split at h
  · cases h
  next hs =>
    have hs' : b.schema = o.schema := by simpa using hs
    obtain rfl := Except.ok.inj h
    exact ⟨hs', fun i hi => o.row_keyRows hs' hi _⟩

/-- Encoding finds keys for as many rows as there are. -/
theorem size_encode {b : Batch} {keys : EncodedKeys} (h : o.encode b = .ok keys) :
    keys.rows.size = b.rows := by
  unfold encode at h
  split at h
  · cases h
  · obtain rfl := Except.ok.inj h
    simp [keyRows]

/-- Every batch of the order's schema can be encoded. -/
theorem encode_eq {b : Batch} (hs : b.schema = o.schema) : ∃ keys, o.encode b = .ok keys := by
  unfold encode
  rw [if_neg (not_not_intro hs)]
  exact ⟨_, rfl⟩

end RowOrder

end SpillSort
