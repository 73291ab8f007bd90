import Mathlib.Data.List.Forall2
import SpillSort.Proofs.Tables

/-!
# Comparing rows

What comparing two rows says about their keys. The comparison is a total order of the tuples of key
values, put together from the comparisons by one key each. It depends on nothing but these values:
neither on the batch that a row lies in nor on how the row is named.

* `Value.compareWith_eq_iff` says that values compare as equal only if they are the same.
* `SchemaRow` is a row of a batch of a schema, `RowOrder.across` the comparison of two.
* `KeyLaws` are the laws under any keys, `SingleKeyLaws` those of one key; `RowOrder.resolve_laws` is
  the theorem.
-/

namespace SpillSort

open Std

/-! ## Values that compare as equal -/

/-- No two floats have the same place. -/
theorem floatPlace_inj {width m n : Nat} (h : floatPlace width m = floatPlace width n) : m = n := by
  unfold floatPlace at h
  extract_lets half at h
  split at h <;> split at h <;> omega

namespace KeyOrder

variable {o : KeyOrder} {x : Ordering}

theorem direct_eq_iff : o.direct x = .eq ↔ x = .eq := by
  unfold direct
  split
  · exact Ordering.swap_eq_eq
  · rfl

end KeyOrder

namespace Value

variable (o : KeyOrder)

mutual

theorem compareWith_eq_iff : ∀ a b : Value, compareWith o a b = .eq ↔ a = b
  | a, b => by
    by_cases h : a.rank = b.rank
    · cases a <;> cases b <;> first | exact absurd h (of_decide_eq_false rfl) | skip
      case null.null => exact iff_of_true rfl rfl
      case items.items as bs =>
        rw [compareWith, compareItems_eq_iff as bs, items.injEq]
      case float32.float32 a b =>
        rw [compareWith, KeyOrder.direct_eq_iff, LawfulEqOrd.compare_eq_iff_eq, float32.injEq]
        exact ⟨fun h => UInt32.toNat_inj.mp (floatPlace_inj h), fun h => h ▸ rfl⟩
      case float64.float64 a b =>
        rw [compareWith, KeyOrder.direct_eq_iff, LawfulEqOrd.compare_eq_iff_eq, float64.injEq]
        exact ⟨fun h => UInt64.toNat_inj.mp (floatPlace_inj h), fun h => h ▸ rfl⟩
      all_goals
        rw [compareWith, KeyOrder.direct_eq_iff, LawfulEqOrd.compare_eq_iff_eq]
        simp only [bool.injEq, int.injEq, text.injEq, bytes.injEq]
    · rw [compareWith_of_rank_ne o h]
      exact ⟨fun he => absurd he (KeyOrder.rankOrder_ne_eq h), fun he => absurd (he ▸ rfl) h⟩

theorem compareItems_eq_iff : ∀ as bs : List Value, compareItems o as bs = .eq ↔ as = bs
  | [], [] => iff_of_true rfl rfl
  | [], _ :: _ => by
    rw [compareItems]
    exact ⟨fun h => absurd h KeyOrder.direct_lt_ne_eq, nofun⟩
  | _ :: _, [] => by
    rw [compareItems]
    exact ⟨fun h => absurd h KeyOrder.direct_gt_ne_eq, nofun⟩
  | a :: as, b :: bs => by
    rw [compareItems, Ordering.then_eq_eq, compareWith_eq_iff a b, compareItems_eq_iff as bs,
      List.cons.injEq]

end

/-- A null has the place that the key gives it, whatever the direction. -/
theorem compareWith_null {o : KeyOrder} {v : Value} (hv : v ≠ .null) :
    compareWith o .null v = if o.nullsFirst then .lt else .gt := by
  cases v with
  | null => exact absurd rfl hv
  | _ => rfl

/-- The other direction reverses the order of values without items. -/
theorem compareWith_reversed {descending nullsFirst : Bool} {a b : Value} (ha : a ≠ .null)
    (hb : b ≠ .null) (hitems : a.rank ≠ 7) :
    compareWith ⟨!descending, nullsFirst⟩ a b = (compareWith ⟨descending, nullsFirst⟩ a b).swap := by
  cases a <;> cases b <;> first | contradiction | skip
  all_goals
    simp only [compareWith, KeyOrder.direct]
    cases descending <;> simp

end Value

/-! ## Keys that are resolved -/

theorem mapM_eq_ok_iff {α β ε : Type} {f : α → Except ε β} {xs : List α} {ys : List β} :
    xs.mapM f = .ok ys ↔ List.Forall₂ (fun x y => f x = .ok y) xs ys := by
  induction xs generalizing ys with
  | nil =>
    rw [List.mapM_nil, List.forall₂_nil_left_iff]
    exact ⟨fun h => (Except.ok.inj h).symm, fun h => h ▸ rfl⟩
  | cons x xs ih =>
    rw [List.mapM_cons, List.forall₂_cons_left_iff]
    cases hx : f x with
    | error e => exact ⟨nofun, nofun⟩
    | ok y =>
      cases hxs : xs.mapM f with
      | error e =>
        refine ⟨nofun, fun ⟨_, ys', _, hys, _⟩ => ?_⟩
        rw [ih.mpr hys] at hxs
        cases hxs
      | ok ys' =>
        constructor
        · rintro ⟨⟩
          exact ⟨y, ys', rfl, ih.mp hxs, rfl⟩
        · rintro ⟨_, ys'', ⟨⟩, hys, rfl⟩
          rw [ih.mpr hys] at hxs
          obtain rfl := Except.ok.inj hxs
          rfl

theorem exists_of_mapM_error {α β ε : Type} {f : α → Except ε β} {xs : List α} {e : ε}
    (h : xs.mapM f = .error e) : ∃ x ∈ xs, f x = .error e := by
  induction xs with
  | nil => cases h
  | cons x xs ih =>
    rw [List.mapM_cons] at h
    cases hx : f x with
    | error e' =>
      rw [hx] at h
      obtain rfl := Except.error.inj h
      exact ⟨x, List.mem_cons_self, hx⟩
    | ok y =>
      cases hxs : xs.mapM f with
      | error e' =>
        rw [hx, hxs] at h
        obtain rfl := Except.error.inj h
        obtain ⟨x', hx', he⟩ := ih hxs
        exact ⟨x', List.mem_cons_of_mem x hx', he⟩
      | ok ys =>
        rw [hx, hxs] at h
        cases h

theorem KeyColumn.resolve_ne_notBuilt (c : KeyColumn) (schema : Schema) (fault : ColumnFault) :
    c.resolve schema ≠ .error (.notBuilt fault) := by
  intro h
  unfold resolve at h
  split at h
  · split at h
    · cases h
    · cases h
  · split at h
    · cases h
    · cases h

theorem exists_related {α β : Type} {r : α → β → Prop} {xs : List α} {ys : List β}
    (h : List.Forall₂ r xs ys) {x : α} (hx : x ∈ xs) : ∃ y ∈ ys, r x y := by
  obtain ⟨i, hi, rfl⟩ := List.getElem_of_mem hx
  have hi' : i < ys.length := h.length_eq ▸ hi
  exact ⟨ys[i], List.getElem_mem hi', h.get hi hi'⟩

namespace RowOrder

variable {schema : Schema} {keys : List SortKey} {o : RowOrder}

/-- The order that keys are resolved to, once their columns are known. -/
def ofColumns (schema : Schema) (columns : List (Fin schema.fields.length)) (keys : List SortKey) :
    RowOrder :=
  { schema, columns, types := columns.map fun i => (schema.fields.get i).type
    orders := keys.map SortKey.order }

/-- Each key reads one column, and the values of these columns can be compared. -/
structure Reads (schema : Schema) (keys : List SortKey) (columns : List (Fin schema.fields.length)) :
    Prop where
  resolved : List.Forall₂ (fun k c => k.column.resolve schema = .ok c) keys columns
  comparable : ∀ c ∈ columns, (schema.fields.get c).type.comparable = true

theorem resolve_eq (hkeys : keys ≠ []) : resolve schema keys =
    (keys.mapM fun k : SortKey => k.column.resolve schema).bind fun columns =>
      if (columns.map fun i => (schema.fields.get i).type).all DataType.comparable then
        .ok (ofColumns schema columns keys)
      else .error (.notComparable (columns.map fun i => (schema.fields.get i).type)) := by
  rw [resolve, if_neg (by simpa using hkeys)]
  refine congrArg (Except.bind _) (funext fun columns => ?_)
  show (if (columns.map fun i => (schema.fields.get i).type).all DataType.comparable then
      ((setUp (columns.map fun i => (schema.fields.get i).type)).mapError KeyFault.notBuilt).bind
        fun _ => .ok (ofColumns schema columns keys)
    else .error (KeyFault.notComparable (columns.map fun i => (schema.fields.get i).type))) = _
  split
  · next hcomparable =>
    rw [setUp_of_comparable hcomparable]
    rfl
  · rfl

/-- What has an order can be encoded, so that this is never what is wrong with keys. -/
theorem resolve_ne_notBuilt (schema : Schema) (keys : List SortKey) (fault : ColumnFault) :
    resolve schema keys ≠ .error (.notBuilt fault) := by
  by_cases hkeys : keys = []
  · subst hkeys
    exact nofun
  intro h
  rw [resolve_eq hkeys] at h
  cases hcolumns : keys.mapM fun k : SortKey => k.column.resolve schema with
  | error e =>
    obtain ⟨k, -, hk⟩ := exists_of_mapM_error hcolumns
    rw [hcolumns] at h
    obtain rfl := Except.error.inj h
    exact k.column.resolve_ne_notBuilt schema fault hk
  | ok columns =>
    rw [hcolumns, Except.bind] at h
    split at h
    · cases h
    · cases h

/-- Keys are resolved if there are some, and if each reads a column whose values can be compared. -/
theorem resolve_ok_iff : resolve schema keys = .ok o ↔
    keys ≠ [] ∧ ∃ columns, Reads schema keys columns ∧ o = ofColumns schema columns keys := by
  by_cases hkeys : keys = []
  · subst hkeys
    exact ⟨nofun, fun h => absurd rfl h.1⟩
  have hunique : ∀ columns, Reads schema keys columns →
      (keys.mapM fun k : SortKey => k.column.resolve schema) = .ok columns :=
    fun _ hreads => mapM_eq_ok_iff.mpr hreads.resolved
  have hall : ∀ columns : List (Fin schema.fields.length),
      (columns.map fun i => (schema.fields.get i).type).all DataType.comparable = true ↔
        ∀ c ∈ columns, (schema.fields.get c).type.comparable = true := fun columns => by
    rw [List.all_map, List.all_eq_true]
    rfl
  rw [resolve_eq hkeys]
  constructor
  · intro h
    cases hcolumns : keys.mapM fun k : SortKey => k.column.resolve schema with
    | error e =>
      rw [hcolumns] at h
      cases h
    | ok columns =>
      rw [hcolumns, Except.bind] at h
      split at h
      · next hcomparable =>
        exact ⟨hkeys, columns, ⟨mapM_eq_ok_iff.mp hcolumns, (hall columns).mp hcomparable⟩,
          (Except.ok.inj h).symm⟩
      · cases h
  · rintro ⟨-, columns, hreads, rfl⟩
    rw [hunique columns hreads, Except.bind, if_pos ((hall columns).mpr hreads.comparable)]

theorem resolve_singleton {k : SortKey} {c : Fin schema.fields.length}
    (hk : k.column.resolve schema = .ok c) (hc : (schema.fields.get c).type.comparable = true) :
    resolve schema [k] = .ok (ofColumns schema [c] [k]) := by
  refine resolve_ok_iff.mpr ⟨List.cons_ne_nil _ _, [c], ⟨.cons hk .nil, ?_⟩, rfl⟩
  rintro c' hc'
  obtain rfl := List.mem_singleton.mp hc'
  exact hc

end RowOrder

/-! ## Rows of a schema -/

/-- The rank of the values in a column without components. -/
def Scalar.rank : Scalar → Nat
  | null => 0
  | bool => 1
  | float32 => 3
  | float64 => 4
  | utf8 | largeUtf8 | dictionary => 5
  | binary | fixedBinary _ => 6
  | int8 | int16 | int32 | int64 | uint8 | uint16 | uint32 | uint64 | decimal _ _ | date32 | date64
    | timestamp => 2

theorem Scalar.rank_ne_items (s : Scalar) : s.rank ≠ 7 := by
  cases s <;> exact nofun

/-- The rank of the values in a column of a type. -/
def DataType.rank : DataType → Nat
  | .scalar s => s.rank
  | .list _ | .struct _ | .map => 7

/-- Every column holds values of its type, and nulls. -/
def Batch.Typed (b : Batch) : Prop :=
  ∀ k f, b.schema.fields[k]? = some f → ∀ i < b.rows,
    b.value k i = .null ∨ (b.value k i).rank = f.type.rank

/-- A row of a batch of a schema. -/
structure SchemaRow (schema : Schema) where
  batch : Batch
  schema_eq : batch.schema = schema
  typed : batch.Typed
  index : Nat
  index_lt : index < batch.rows

namespace SchemaRow

variable {schema : Schema} (a b : SchemaRow schema)

/-- The value of the row in a column. -/
def value (c : Fin schema.fields.length) : Value := a.batch.value c.val a.index

theorem value_typed (c : Fin schema.fields.length) :
    a.value c = .null ∨ (a.value c).rank = (schema.fields.get c).type.rank := by
  refine a.typed c.val _ ?_ a.index a.index_lt
  rw [a.schema_eq]
  exact List.getElem?_eq_getElem c.isLt

/-- The keys that encoding its batch finds for the row. -/
def keys (o : RowOrder) : List Value :=
  match o.encode a.batch with
  | .ok encoded => encoded.row a.index
  | .error _ => []

/-- Two rows have the same value in the column of each key. -/
def AgreesOn (a : SchemaRow schema) (keys : List SortKey) (b : SchemaRow schema) : Prop :=
  ∀ k ∈ keys, ∀ c, k.column.resolve schema = .ok c → a.value c = b.value c

end SchemaRow

/-- How two rows compare, each by the keys that were found for its own batch. -/
def RowOrder.across {schema : Schema} (o : RowOrder) (a b : SchemaRow schema) : Ordering :=
  o.compare (a.keys o) (b.keys o)

namespace RowOrder

variable {schema : Schema} {columns : List (Fin schema.fields.length)} {keys : List SortKey}
  {a b : SchemaRow schema}

theorem encode_ofColumns (a : SchemaRow schema) :
    ∃ encoded, (ofColumns schema columns keys).encode a.batch = .ok encoded :=
  encode_eq _ a.schema_eq

theorem keys_ofColumns (a : SchemaRow schema) :
    a.keys (ofColumns schema columns keys) = columns.map a.value := by
  obtain ⟨encoded, he⟩ : ∃ encoded, (ofColumns schema columns keys).encode a.batch = .ok encoded :=
    encode_ofColumns a
  rw [SchemaRow.keys, he]
  exact ((encode_ok _ he).2 a.index a.index_lt).trans (key_row _ a.schema_eq a.index)

/-- Rows are compared by the first key, then by the others. -/
theorem across_cons {k : SortKey} {c : Fin schema.fields.length} :
    (ofColumns schema (c :: columns) (k :: keys)).across a b =
      ((a.value c).compareWith k.order (b.value c)).then
        ((ofColumns schema columns keys).across a b) := by
  rw [across, across, keys_ofColumns, keys_ofColumns, keys_ofColumns, keys_ofColumns]
  rfl

theorem across_nil : (ofColumns schema [] []).across a b = .eq := rfl

theorem across_singleton {k : SortKey} {c : Fin schema.fields.length} :
    (ofColumns schema [c] [k]).across a b = (a.value c).compareWith k.order (b.value c) := by
  rw [across_cons, across_nil, Ordering.then_eq]

/-- Rows compare as equal if they have the same keys. -/
theorem across_eq_iff (h : List.Forall₂ (fun k c => k.column.resolve schema = .ok c) keys columns) :
    (ofColumns schema columns keys).across a b = .eq ↔ a.AgreesOn keys b := by
  induction h with
  | nil => exact iff_of_true rfl fun _ hk => absurd hk List.not_mem_nil
  | @cons k c keys columns hk _ ih =>
    rw [across_cons, Ordering.then_eq_eq, Value.compareWith_eq_iff, ih]
    constructor
    · rintro ⟨hc, hkeys⟩ k' hk' c' hc'
      obtain rfl | hk' := List.mem_cons.mp hk'
      · obtain rfl := Except.ok.inj (hk.symm.trans hc')
        exact hc
      · exact hkeys k' hk' c' hc'
    · exact fun h => ⟨h k List.mem_cons_self c hk, fun k' hk' => h k' (List.mem_cons_of_mem k hk')⟩

/-- The comparisons by one key each, of which the first that finds a difference decides. -/
theorem exists_singles (h : Reads schema keys columns) :
    ∃ singles, keys.mapM (fun k => resolve schema [k]) = .ok singles ∧
      ∀ a b : SchemaRow schema, (ofColumns schema columns keys).across a b =
        (singles.map (·.across a b)).foldr Ordering.then .eq := by
  obtain ⟨hcolumns, hcomparable⟩ := h
  induction hcolumns with
  | nil => exact ⟨[], rfl, fun _ _ => rfl⟩
  | @cons k c keys columns hk _ ih =>
    obtain ⟨singles, hsingles, hall⟩ := ih fun c' hc' => hcomparable c' (List.mem_cons_of_mem c hc')
    have hone := resolve_singleton hk (hcomparable c List.mem_cons_self)
    refine ⟨ofColumns schema [c] [k] :: singles, ?_, fun a b => ?_⟩
    · rw [List.mapM_cons, hone, hsingles]
      rfl
    · rw [List.map_cons, List.foldr_cons, ← hall, across_singleton, across_cons]

/-- Rows that agree on the keys have the same values in the columns of the keys. -/
theorem map_value_eq (h : List.Forall₂ (fun k c => k.column.resolve schema = .ok c) keys columns)
    (hab : a.AgreesOn keys b) : columns.map a.value = columns.map b.value := by
  refine List.map_congr_left fun c hc => ?_
  obtain ⟨k, hk, hkc⟩ := exists_related h.flip hc
  exact hab k hk c hkc

end RowOrder

/-! ## The laws -/

/-- The laws of comparing the rows of a schema by some keys. -/
structure KeyLaws (schema : Schema) (keys : List SortKey) (o : RowOrder) : Prop where
  encodes : ∀ a : SchemaRow schema, ∃ encoded, o.encode a.batch = .ok encoded
  trans : ∀ a b c : SchemaRow schema,
    (o.across a b).isLE → (o.across b c).isLE → (o.across a c).isLE
  swap : ∀ a b : SchemaRow schema, o.across b a = (o.across a b).swap
  eq_iff : ∀ a b : SchemaRow schema, o.across a b = .eq ↔ a.AgreesOn keys b
  /-- The first key that finds a difference decides. -/
  lexicographic : ∃ singles, keys.mapM (fun k => RowOrder.resolve schema [k]) = .ok singles ∧
    ∀ a b : SchemaRow schema, o.across a b = (singles.map (·.across a b)).foldr Ordering.then .eq
  /-- A selection of a batch may stand for its rows, and they for any rows with the same keys. -/
  inBatch : ∀ (a b a' b' : SchemaRow schema) (encoded : EncodedKeys) (s : RowSelection)
    (left right : Nat), a.batch = b.batch → o.encode a.batch = .ok encoded →
    s.row left = a.index → s.row right = b.index → a.AgreesOn keys a' → b.AgreesOn keys b' →
    o.compareInBatch encoded s left right = o.across a' b'

/-- The laws of comparing the rows of a schema by one key, which reads the column `c`. -/
structure SingleKeyLaws (schema : Schema) (k : SortKey) (c : Fin schema.fields.length)
    (o : RowOrder) : Prop where
  nulls : ∀ a b : SchemaRow schema, a.value c = .null → b.value c ≠ .null →
    o.across a b = if k.nullsFirst then .lt else .gt
  nullType : (schema.fields.get c).type = .scalar .null → ∀ a b : SchemaRow schema, o.across a b = .eq
  /-- The other direction reverses the order of values without components. -/
  flip : ∀ s, (schema.fields.get c).type = .scalar s →
    ∃ flipped, RowOrder.resolve schema [{ k with ascending := !k.ascending }] = .ok flipped ∧
      ∀ a b : SchemaRow schema, a.value c ≠ .null → b.value c ≠ .null →
        flipped.across a b = (o.across a b).swap

namespace RowOrder

variable {schema : Schema} {columns : List (Fin schema.fields.length)} {keys : List SortKey}
  {o : RowOrder}

theorem keyLaws_of_reads (h : Reads schema keys columns) :
    KeyLaws schema keys (ofColumns schema columns keys) where
  encodes := encode_ofColumns
  trans _ _ _ := (chains_compareRows ..).isLE_trans
  swap _ _ := compare_swap ..
  eq_iff _ _ := across_eq_iff h.resolved
  lexicographic := exists_singles h
  inBatch := by
    intro a b a' b' encoded s left right hbatch hencoded hleft hright haa hbb
    have ha : a.keys (ofColumns schema columns keys) = encoded.row a.index := by
      rw [SchemaRow.keys, hencoded]
    have hb : b.keys (ofColumns schema columns keys) = encoded.row b.index := by
      rw [SchemaRow.keys, ← hbatch, hencoded]
    rw [compareInBatch, hleft, hright, ← ha, ← hb, across, keys_ofColumns, keys_ofColumns,
      keys_ofColumns, keys_ofColumns, map_value_eq h.resolved haa, map_value_eq h.resolved hbb]

theorem singleKeyLaws {k : SortKey} {c : Fin schema.fields.length}
    (hk : k.column.resolve schema = .ok c) :
    SingleKeyLaws schema k c (ofColumns schema [c] [k]) where
  nulls a b ha hb := by
    rw [across_singleton, ha, Value.compareWith_null hb]
    rfl
  nullType htype a b := by
    have hnull : ∀ a : SchemaRow schema, a.value c = .null := fun a => by
      have hrank := a.value_typed c
      rw [htype] at hrank
      refine hrank.elim id fun hz => ?_
      cases hv : a.value c with
      | null => rfl
      | _ => rw [hv] at hz; cases hz
    rw [across_singleton, hnull a, hnull b]
    rfl
  flip s htype := by
    refine ⟨ofColumns schema [c] [_], resolve_singleton hk (by rw [htype]; rfl), fun a b ha hb => ?_⟩
    have hrank : (a.value c).rank ≠ 7 := by
      rw [(a.value_typed c).resolve_left ha, htype]
      exact s.rank_ne_items
    rw [across_singleton, across_singleton]
    exact Value.compareWith_reversed ha hb hrank

/-- **Rows are compared by their key tuples, in a total order.** Whatever keys a schema accepts,
comparisons chain, the other way round they are reversed, and rows compare as equal exactly if they
have the same keys. The first key that finds a difference decides. A null has the place its key gives
it, and the other direction of a key reverses the order of other values that have no components. It
is all the same which batches the rows lie in, and whether they are named through a selection. -/
theorem resolve_laws (h : resolve schema keys = .ok o) :
    KeyLaws schema keys o ∧ ∀ k ∈ keys, ∃ c single, k.column.resolve schema = .ok c ∧
      resolve schema [k] = .ok single ∧ SingleKeyLaws schema k c single := by
  obtain ⟨-, columns, hreads, rfl⟩ := resolve_ok_iff.mp h
  refine ⟨keyLaws_of_reads hreads, fun k hk => ?_⟩
  obtain ⟨c, hc, hkc⟩ := exists_related hreads.resolved hk
  exact ⟨c, _, hkc, resolve_singleton hkc (hreads.comparable c hc), singleKeyLaws hkc⟩

end RowOrder

namespace Sample

/-- A column of floats and one of lists. -/
def readings : Schema :=
  ⟨[.mk "x" (.scalar .float64) true [], .mk "tags" (.list (.scalar .int32)) true []]⟩

/-- Descending by float, then ascending by list. -/
def readingKeys : List SortKey := [.desc "x", ⟨.position 1, true, false⟩]

/-- A zero, a negative zero, and a zero with a longer list. -/
def readingBatch : Batch :=
  .ofColumns readings 3 #[
    #[.float64 0, .float64 0x8000000000000000, .float64 0],
    #[.items [.int 1], .null, .items [.int 1, .null]]]

/-- A row of the batch. -/
def reading (i : Fin 3) : SchemaRow readings where
  batch := readingBatch
  schema_eq := rfl
  typed
    | 0, _, rfl, 0, _ | 0, _, rfl, 1, _ | 0, _, rfl, 2, _ => .inr rfl
    | 1, _, rfl, 0, _ | 1, _, rfl, 2, _ => .inr rfl
    | 1, _, rfl, 1, _ => .inl rfl
  index := i
  index_lt := i.isLt

/-- The order that the keys are resolved to. -/
def byReading : RowOrder := .ofColumns readings [⟨0, by decide⟩, ⟨1, by decide⟩] readingKeys

theorem resolve_readings : RowOrder.resolve readings readingKeys = .ok byReading :=
  RowOrder.resolve_ok_iff.mpr ⟨nofun, _, ⟨.cons rfl (.cons rfl .nil), by decide⟩, rfl⟩

end Sample

/-- In a descending key zero comes before negative zero, whatever the lists; among equal floats the
shorter list comes first. -/
theorem RowOrder.resolve_laws_readings :
    resolve Sample.readings Sample.readingKeys = .ok Sample.byReading ∧
      Sample.byReading.across (Sample.reading 1) (Sample.reading 0) = .gt ∧
      Sample.byReading.across (Sample.reading 2) (Sample.reading 0) = .gt := by
  have hzeros : Sample.byReading.across (Sample.reading 0) (Sample.reading 1) = .lt := by
    rw [Sample.byReading, Sample.readingKeys, across_cons]
    rfl
  have hlists : Sample.byReading.across (Sample.reading 0) (Sample.reading 2) = .lt := by
    rw [Sample.byReading, Sample.readingKeys, across_cons, across_singleton]
    rfl
  have hswap := (resolve_laws Sample.resolve_readings).1.swap
  exact ⟨Sample.resolve_readings, by rw [hswap, hzeros]; rfl, by rw [hswap, hlists]; rfl⟩

end SpillSort
