import Mathlib.Algebra.Order.Field.Rat
import Mathlib.Data.List.DropRight
import Mathlib.Data.List.Induction
import Mathlib.Data.Nat.Log
import Mathlib.Data.Rat.Cast.Order
import SpillSort.Sort.Policy
import SpillSort.Total

/-!
# The spill policy as a function of its history

The monitor keeps a few numbers up to date; what it answers depends on nothing but the events that
it was told of. Over words that do not overflow, each answer is the one that exact arithmetic gives.

* `PolicyEvent` is what the monitor may be told. A history is a list of events, the earliest first,
  and `History.resident`, `History.highWater` and `History.stagedSince` read it as a whole.
* `SpillReason.Asks` states the five rules about a history, over rational numbers.
* `Monitor.Recalls.tell` is one event, `Monitor.recalls_after` a whole history, and
  `Monitor.policy_exact` what is answered behind it.
-/

namespace SpillSort

/-- Something that the monitor is told. -/
inductive PolicyEvent where
  | staged (rows bytes : Nat)
  | spilled (released retained : Nat)
  | spillSkipped
  | outOfMemory
  deriving DecidableEq, Repr

namespace PolicyEvent

/-- Rows of the staged group. -/
def rows : PolicyEvent → Nat
  | staged rows _ => rows
  | _ => 0

/-- Bytes of the staged group. -/
def stagedBytes : PolicyEvent → Nat
  | staged _ bytes => bytes
  | _ => 0

/-- Bytes of the groups that were merged. -/
def releasedBytes : PolicyEvent → Nat
  | spilled released _ => released
  | _ => 0

/-- Bytes of the first chunk of a merge. -/
def retainedBytes : PolicyEvent → Nat
  | spilled _ retained => retained
  | _ => 0

/-- Whether a group was staged. -/
def isStaged : PolicyEvent → Bool
  | staged .. => true
  | _ => false

/-- Whether a spill was completed. -/
def isSpill : PolicyEvent → Bool
  | spilled .. => true
  | _ => false

/-- Whether staged groups are counted afresh from here on. -/
def restarts : PolicyEvent → Bool
  | staged .. => false
  | spilled .. | spillSkipped | outOfMemory => true

end PolicyEvent

/-! ## Reading a history -/

namespace History

/-- Rows of all staged groups. -/
def rows (h : List PolicyEvent) : Nat := total (h.map PolicyEvent.rows)

/-- Number of completed spills. -/
def spills (h : List PolicyEvent) : Nat := h.countP PolicyEvent.isSpill

/-- Resident bytes: those staged, less those released, and those retained. -/
def resident (h : List PolicyEvent) : Int :=
  total (h.map PolicyEvent.stagedBytes) - total (h.map PolicyEvent.releasedBytes) +
    total (h.map PolicyEvent.retainedBytes)

/-- Resident bytes at the last shortage of memory, the largest word before the first. -/
def highWater (h : List PolicyEvent) : Int :=
  let past := h.rdropWhile (· ≠ .outOfMemory)
  if past = [] then maxWord else resident past

/-- Groups staged since the last spill, skipped spill or shortage of memory. -/
def stagedSince (h : List PolicyEvent) : Nat :=
  (h.rtakeWhile fun e => !e.restarts).countP PolicyEvent.isStaged

/-- No event releases more than is resident before it, and what is resident behind it is a word. -/
def Bounded (h : List PolicyEvent) : Prop :=
  ∀ i (hi : i < h.length),
    (h[i].releasedBytes : Int) ≤ resident (h.take i) ∧ resident (h.take (i + 1)) ≤ maxWord

instance (h : List PolicyEvent) : Decidable (Bounded h) := inferInstanceAs (Decidable (∀ _, _))

variable {h : List PolicyEvent} {e : PolicyEvent}

theorem rows_concat : rows (h ++ [e]) = rows h + e.rows := by
  simp [rows]

theorem spills_concat : spills (h ++ [e]) = spills h + if e.isSpill then 1 else 0 := by
  simp [spills, List.countP_cons]

theorem resident_concat :
    resident (h ++ [e]) = resident h + e.stagedBytes - e.releasedBytes + e.retainedBytes := by
  simp only [resident, List.map_append, List.map_cons, List.map_nil, total_append, total_cons,
    total_nil]
  omega

theorem highWater_concat :
    highWater (h ++ [e]) = if e = .outOfMemory then resident (h ++ [e]) else highWater h := by
  by_cases he : e = .outOfMemory <;> simp [highWater, he]

theorem stagedSince_concat :
    stagedSince (h ++ [e]) = if e.restarts then 0 else stagedSince h + 1 := by
  cases e <;> simp [stagedSince, PolicyEvent.restarts, PolicyEvent.isStaged]

theorem Bounded.of_concat (hb : Bounded (h ++ [e])) :
    Bounded h ∧ (e.releasedBytes : Int) ≤ resident h ∧ resident (h ++ [e]) ≤ maxWord := by
  constructor
  · intro i hi
    have hlast := hb i (by simp; omega)
    rwa [List.getElem_append_left hi, List.take_append_of_le_length (by omega),
      List.take_append_of_le_length (by omega)] at hlast
  · have hlast := hb h.length (by simp)
    rwa [List.getElem_concat_length rfl, List.take_left, List.take_of_length_le (by simp)] at hlast

theorem Bounded.resident_word (hb : Bounded h) : 0 ≤ resident h ∧ resident h ≤ maxWord := by
  induction h using List.reverseRecOn with
  | nil => decide
  | append_singleton h e _ =>
    obtain ⟨-, hreleased, hword⟩ := hb.of_concat
    refine ⟨?_, hword⟩
    rw [resident_concat]
    omega

end History

/-! ## The rules -/

/-- Bytes that sorting `rows` rows in memory needs, whatever words can hold: twice the least power
of two that is not below four bytes a row. -/
def exactSortCost (rows : Nat) : Nat := 2 * Nat.pow 2 (Nat.clog 2 (4 * rows))

theorem powerOfTwoFrom_eq (n : Nat) : powerOfTwoFrom n = Nat.pow 2 (Nat.clog 2 n) := by
  unfold powerOfTwoFrom
  split
  · next hn => rw [Nat.clog_of_right_le_one hn]
  · next hn =>
    have hlt : n - 1 < 2 ^ ((n - 1).log2 + 1) := Nat.lt_log2_self
    have hle : 2 ^ (n - 1).log2 ≤ n - 1 := Nat.log2_self_le (by omega)
    congr 1
    apply Nat.le_antisymm
    · exact (Nat.lt_clog_iff_pow_lt (by decide)).mpr (by omega)
    · exact Nat.clog_le_of_le_pow (by omega)

/-- The estimate is exact as long as it is a word, however many rows there are. -/
theorem inMemorySortCost_eq (rows : Nat) :
    inMemorySortCost (min maxCount rows) = min maxWord (exactSortCost rows) := by
  unfold inMemorySortCost exactSortCost
  rw [powerOfTwoFrom_eq]
  rcases Nat.lt_or_ge maxCount (rows * 4) with hlt | hge
  · -- what is cut off is more than any word, before and after
    have hcut : min maxCount (min maxCount rows * 4) = maxCount := by
      rw [maxCount] at *
      omega
    have hcost : maxCount ≤ Nat.pow 2 (Nat.clog 2 maxCount) := Nat.le_pow_clog (by decide) _
    have hexact : 4 * rows ≤ Nat.pow 2 (Nat.clog 2 (4 * rows)) := Nat.le_pow_clog (by decide) _
    rw [hcut]
    generalize Nat.pow 2 (Nat.clog 2 maxCount) = cost at *
    generalize Nat.pow 2 (Nat.clog 2 (4 * rows)) = exact at *
    simp only [maxWord, maxCount] at *
    omega
  · have hsmall : min maxCount (min maxCount rows * 4) = 4 * rows := by omega
    rw [hsmall]
    generalize Nat.pow 2 (Nat.clog 2 (4 * rows)) = exact
    simp only [maxWord, maxCount]
    omega

/-- What a monitor is made with: the bytes of the allocation, how many resident groups may be too
many, and how many of them have to be staged before they count. -/
structure PolicyLimits where
  maxAllocation : Int
  threshold : Nat
  groupSize : Nat

namespace SpillReason

/-- The rules in the order in which they are tried, each by the reason that it gives. -/
def rules : List SpillReason :=
  [highWaterMark, inMemorySortUnaffordable, allocationLimit, fragmentLimit, groupCount]

/-- The rule asks for a spill behind a history. -/
def Asks (l : PolicyLimits) (h : List PolicyEvent) (s : MemorySnapshot) : SpillReason → Prop
  | highWaterMark => 0 < History.spills h ∧ (3 / 4 : Rat) * History.highWater h < History.resident h
  | inMemorySortUnaffordable =>
    History.spills h = 0 ∧ l.maxAllocation - s.allocated ≤ exactSortCost (History.rows h)
  | allocationLimit => (95 / 100 : Rat) * l.maxAllocation < History.resident h
  | fragmentLimit => ∃ limit ∈ s.fragmentLimit, (95 / 100 : Rat) * limit < History.resident h
  | groupCount => l.threshold < s.residentGroups ∧ l.groupSize ≤ History.stagedSince h
  | outOfMemory => False

instance (l : PolicyLimits) (h : List PolicyEvent) (s : MemorySnapshot) : DecidablePred (Asks l h s)
  | highWaterMark | inMemorySortUnaffordable | groupCount => inferInstanceAs (Decidable (_ ∧ _))
  | allocationLimit => inferInstanceAs (Decidable (_ < _))
  | fragmentLimit =>
    match hs : s.fragmentLimit with
    | none => .isFalse (by simp [Asks, hs])
    | some limit =>
      decidable_of_iff ((95 / 100 : Rat) * limit < History.resident h) (by simp [Asks, hs])
  | outOfMemory => .isFalse id

end SpillReason

/-- A fraction of a number is compared by cross products. -/
theorem fraction_mul_lt_iff {p q : Nat} (hq : 0 < q) (a b : Int) :
    (p / q : Rat) * a < b ↔ a * p < b * q := by
  have hq' : (0 : Rat) < q := by exact_mod_cast hq
  rw [div_mul_eq_mul_div, div_lt_iff₀ hq', mul_comm (p : Rat)]
  exact_mod_cast Iff.rfl

/-! ## Telling the monitor -/

namespace Monitor

/-- A monitor that was told nothing. -/
def start (l : PolicyLimits) : Monitor :=
  { maxAllocation := l.maxAllocation, threshold := l.threshold, groupSize := l.groupSize }

/-- What a monitor was made with. -/
def limits (m : Monitor) : PolicyLimits := ⟨m.maxAllocation, m.threshold, m.groupSize⟩

/-- Tells the monitor of an event. -/
def tell (m : Monitor) : PolicyEvent → Monitor
  | .staged rows bytes => m.onStaged rows bytes
  | .spilled released retained => m.onSpilled released retained
  | .spillSkipped => m.onSpillSkipped
  | .outOfMemory => m.onOutOfMemory.2

/-- Tells the monitor of a history. -/
def after (m : Monitor) (h : List PolicyEvent) : Monitor := h.foldl tell m

/-- The monitor has the numbers of a history. -/
structure Recalls (m : Monitor) (h : List PolicyEvent) : Prop where
  residentBytes : m.residentBytes = History.resident h
  highWaterMark : m.highWaterMark = History.highWater h
  stagedSinceSpill : m.stagedSinceSpill = History.stagedSince h
  spillCount : m.spillCount = History.spills h
  totalRows : m.totalRows = min maxCount (History.rows h)

variable {m : Monitor} {h : List PolicyEvent} {e : PolicyEvent} {s : MemorySnapshot}

theorem recalls_nil (l : PolicyLimits) : (start l).Recalls [] :=
  ⟨rfl, rfl, rfl, rfl, rfl⟩

/-- Words that hold what is resident before and behind an event are not cut off in between. -/
theorem residentBytes_tell (hm : m.residentBytes = History.resident h)
    (hb : History.Bounded (h ++ [e])) : (m.tell e).residentBytes = History.resident (h ++ [e]) := by
  obtain ⟨hpast, hreleased, hword⟩ := hb.of_concat
  have hbefore := hpast.resident_word
  rw [History.resident_concat] at hword ⊢
  cases e <;>
    simp only [tell, onStaged, onSpilled, onSpillSkipped, onOutOfMemory, saturate, word, hm,
      PolicyEvent.stagedBytes, PolicyEvent.releasedBytes, PolicyEvent.retainedBytes,
      maxWord] at * <;>
    omega

theorem Recalls.tell (hm : m.Recalls h) (hb : History.Bounded (h ++ [e])) :
    (m.tell e).Recalls (h ++ [e]) := by
  have hresident := residentBytes_tell hm.residentBytes hb
  refine ⟨hresident, ?_, ?_, ?_, ?_⟩
  · rw [History.highWater_concat, ← hresident, ← hm.highWaterMark]
    cases e <;> rfl
  · rw [History.stagedSince_concat, ← hm.stagedSinceSpill]
    cases e <;> rfl
  · rw [History.spills_concat, ← hm.spillCount]
    cases e <;> rfl
  · rw [History.rows_concat]
    have hrows := hm.totalRows
    cases e <;>
      simp only [Monitor.tell, onStaged, onSpilled, onSpillSkipped, onOutOfMemory,
        PolicyEvent.rows] <;>
      omega

/-- The monitor loses nothing of a history. -/
theorem recalls_after (l : PolicyLimits) (hb : History.Bounded h) :
    ((start l).after h).Recalls h := by
  induction h using List.reverseRecOn with
  | nil => exact recalls_nil l
  | append_singleton h e ih =>
    rw [after, List.foldl_concat]
    exact (ih hb.of_concat.1).tell hb

theorem limits_after (m : Monitor) (h : List PolicyEvent) : (m.after h).limits = m.limits := by
  induction h using List.reverseRecOn with
  | nil => rfl
  | append_singleton h e ih =>
    rw [after, List.foldl_concat, ← ih]
    cases e <;> rfl

/-! ## The rules as the monitor tries them -/

/-- The rule holds of the numbers that the monitor has. -/
def Meets (m : Monitor) (s : MemorySnapshot) : SpillReason → Prop
  | .highWaterMark => 0 < m.spillCount ∧ m.highWaterMark * 3 < m.residentBytes * 4
  | .inMemorySortUnaffordable => m.spillCount = 0 ∧
    saturate (m.maxAllocation - s.allocated) ≤ inMemorySortCost m.totalRows
  | .allocationLimit => above95Percent m.residentBytes m.maxAllocation
  | .fragmentLimit => s.fragmentLimit.any (above95Percent m.residentBytes)
  | .groupCount => m.threshold < s.residentGroups ∧ m.groupSize ≤ m.stagedSinceSpill
  | .outOfMemory => False

theorem above95Percent_iff (value limit : Int) :
    above95Percent value limit ↔ (95 / 100 : Rat) * limit < value := by
  have hcross := fraction_mul_lt_iff (p := 95) (q := 100) (by decide) limit value
  rw [above95Percent, decide_eq_true_iff]
  exact_mod_cast hcross.symm

/-- What is left of an allocation is compared with the exact cost, whether or not that is a word. -/
theorem saturate_le_inMemorySortCost_iff {maxAllocation allocated : Int}
    (hmax : maxAllocation ≤ maxWord) (hallocated : 0 ≤ allocated) (rows : Nat) :
    saturate (maxAllocation - allocated) ≤ inMemorySortCost (min maxCount rows) ↔
      maxAllocation - allocated ≤ exactSortCost rows := by
  rw [inMemorySortCost_eq]
  simp only [saturate, maxWord] at *
  omega

/-- The numbers that recall a history meet the rules that the history does. -/
theorem Recalls.meets_iff (hm : m.Recalls h) (hmax : m.maxAllocation ≤ maxWord)
    (hs : 0 ≤ s.allocated) (r : SpillReason) : m.Meets s r ↔ r.Asks m.limits h s := by
  cases r <;> simp only [Meets, SpillReason.Asks, limits, ← hm.spillCount]
  case highWaterMark =>
    have hcross := fraction_mul_lt_iff (p := 3) (q := 4) (by decide) m.highWaterMark m.residentBytes
    rw [← hm.highWaterMark, ← hm.residentBytes]
    exact and_congr_right fun _ => by exact_mod_cast hcross.symm
  case inMemorySortUnaffordable =>
    rw [hm.totalRows, saturate_le_inMemorySortCost_iff hmax hs]
  case allocationLimit => rw [above95Percent_iff, hm.residentBytes]
  case fragmentLimit =>
    simp only [Option.any_eq_true, above95Percent_iff, hm.residentBytes, Option.mem_def]
  case groupCount => rw [hm.stagedSinceSpill]

/-- The monitor gives the first reason that asks for a spill. -/
theorem Recalls.shouldSpill_eq (hm : m.Recalls h) (hmax : m.maxAllocation ≤ maxWord)
    (hs : 0 ≤ s.allocated) :
    m.shouldSpill s = SpillReason.rules.find? fun r => decide (r.Asks m.limits h s) := by
  have hfirst (r : SpillReason) (rs : List SpillReason) :
      (r :: rs).find? (fun r => decide (r.Asks m.limits h s)) =
        if r.Asks m.limits h s then some r
        else rs.find? fun r => decide (r.Asks m.limits h s) := by
    by_cases hr : r.Asks m.limits h s <;> simp [hr]
  simp only [SpillReason.rules, hfirst, ← hm.meets_iff hmax hs, Meets, List.find?_nil]
  rfl

/-- **What the policy answers.** Behind any history whose resident bytes are words and which never
releases more than is resident, the monitor gives the first of the five rules that holds of the
history in exact arithmetic, and a shortage of memory makes it spill if and only if more than two
groups were staged since the last spill, skipped spill or shortage. -/
theorem policy_exact {l : PolicyLimits} (hmax : l.maxAllocation ≤ maxWord)
    (hb : History.Bounded h) (hs : 0 ≤ s.allocated) :
    ((start l).after h).shouldSpill s =
        SpillReason.rules.find? (fun r => decide (r.Asks l h s)) ∧
      ((start l).after h).onOutOfMemory.1 = decide (2 < History.stagedSince h) := by
  have hm := recalls_after l hb
  have hlimits : ((start l).after h).limits = l := limits_after (start l) h
  constructor
  · have hword : ((start l).after h).limits.maxAllocation ≤ maxWord := by rwa [hlimits]
    rw [hm.shouldSpill_eq hword hs, hlimits]
  · rw [← hm.stagedSinceSpill]
    rfl

end Monitor

namespace Sample

/-- An allocation that nothing comes near to. -/
def ample : PolicyLimits := ⟨1099511627776, 100, 100⟩

/-- Memory runs short at 1000 bytes, and 300 are resident in the end. -/
def shortage : List PolicyEvent :=
  [.staged 1 400, .staged 1 300, .staged 1 300, .outOfMemory, .spilled 900 100, .staged 5 100]

/-- 95 percent of this fragment are 294.5 bytes. -/
def narrowFragment : MemorySnapshot :=
  { allocated := 300, fragmentLimit := some 310, residentGroups := 2 }

end Sample

/-- 300 bytes are below three quarters of the high water mark, but too many for the fragment. -/
theorem Monitor.policy_exact_narrow_fragment :
    (Sample.ample.maxAllocation ≤ maxWord ∧ History.Bounded Sample.shortage ∧
        0 ≤ Sample.narrowFragment.allocated) ∧
      ((start Sample.ample).after Sample.shortage).shouldSpill Sample.narrowFragment =
        some .fragmentLimit ∧
      ((start Sample.ample).after Sample.shortage).onOutOfMemory.1 = false := by
  have hmax : Sample.ample.maxAllocation ≤ maxWord := by decide
  have hb : History.Bounded Sample.shortage := by decide
  have hs : 0 ≤ Sample.narrowFragment.allocated := by decide
  obtain ⟨hreason, hshort⟩ := policy_exact hmax hb hs
  exact ⟨⟨hmax, hb, hs⟩, hreason.trans (by decide +kernel), hshort.trans (by decide)⟩

end SpillSort
