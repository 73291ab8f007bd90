/-!
# When to spill

The monitor follows the bytes of the groups kept in memory and decides, after each staged group,
whether half of them are merged to disk. `Monitor.shouldSpill` tries five rules in order:

1. after a first spill, the resident bytes are above three quarters of what they were at the last
   shortage of memory;
2. before any spill, the in-memory sort would not fit into what is left of the allocation;
3. the resident bytes are above 95 percent of the allocation;
4. they are above 95 percent of the fragment's limit;
5. too many groups are resident, and enough were staged since the last spill.
-/

namespace SpillSort

/-- Why groups are spilled. -/
inductive SpillReason where
  | highWaterMark
  | inMemorySortUnaffordable
  | allocationLimit
  | fragmentLimit
  | groupCount
  | outOfMemory
  deriving DecidableEq, Repr

/-- The name of a reason. -/
def SpillReason.name : SpillReason → String
  | highWaterMark => "high_water_mark"
  | inMemorySortUnaffordable => "in_memory_sort_unaffordable"
  | allocationLimit => "allocation_limit"
  | fragmentLimit => "fragment_limit"
  | groupCount => "group_count"
  | outOfMemory => "out_of_memory"

/-- The largest signed 64-bit word. -/
def maxWord : Int := 9223372036854775807

/-- The nearest signed 64-bit word. -/
def saturate (x : Int) : Int := max (-maxWord - 1) (min maxWord x)

/-- The largest unsigned 64-bit word. -/
def maxCount : Nat := 18446744073709551615

/-- The least power of two that is not below `n`. -/
def powerOfTwoFrom (n : Nat) : Nat := if n ≤ 1 then 1 else Nat.pow 2 ((n - 1).log2 + 1)

/-- Bytes that sorting `rows` rows in memory needs: two selections of four bytes a row, each rounded
up to a power of two. -/
def inMemorySortCost (rows : Nat) : Int :=
  min maxWord (min maxCount (min maxCount (powerOfTwoFrom (min maxCount (rows * 4))) * 2))

/-- Whether `value` exceeds 95 percent of `limit`. -/
def above95Percent (value limit : Int) : Bool := limit * 95 < value * 100

/-- What the allocator shows when the policy is asked. -/
structure MemorySnapshot where
  /-- Bytes charged to the operator's tracker. -/
  allocated : Int
  /-- The limit of the enclosing fragment, if it has one. -/
  fragmentLimit : Option Int
  /-- Number of groups in memory. -/
  residentGroups : Nat
  deriving DecidableEq, Repr

/-- The history the policy depends on. -/
structure Monitor where
  maxAllocation : Int
  /-- More resident groups than this may be too many. -/
  threshold : Nat
  /-- Groups staged since the last spill before their number counts. -/
  groupSize : Nat
  /-- Resident bytes at the last shortage of memory. -/
  highWaterMark : Int := maxWord
  residentBytes : Int := 0
  stagedSinceSpill : Nat := 0
  spillCount : Nat := 0
  totalRows : Nat := 0
  deriving DecidableEq, Repr

namespace Monitor

/-- A byte count as a signed word. -/
def word (bytes : Nat) : Int := min maxWord bytes

/-- A group was staged. -/
def onStaged (rows bytes : Nat) (m : Monitor) : Monitor :=
  { m with
    residentBytes := saturate (m.residentBytes + word bytes)
    totalRows := min maxCount (m.totalRows + rows)
    stagedSinceSpill := m.stagedSinceSpill + 1 }

/-- A spill freed `released` bytes of merged groups and kept `retained` of their first chunk. -/
def onSpilled (released retained : Nat) (m : Monitor) : Monitor :=
  { m with
    residentBytes := max 0 (saturate (saturate (m.residentBytes - word released) + word retained))
    spillCount := m.spillCount + 1
    stagedSinceSpill := 0 }

/-- Nothing was there to spill. -/
def onSpillSkipped (m : Monitor) : Monitor := { m with stagedSinceSpill := 0 }

/-- Memory ran short. The answer tells whether to spill at once: only if more than two groups were
staged since the last spill. -/
def onOutOfMemory (m : Monitor) : Bool × Monitor :=
  (2 < m.stagedSinceSpill, { m with highWaterMark := m.residentBytes, stagedSinceSpill := 0 })

/-- The first rule that asks for a spill. -/
def shouldSpill (m : Monitor) (s : MemorySnapshot) : Option SpillReason :=
  if 0 < m.spillCount ∧ m.highWaterMark * 3 < m.residentBytes * 4 then some .highWaterMark
  else if m.spillCount = 0 ∧
      saturate (m.maxAllocation - s.allocated) ≤ inMemorySortCost m.totalRows then
    some .inMemorySortUnaffordable
  else if above95Percent m.residentBytes m.maxAllocation then some .allocationLimit
  else if s.fragmentLimit.any (above95Percent m.residentBytes) then some .fragmentLimit
  else if m.threshold < s.residentGroups ∧ m.groupSize ≤ m.stagedSinceSpill then some .groupCount
  else none

end Monitor

end SpillSort
