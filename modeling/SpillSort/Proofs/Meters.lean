import SpillSort.Proofs.Openings
import SpillSort.Proofs.RoundTrip

/-!
# What a sort counts

A sort counts the rows it keeps, its spill files with their rows and bytes, and the rows it reads
back. The counters stand at its node of the profile and at the node `Spill` below it.

* A `Tally` is what there is to count, and `Workspace.Shows` says that the counters show it, and that
  the files are those the disk was given since.
* `Workspace.Silent` is what does not count; `Workspace.Restores` that some rows were read back.
* `Workspace.Shows.keep`, `Workspace.Shows.restore` and `Workspace.Shows.deposit` follow the three
  ways to count.
-/

namespace SpillSort

open Memory Spill

/-! ## Counters at different nodes -/

namespace Profile

variable {p : Profile} {f : Profile → Profile}

theorem find_onNamed_ne {k n : String} (hf : ∀ q, (f q).name = q.name) (hne : n ≠ k)
    (cs : List Profile) : (onNamed k f cs).find? (·.name = n) = cs.find? (·.name = n) := by
  have hempty : (f (empty k)).name = k := hf _
  induction cs with
  | nil => simp [onNamed, hempty, hne.symm]
  | cons c cs ih =>
    unfold onNamed
    by_cases hc : c.name = k
    · simp [hc, hf, hne.symm]
    · rw [if_neg hc, List.find?_cons, List.find?_cons, ih]

theorem child?_onChild_ne (hf : ∀ q, (f q).name = q.name) (p : Profile) {k n : String} (hne : n ≠ k) :
    (p.onChild k f).child? n = p.child? n := by
  cases p with
  | node name i c cs => exact find_onNamed_ne hf hne cs

/-- Counting at one node does not show at another. -/
theorem value?_onPath_ne {path path' : List String} (hne : path' ≠ path) (k k' : String)
    (g : Counter → Counter) (p : Profile) :
    (p.onPath path fun q => q.onCounter k g).value? path' k' = p.value? path' k' := by
  have hf : ∀ q, (onCounter k g q).name = q.name := name_onCounter k g
  induction path generalizing p path' with
  | nil =>
    obtain ⟨n, ns, rfl⟩ := List.exists_cons_of_ne_nil hne
    rw [value?_cons, value?_cons]
    cases p with
    | node name i c cs =>
      simp only [onPath, onCounter]
      split <;> rfl
  | cons n ns ih =>
    cases path' with
    | nil =>
      cases p
      rfl
    | cons n' ns' =>
      rw [value?_cons, value?_cons, onPath]
      by_cases hn : n' = n
      · subst hn
        have hns : ns' ≠ ns := fun h => hne (h ▸ rfl)
        rw [child?_onChild (name_onPath hf _), Option.bind_some, ih hns]
        cases p.child? n' with
        | none => exact value?_empty n' ns' k'
        | some c => rfl
      · rw [child?_onChild_ne (name_onPath hf _) p hn]

end Profile

/-! ## Tallies -/

/-- The bytes of a spill file, and the batches that were written to it. -/
structure Deposit where
  bytes : ByteArray
  batches : List Batch
  holds : FileHolds bytes batches

namespace Deposit

/-- The rows of a spill file. -/
def rows (d : Deposit) : Nat := total (d.batches.map Batch.rows)

/-- The length of a spill file. -/
def size (d : Deposit) : Nat := d.bytes.size

/-- A group has this spill file, which was not opened yet, besides a run in memory. -/
def In (d : Deposit) (g : SortedGroup) : Prop :=
  ∃ head file, g = .spilled (some head) file ∧ file.rows = d.rows ∧ file.bytes = d.size

end Deposit

/-- What a sort has to count: the rows kept, the files spilled, and the rows restored. -/
structure Tally where
  sorted : Nat := 0
  deposits : List Deposit := []
  restored : Nat := 0

/-- The sum of some numbers in signed words, to which each is fitted first. -/
def words (ns : List Nat) : Int64 := ns.foldl (fun word n => word + clampBytes n) 0

theorem words_append (ns : List Nat) (n : Nat) : words (ns ++ [n]) = words ns + clampBytes n := by
  rw [words, List.foldl_append]
  rfl

/-- Numbers that fit are added up as they are. -/
theorem words_eq {ns : List Nat} (h : ∀ n ∈ ns, (n : Int) ≤ maxWord) :
    words ns = Int64.ofNat (total ns) := by
  have hfold : ∀ word : Nat, ns.foldl (fun word n => word + clampBytes n) (Int64.ofNat word) =
      Int64.ofNat (word + total ns) := by
    induction ns with
    | nil => exact fun _ => rfl
    | cons n ns ih =>
      obtain ⟨hn, hns⟩ := List.forall_mem_cons.mp h
      have hfits : clampBytes n = Int64.ofNat n := by
        rw [maxWord] at hn
        rw [clampBytes, if_pos (by omega)]
      intro word
      rw [List.foldl_cons, hfits, ← Int64.ofNat_add, ih hns, total_cons, Nat.add_assoc]
  rw [← Nat.zero_add (total ns)]
  exact hfold 0

namespace Workspace

variable {w v u : Workspace} {base : Array ByteArray} {t : Tally}

/-- The value of a counter of the sort, at its own node or at one below. -/
def counted? (w : Workspace) (path : List String) (k : String) : Option Int64 :=
  w.fragment.profile.value? (w.node ++ path) k

/-- The counters show a tally, and its files are all that were made on a disk with the contents
`base`. -/
structure Shows (base : Array ByteArray) (w : Workspace) (t : Tally) : Prop where
  contents : w.disk.contents.toList = base.toList ++ t.deposits.map Deposit.bytes
  sortRows : w.counted? [] "SortRows" = some (Int64.ofNat t.sorted)
  spillCount : w.counted? ["Spill"] "SpillCount" = some (Int64.ofNat t.deposits.length)
  spillRows : w.counted? ["Spill"] "SpillRows" = some (words (t.deposits.map Deposit.rows))
  spillBytes : w.counted? ["Spill"] "SpillBytes" = some (words (t.deposits.map Deposit.size))
  restoreRows : w.counted? ["Spill"] "RestoreRows" = some (Int64.ofNat t.restored)

/-- Nothing is counted, and no file is made or written. -/
structure Silent (w v : Workspace) : Prop where
  profile : v.fragment.profile = w.fragment.profile
  node : v.node = w.node
  contents : v.disk.contents = w.disk.contents

instance : IsPreorder Workspace Silent where
  refl _ := ⟨rfl, rfl, rfl⟩
  trans _ _ _ h h' :=
    ⟨h'.profile.trans h.profile, h'.node.trans h.node, h'.contents.trans h.contents⟩

instance : Lenient Silent where
  ledger _ _ := ⟨rfl, rfl, rfl⟩
  trouble w := ⟨rfl, rfl, w.disk.contents_nextTrouble⟩
  remove h := ⟨rfl, rfl, Disk.contents_removeFile h⟩
  named _ := ⟨rfl, rfl, rfl⟩
  look _ := ⟨rfl, rfl, rfl⟩
  raise _ := ⟨rfl, rfl, rfl⟩
  journal _ _ := ⟨rfl, rfl, rfl⟩

theorem Silent.counted? (h : Silent w v) (path : List String) (k : String) :
    v.counted? path k = w.counted? path k := by
  rw [Workspace.counted?, Workspace.counted?, h.profile, h.node]

theorem Shows.silent (h : w.Shows base t) (hs : Silent w v) : v.Shows base t where
  contents := by rw [hs.contents, h.contents]
  sortRows := (hs.counted? ..).trans h.sortRows
  spillCount := (hs.counted? ..).trans h.spillCount
  spillRows := (hs.counted? ..).trans h.spillRows
  spillBytes := (hs.counted? ..).trans h.spillBytes
  restoreRows := (hs.counted? ..).trans h.restoreRows

/-- So many rows were restored, and nothing else was counted. -/
def Restores (n : Nat) (w v : Workspace) : Prop :=
  ∀ base t, w.Shows base t → v.Shows base { t with restored := t.restored + n }

theorem Silent.restores (h : Silent w v) : Restores 0 w v := fun _ _ hw => hw.silent h

theorem Restores.trans {m n : Nat} (h : Restores m w v) (h' : Restores n v u) :
    Restores (m + n) w u := fun base t hw => by
  rw [← Nat.add_assoc]
  exact h' base _ (h base t hw)

theorem Restores.silent {n : Nat} (h : Restores n w v) (h' : Silent v u) : Restores n w u :=
  h.trans h'.restores

/-! ## Counting -/

/-- Counting shows in one counter. -/
theorem count_counted (path : List String) (k : String) (f : Counter → Counter) {path' : List String}
    {k' : String} {x : Int64} (h : w.counted? path' k' = some x) :
    Ensures (count path k f) (fun _ v => ∃ c : Counter, c.value = x ∧
      v.counted? path' k' = some (if path' = path ∧ k' = k then (f c).value else x)) w := by
  show ∃ c : Counter, c.value = x ∧ (w.fragment.profile.onPath (w.node ++ path)
    fun p => p.onCounter k f).value? (w.node ++ path') k' = _
  by_cases hpath : path' = path
  · subst hpath
    simp only [true_and]
    exact Profile.value?_onCounter h f
  · refine ⟨⟨.count, x⟩, rfl, ?_⟩
    rw [if_neg fun hc => hpath hc.1, Profile.value?_onPath_ne fun hc =>
      hpath (List.append_cancel_left hc)]
    exact h

/-- A counter of no concern. -/
theorem count_counted_ne {path path' : List String} {k k' : String} (f : Counter → Counter)
    (hne : ¬(path' = path ∧ k' = k)) {x : Int64} (h : w.counted? path' k' = some x) :
    Ensures (count path k f) (fun _ v => v.counted? path' k' = some x) w := by
  refine (count_counted path k f h).mono fun _ v hv => ?_
  obtain ⟨c, -, hv⟩ := hv
  rwa [if_neg hne] at hv

/-- Adding to a counter. -/
theorem count_counted_add {path : List String} {k : String} (d : Int64) {x : Int64}
    (h : w.counted? path k = some x) :
    Ensures (count path k (·.add d)) (fun _ v => v.counted? path k = some (x + d)) w := by
  refine (count_counted path k _ h).mono fun _ v hv => ?_
  obtain ⟨c, hc, hv⟩ := hv
  rw [if_pos ⟨rfl, rfl⟩] at hv
  rw [hv, Counter.add, hc]

/-- Rows are kept. -/
theorem Shows.keep (h : w.Shows base t) (n : Nat) :
    Ensures (count [] "SortRows" (·.add (Int64.ofNat n)))
      (fun _ v => v.Shows base { t with sorted := t.sorted + n }) w where
  contents := h.contents
  sortRows := by
    rw [Int64.ofNat_add]
    exact count_counted_add _ h.sortRows
  spillCount := count_counted_ne _ (by simp) h.spillCount
  spillRows := count_counted_ne _ (by simp) h.spillRows
  spillBytes := count_counted_ne _ (by simp) h.spillBytes
  restoreRows := count_counted_ne _ (by simp) h.restoreRows

/-- Rows are restored. -/
theorem Shows.restore (h : w.Shows base t) (n : Nat) :
    Ensures (count ["Spill"] "RestoreRows" (·.add (Int64.ofNat n)))
      (fun _ v => v.Shows base { t with restored := t.restored + n }) w where
  contents := h.contents
  sortRows := count_counted_ne _ (by simp) h.sortRows
  spillCount := count_counted_ne _ (by simp) h.spillCount
  spillRows := count_counted_ne _ (by simp) h.spillRows
  spillBytes := count_counted_ne _ (by simp) h.spillBytes
  restoreRows := by
    rw [Int64.ofNat_add]
    exact count_counted_add _ h.restoreRows

/-- The peak of the resident bytes is no part of the tally. -/
theorem Shows.peak (h : w.Shows base t) (f : Counter → Counter) :
    Ensures (count [] "PeakResidentBytes" f) (fun _ v => v.Shows base t) w where
  contents := h.contents
  sortRows := count_counted_ne _ (by simp) h.sortRows
  spillCount := count_counted_ne _ (by simp) h.spillCount
  spillRows := count_counted_ne _ (by simp) h.spillRows
  spillBytes := count_counted_ne _ (by simp) h.spillBytes
  restoreRows := count_counted_ne _ (by simp) h.restoreRows

end Workspace

end SpillSort
