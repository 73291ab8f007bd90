import Mathlib.Data.List.Nodup
import SpillSort.Proofs.Accounts

/-!
# Files that are held

The files of a sort lie on a disk that has other things on it. A disk keeps some files above a base
if its tree is that of the base with exactly these files added, each at a place where the base has
nothing, and if each has its bytes.

* `Disk.Keeps.createFile`, `Disk.Keeps.write` and `Disk.Keeps.removeFile` say how the held files
  change; removing a held file always succeeds.
* `Disk.Keeps.openFile` and `Disk.Keeps.read` find the content of a held file.
-/

namespace SpillSort.Spill.Disk

variable {base d d' : Disk} {p q : Place} {path : Place}

/-! ## Finding places -/

theorem enter_of_directories (h : ∀ q, d.node? q = some .directory → d'.node? q = some .directory) :
    ∀ {path q : Place}, d.enter path = .ok q → d'.enter path = .ok q
  | [], _, hq => hq
  | c :: up, _, hq => by
    simp only [enter, bind, Except.bind] at hq ⊢
    rcases hu : d.enter up with e | a
    · simp [hu] at hq
    rw [enter_of_directories h hu]
    simp only [hu] at hq ⊢
    rcases hs : step a c with e | r
    · simp [hs] at hq
    simp only [hs] at hq ⊢
    rcases hn : d.node? r with _ | _ | n
    · simp [hn, throw, throwThe, MonadExceptOf.throw] at hq
    · rw [h r hn]
      simpa [hn] using hq
    · simp [hn, throw, throwThe, MonadExceptOf.throw] at hq

theorem node?_of_find {n : Option Node} (h : d.find path = .ok (p, n)) : d.node? p = n := by
  unfold find at h
  split at h
  · cases h
  · split at h
    · cases h
      rfl
    · next c up _ =>
      simp only [bind, Except.bind] at h
      rcases hu : d.enter up with e | a
      · simp [hu] at h
      rcases hs : step a c with e | r
      · simp [hu, hs] at h
      simp only [hu, hs, pure, Except.pure, Except.ok.injEq, Prod.mk.injEq] at h
      rw [← h.1]
      exact h.2

theorem find_of_directories {n : Option Node}
    (h : ∀ q, d.node? q = some .directory → d'.node? q = some .directory)
    (hf : d.find path = .ok (p, n)) : d'.find path = .ok (p, d'.node? p) := by
  unfold find at hf ⊢
  split at hf
  · cases hf
  · next hnul =>
    rw [if_neg hnul]
    split at hf
    · cases hf
      rfl
    · next c up =>
      simp only [bind, Except.bind] at hf ⊢
      rcases hu : d.enter up with e | a
      · simp [hu] at hf
      rw [enter_of_directories h hu]
      rcases hs : step a c with e | r
      · simp [hu, hs] at hf
      simp only [hu, hs, pure, Except.pure, Except.ok.injEq, Prod.mk.injEq] at hf ⊢
      exact ⟨hf.1, by rw [hf.1]⟩

theorem ne_nil_of_node?_eq_none (h : d.node? p = none) : p ≠ [] := by
  rintro rfl
  cases h

theorem not_mem_keys_of_node?_eq_none (h : d.node? p = none) : ∀ e ∈ d.tree, e.1 ≠ p := by
  have hp := ne_nil_of_node?_eq_none h
  rw [node?, if_neg (by simpa using hp)] at h
  intro e he hep
  simpa [hep] using List.lookup_eq_none_iff.mp h e he

/-! ## Held files -/

/-- A held file with the place it lies at. -/
abbrev Placed := Place × HeldFile

/-- The entry of a held file in a tree. -/
def entryOf (e : Placed) : Place × Node := (e.1, .file e.2.content)

/-- The disk has the held files, and otherwise what the base has. -/
structure Keeps (base d : Disk) (fs : List Placed) : Prop where
  tree : d.tree = fs.map entryOf ++ base.tree
  vacant : ∀ e ∈ fs, base.find (.ofPath e.2.path) = .ok (e.1, none)
  places : (fs.map (·.1)).Nodup
  contents : ∀ e ∈ fs, d.contents[e.2.content]? = some e.2.bytes
  distinct : (fs.map (·.2.content)).Nodup

namespace Keeps

variable {fs : List Placed} {e : Placed}

theorem lookup_entries (fs : List Placed) (rest : List (Place × Node)) (p : Place) :
    (fs.map entryOf ++ rest).lookup p =
      ((fs.find? (·.1 = p)).map fun e => .file e.2.content).or (rest.lookup p) := by
  induction fs with
  | nil => rfl
  | cons f fs ih =>
    rw [List.map_cons, List.cons_append, List.lookup_cons, List.find?_cons, ih]
    by_cases h : f.1 = p
    · simp [entryOf, h]
    · have h' : (p == (entryOf f).1) = false := by simpa [entryOf] using Ne.symm h
      simp [h, h']

/-- Away from the held files a place holds what it holds in the base. -/
theorem node?_eq (h : Keeps base d fs) (p : Place) :
    d.node? p = ((fs.find? (·.1 = p)).map fun e => .file e.2.content).or (base.node? p) := by
  unfold node?
  split
  · next hp =>
    rcases hf : fs.find? (·.1 = p) with _ | e
    · rw [hf]
      rfl
    · have hv := node?_of_find (h.vacant e (List.mem_of_find?_eq_some hf))
      have he : e.1 = p := by simpa using List.find?_some hf
      have hnil : p = [] := by simpa using hp
      exact absurd (he.trans hnil) (ne_nil_of_node?_eq_none hv)
  · rw [h.tree, lookup_entries]

/-- The disk and its base have the same directories. -/
theorem directory_iff (h : Keeps base d fs) (q : Place) :
    d.node? q = some .directory ↔ base.node? q = some .directory := by
  rw [h.node?_eq]
  rcases hf : fs.find? (·.1 = q) with _ | e
  · simp only [hf, Option.map_none, Option.none_or]
  · have hv := node?_of_find (h.vacant e (List.mem_of_find?_eq_some hf))
    have he : e.1 = q := by simpa using List.find?_some hf
    rw [he] at hv
    simp [hf, hv]

theorem node?_of_mem (h : Keeps base d fs) (he : e ∈ fs) : d.node? e.1 = some (.file e.2.content) := by
  rw [h.node?_eq]
  rcases hf : fs.find? (·.1 = e.1) with _ | f
  · exact absurd (by simp) (List.find?_eq_none.mp hf e he)
  · have hfe : f.1 = e.1 := by simpa using List.find?_some hf
    have heq : f = e := List.inj_on_of_nodup_map h.places (List.mem_of_find?_eq_some hf) he hfe
    simp only [hf, heq, Option.map_some, Option.some_or]

/-- The path of a held file leads to it. -/
theorem find_of_mem (h : Keeps base d fs) (he : e ∈ fs) :
    d.find (.ofPath e.2.path) = .ok (e.1, some (.file e.2.content)) := by
  have := find_of_directories (fun q => (h.directory_iff q).mpr) (h.vacant e he)
  rwa [h.node?_of_mem he] at this

theorem openFile (h : Keeps base d fs) (he : e ∈ fs) :
    d.openFile e.2.path = .ok (.file e.2.content) := by
  simp [Disk.openFile, h.find_of_mem he, bind, Except.bind, pure, Except.pure]

theorem read (h : Keeps base d fs) (he : e ∈ fs) :
    d.read (.file e.2.content) = .ok e.2.bytes := by
  simp [Disk.read, h.contents e he]

/-- A disk without held files. -/
theorem nil (d : Disk) : Keeps d d [] := ⟨rfl, by simp, .nil, by simp, .nil⟩

/-- Only the tree and the contents matter. -/
theorem congr (h : Keeps base d fs) (ht : d'.tree = d.tree) (hc : d'.contents = d.contents) :
    Keeps base d' fs :=
  ⟨ht.trans h.tree, h.vacant, h.places, hc ▸ h.contents, h.distinct⟩

/-- A new file is held, and empty. -/
theorem createFile (h : Keeps base d fs) {path : String} {c : ContentId}
    (hd : d.createFile path = .ok (c, d')) :
    ∃ p, Keeps base d' ((p, ⟨path, c, .empty⟩) :: fs) := by
  unfold Disk.createFile at hd
  simp only [bind, Except.bind] at hd
  rcases hf : d.find (.ofPath path) with e | ⟨p, _ | n⟩
  · simp [hf] at hd
  · simp only [hf, pure, Except.pure, Except.ok.injEq, Prod.mk.injEq] at hd
    obtain ⟨rfl, rfl⟩ := hd
    have hnone := node?_of_find hf
    have hbase := find_of_directories (fun q => (h.directory_iff q).mp) hf
    have hp := hnone
    rw [h.node?_eq] at hp
    obtain ⟨hfs, hb⟩ := Option.or_eq_none_iff.mp hp
    rw [hb] at hbase
    have hnew : p ∉ fs.map (·.1) := by
      intro hm
      obtain ⟨e, he, hep⟩ := List.mem_map.mp hm
      have := h.node?_of_mem he
      rw [hep, hnone] at this
      cases this
    have hlt : ∀ e ∈ fs, e.2.content < d.contents.size := fun e he =>
      (Array.getElem?_eq_some_iff.mp (h.contents e he)).1
    refine ⟨p, ?_, ?_, ?_, ?_, ?_⟩
    · show (p, .file d.contents.size) :: d.tree.filter (·.1 ≠ p) = _
      rw [List.filter_eq_self.mpr (by simpa using not_mem_keys_of_node?_eq_none hnone), h.tree]
      rfl
    · exact List.forall_mem_cons.mpr ⟨hbase, h.vacant⟩
    · exact List.nodup_cons.mpr ⟨hnew, h.places⟩
    · refine List.forall_mem_cons.mpr ⟨by simp [Disk.put], fun e he => ?_⟩
      show (d.contents.push .empty)[e.2.content]? = _
      rw [Array.getElem?_push, if_neg (hlt e he).ne]
      exact h.contents e he
    · refine List.nodup_cons.mpr ⟨fun hm => ?_, h.distinct⟩
      obtain ⟨e, he, hec⟩ := List.mem_map.mp hm
      exact absurd hec (hlt e he).ne
  · simp [hf, throw, throwThe, MonadExceptOf.throw] at hd

/-- Writing to a held file changes its bytes and no others. -/
theorem write {gs : List Placed} {p : Place} {path : String} {c : ContentId} {old : ByteArray}
    (h : Keeps base d (fs ++ (p, ⟨path, c, old⟩) :: gs)) (bytes : ByteArray) :
    Keeps base (d.write c bytes) (fs ++ (p, ⟨path, c, bytes⟩) :: gs) := by
  have hlt := (Array.getElem?_eq_some_iff.mp
    (h.contents _ (List.mem_append_right fs List.mem_cons_self))).1
  have hdis := h.distinct
  rw [List.map_append, List.map_cons, List.nodup_middle, List.nodup_cons, ← List.map_append]
    at hdis
  have hcs : ∀ f ∈ fs ++ gs, (d.write c bytes).contents[f.2.content]? = some f.2.bytes := by
    intro f hf
    have hne : c ≠ f.2.content := fun heq => hdis.1 (List.mem_map.mpr ⟨f, hf, heq.symm⟩)
    show (d.contents.setIfInBounds c bytes)[f.2.content]? = _
    rw [Array.getElem?_setIfInBounds_ne hne]
    exact h.contents f (((List.Sublist.refl fs).append (List.sublist_cons_self _ gs)).subset hf)
  refine ⟨by simpa [Disk.write, entryOf] using h.tree, fun f hf => ?_,
    by simpa using h.places, fun f hf => ?_, by simpa using h.distinct⟩
  · rcases List.mem_append.mp hf with hf | hf
    · exact h.vacant f (List.mem_append_left _ hf)
    · rcases List.mem_cons.mp hf with rfl | hf
      · exact h.vacant (p, ⟨path, c, old⟩) (List.mem_append_right fs List.mem_cons_self)
      · exact h.vacant f (List.mem_append_right fs (List.mem_cons_of_mem _ hf))
  · rcases List.mem_append.mp hf with hf | hf
    · exact hcs f (List.mem_append_left gs hf)
    · rcases List.mem_cons.mp hf with rfl | hf
      · simp [Disk.write, hlt]
      · exact hcs f (List.mem_append_right fs hf)

/-- A held file can be removed, and then is no longer there. -/
theorem removeFile {gs : List Placed} (h : Keeps base d (fs ++ e :: gs)) :
    ∃ d', d.removeFile e.2.path = .ok d' ∧ Keeps base d' (fs ++ gs) := by
  have he : e ∈ fs ++ e :: gs := List.mem_append_right fs List.mem_cons_self
  have hsub : (fs ++ gs).Sublist (fs ++ e :: gs) :=
    (List.Sublist.refl fs).append (List.sublist_cons_self e gs)
  refine ⟨{ d with tree := d.tree.filter (·.1 ≠ e.1) }, ?_, ?_, fun f hf => h.vacant f (hsub.subset hf),
    (hsub.map _).nodup h.places, fun f hf => h.contents f (hsub.subset hf),
    (hsub.map _).nodup h.distinct⟩
  · simp [Disk.removeFile, h.find_of_mem he, bind, Except.bind, pure, Except.pure]
  · have hbase := node?_of_find (h.vacant e he)
    have hpl := h.places
    rw [List.map_append, List.map_cons, List.nodup_middle, List.nodup_cons, ← List.map_append]
      at hpl
    have hfg : ∀ f ∈ fs ++ gs, f.1 ≠ e.1 := fun f hf hfe =>
      hpl.1 (List.mem_map.mpr ⟨f, hf, hfe⟩)
    have hkeep : ∀ xs : List Placed, (∀ f ∈ xs, f.1 ≠ e.1) →
        (xs.map entryOf).filter (·.1 ≠ e.1) = xs.map entryOf := fun xs hxs =>
      List.filter_eq_self.mpr fun x hx => by
        obtain ⟨f, hf, rfl⟩ := List.mem_map.mp hx
        exact decide_eq_true (hxs f hf)
    show d.tree.filter (·.1 ≠ e.1) = _
    rw [h.tree, List.filter_append, List.map_append, List.filter_append, List.map_cons,
      List.filter_cons_of_neg (by simp [entryOf]),
      hkeep fs fun f hf => hfg f (List.mem_append_left gs hf),
      hkeep gs fun f hf => hfg f (List.mem_append_right fs hf),
      List.filter_eq_self.mpr (by simpa using not_mem_keys_of_node?_eq_none hbase),
      List.map_append]

end Keeps

end SpillSort.Spill.Disk
