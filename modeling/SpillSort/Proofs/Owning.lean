import SpillSort.Proofs.FileRules
import SpillSort.Proofs.HeldFiles

/-!
# Owning

A part of a sort owns resources in a workspace: holders of charges and leases in the ledger, files on
the disk. Everything else that is held there is owned by others, and a step that works on its own
resources leaves it alone.

* `Owns` says that some resources are all that is held, in surroundings that are fixed.
* Each primitive step has one lemma: what it takes from the resources and what it adds.
-/

namespace SpillSort

open Memory Spill

/-- What a sort finds around it: the books of its tracker, unless nobody keeps them, the disk without
its files, and what the cancel flag is known to be. -/
structure Surroundings where
  books? : Option Books
  base : Disk
  flag : CancelFlag → Prop
  flag_look : ∀ f, flag f → flag f.look.2
  flag_raised : flag { raised := true }

/-- The surroundings once more charges were taken over. -/
def Surroundings.take (E : Surroundings) (cs : List ChargeId) : Surroundings :=
  { E with books? := E.books?.map fun b => { b with taken := b.taken ++ cs } }

theorem Surroundings.take_take (E : Surroundings) (cs ds : List ChargeId) :
    (E.take cs).take ds = E.take (cs ++ ds) := by
  simp [Surroundings.take, Function.comp_def]

/-- A change of the disk by others: all files stay as they are. -/
def LeavesFiles (f : Disk → Disk) : Prop := ∀ d, (f d).tree = d.tree ∧ (f d).contents = d.contents

/-- A change of the trackers by others: `t` shows what it showed, and stays where it is. -/
def Spares (t : TrackerId) (f : Forest → Forest) : Prop :=
  ∀ g, (f g).trackers.size = g.trackers.size ∧ (f g).path = g.path ∧ (f g).current t = g.current t

/-- The file of a resource. -/
def Resource.file? : Resource → Option HeldFile
  | file f => some f
  | _ => none

/-- The files among resources. -/
def Resources.files (R : Resources) : Multiset HeldFile := R.filterMap Resource.file?

namespace Resources

@[simp] theorem files_add (R S : Resources) : files (R + S) = files R + files S :=
  Multiset.filterMap_add ..

@[simp] theorem files_charge (c : ChargeId) (R : Resources) :
    files (.charge c ::ₘ R) = files R :=
  Multiset.filterMap_cons_none _ _ rfl

@[simp] theorem files_lease (i : LeaseId) (R : Resources) : files (.lease i ::ₘ R) = files R :=
  Multiset.filterMap_cons_none _ _ rfl

@[simp] theorem files_file (f : HeldFile) (R : Resources) :
    files (.file f ::ₘ R) = f ::ₘ files R :=
  Multiset.filterMap_cons_some _ _ _ rfl

@[simp] theorem files_charges (cs : List ChargeId) : files (charges cs) = 0 := by
  induction cs with
  | nil => rfl
  | cons c cs ih => rw [charges_cons, files_charge, ih]

theorem count_charge_file (c : ChargeId) (f : HeldFile) (R : Resources) :
    (Resource.file f ::ₘ R).count (.charge c) = R.count (.charge c) :=
  Multiset.count_cons_of_ne (by simp) R

theorem count_lease_file (i : LeaseId) (f : HeldFile) (R : Resources) :
    (Resource.file f ::ₘ R).count (.lease i) = R.count (.lease i) :=
  Multiset.count_cons_of_ne (by simp) R

end Resources

/-- The parts of a workspace that the resources are held in agree with them. -/
structure Surroundings.Agree (E : Surroundings) (l : Ledger) (d : Disk) (f : CancelFlag)
    (R : Resources) : Prop where
  accounts : ∀ b ∈ E.books?, Accounts b l R
  disk : ∃ fs : List Disk.Placed, (fs.map (·.2) : List HeldFile) = R.files ∧ E.base.Keeps d fs
  flag : E.flag f

/-- The resources are all that is held in a workspace. -/
def Owns (E : Surroundings) (w : Workspace) (R : Resources) : Prop :=
  E.Agree w.ledger w.disk w.cancel R

namespace Surroundings.Agree

variable {E : Surroundings} {l l' : Ledger} {d d' : Disk} {f : CancelFlag} {R S : Resources}

/-- Resources may change with the ledger as long as the files stay. -/
theorem onLedger (h : E.Agree l d f R) (hf : S.files = R.files)
    (ha : ∀ b ∈ E.books?, Accounts b l R → Accounts b l' S) : E.Agree l' d f S :=
  ⟨fun b hb => ha b hb (h.accounts b hb), hf ▸ h.disk, h.flag⟩

end Surroundings.Agree

/-- The accounts see only charges and leases. -/
theorem Accounts.congr {b : Books} {l : Ledger} {R S : Resources} (h : Accounts b l R)
    (hc : ∀ c, S.count (.charge c) = R.count (.charge c))
    (hl : ∀ i, S.count (.lease i) = R.count (.lease i)) : Accounts b l S :=
  ⟨h.tracked, h.shown, fun c => hc c ▸ h.holders c, fun i => hl i ▸ h.leases i, h.opened, h.foreign⟩

/-- Use of memory elsewhere changes nothing that the books see. -/
theorem Accounts.onForest {b : Books} {l : Ledger} {R : Resources} {f : Forest → Forest}
    (h : Accounts b l R) (hf : Spares b.tracker f) : Accounts b (l.onForest f) R := by
  obtain ⟨hsize, hpath, hcurrent⟩ := hf l.forest
  have hload : (l.onForest f).load b.tracker = l.load b.tracker := by
    simp only [Ledger.load, Ledger.onForest, Forest.share_congr hpath]
  refine ⟨?_, ?_, h.holders, h.leases, h.opened, ?_⟩
  · show b.tracker < (f l.forest).trackers.size
    rw [hsize]
    exact h.tracked
  · show (f l.forest).current b.tracker = _
    rw [hcurrent, hload]
    exact h.shown
  · intro c x hc hx
    show _ ∨ b.tracker ∉ (f l.forest).path x.tracker
    rw [hpath]
    exact h.foreign c x hc hx

namespace Owns

variable {E : Surroundings} {w w' : Workspace} {R S : Resources}

/-- Nothing else of a workspace matters. -/
theorem congr (h : Owns E w R) (hl : w'.ledger = w.ledger) (hd : w'.disk = w.disk)
    (hc : w'.cancel = w.cancel) : Owns E w' R := by
  unfold Owns at h ⊢
  rwa [hl, hd, hc]

/-- The same resources in another order. -/
theorem cast (h : Owns E w R) (hR : R = S) : Owns E w S := hR ▸ h

/-! ## Steps that touch nothing -/

/-- The journal owns nothing. -/
theorem journal (h : Owns E w R) (journal : Array Notice) : Owns E { w with journal } R := h

theorem note (h : Owns E w R) (n : Notice) :
    Ensures (Workspace.note n) (fun _ w => Owns E w R) w :=
  h

theorem count (h : Owns E w R) (path : List String) (k : String) (f : Counter → Counter) :
    Ensures (Workspace.count path k f) (fun _ w => Owns E w R) w :=
  h

theorem nextSpillPath (h : Owns E w R) :
    Ensures Workspace.nextSpillPath (fun _ w => Owns E w R) w :=
  h

/-- Looking at the cancel flag tells what the flag was. -/
theorem cancelled (h : Owns E w R) :
    Ensures Workspace.cancelled (fun b w => (∃ f, E.flag f ∧ f.look.1 = b) ∧ Owns E w R) w :=
  ⟨⟨w.cancel, h.flag, rfl⟩, h.accounts, h.disk, E.flag_look _ h.flag⟩

theorem raiseCancel (h : Owns E w R) : Ensures Workspace.raiseCancel (fun _ w => Owns E w R) w :=
  ⟨h.accounts, h.disk, E.flag_raised⟩

/-- Others leave the files alone, though they may let the disk fail. -/
theorem onDisk {f : Disk → Disk} (h : Owns E w R) (hf : LeavesFiles f) :
    Ensures (Workspace.onDisk f) (fun _ w => Owns E w R) w := by
  obtain ⟨fs, hfs, hk⟩ := h.disk
  obtain ⟨ht, hc⟩ := hf w.disk
  exact ⟨h.accounts, ⟨fs, hfs, hk.congr ht hc⟩, h.flag⟩

/-- Others use memory where the books do not see it. -/
theorem onForest {f : Forest → Forest} (h : Owns E w R)
    (hf : ∀ b ∈ E.books?, Spares b.tracker f) :
    Ensures (Workspace.onLedger (·.onForest f)) (fun _ w => Owns E w R) w :=
  h.onLedger rfl fun b hb ha => ha.onForest (hf b hb)

/-- More charges may count as taken over. -/
theorem take (h : Owns E w R) (cs : List ChargeId) : Owns (E.take cs) w R := by
  refine ⟨fun b hb => ?_, h.disk, h.flag⟩
  obtain ⟨b, hE, rfl⟩ := Option.map_eq_some_iff.mp hb
  exact (h.accounts b hE).mono rfl rfl rfl (List.subset_append_left _ _)

theorem brace (h : Owns E w R) (context : String) :
    Gives (Work.brace context) (fun _ w => Owns E w R) (fun _ w => Owns E w R) w := by
  have htrouble : ∀ d, w.disk.nextTrouble.2 = d → E.Agree w.ledger d w.cancel R := by
    rintro d rfl
    obtain ⟨fs, hfs, hk⟩ := h.disk
    refine ⟨h.accounts, ⟨fs, hfs, ?_⟩, h.flag⟩
    unfold Disk.nextTrouble
    split
    · exact hk
    · exact hk.congr rfl rfl
  exact Work.gives_brace (fun d hd => htrouble d (congrArg Prod.snd hd))
    fun _ d hd => htrouble d (congrArg Prod.snd hd)

/-! ## Charges -/

theorem dropAll {cs : List ChargeId} (h : Owns E w (.charges cs + R)) :
    Ensures (Workspace.dropAll cs) (fun _ w => Owns E w R) w :=
  h.onLedger (by simp) fun _ _ ha => ha.dropAll

/-- A new charge, whatever the limits. -/
theorem charge (h : Owns E w R) (id : TrackerId) (bytes : Int64) :
    Ensures (Workspace.withLedger fun l => l.charge id bytes)
      (fun c w => Owns E w (.charge c ::ₘ R)) w :=
  h.onLedger (by simp) fun _ _ ha => ha.charge id bytes

/-- A request for a charge that may be refused. -/
theorem tryCharge (h : Owns E w R) (id : TrackerId) (bytes : Int64) :
    Ensures (Workspace.withLedger fun l => l.tryCharge id bytes)
      (fun r w => Owns E w (.charges r.toOption.toList + R)) w := by
  show E.Agree (w.ledger.tryCharge id bytes).2 w.disk w.cancel
    (.charges (w.ledger.tryCharge id bytes).1.toOption.toList + R)
  unfold Ledger.tryCharge
  split
  · simpa [Except.toOption] using (show E.Agree _ _ _ _ from h)
  · exact h.onLedger (by simp [Except.toOption]) fun _ _ ha => by
      simpa [Except.toOption] using ha.charge id bytes

end Owns

/-- What a selection holds. -/
def RowSelection.held (s : RowSelection) : Resources := .charges s.charge?.toList

/-- What a global selection holds. -/
def GlobalSelection.held (s : GlobalSelection) : Resources := .charges s.charge?.toList

/-- What a chunk holds. -/
def Chunk.held (c : Chunk) : Resources := .charges c.charge?.toList

/-- Moving the charge of a chunk leaves its rows alone. -/
theorem Chunk.batch_transfer (chunk : Chunk) (tracker : TrackerId) (l : Ledger) :
    (chunk.transfer tracker l).1.batch = chunk.batch := by
  unfold transfer
  cases chunk.account? with
  | some a => rfl
  | none =>
    dsimp only
    by_cases h : clampBytes chunk.batch.bytes = 0
    · rw [if_pos h]
    · rw [if_neg h]

namespace Owns

variable {E : Surroundings} {w w' : Workspace} {R S : Resources}

theorem allocateRows (h : Owns E w R) (len : Nat) (tracker : TrackerId) :
    Ensures (Workspace.withLedger (RowSelection.allocate len tracker)) (fun r w =>
      match r with
      | .ok s => s.offsets = RowSelection.identityOffsets len ∧ Owns E w (s.held + R)
      | .error _ => Owns E w R) w := by
  have ht := h.tryCharge tracker (clampBytes (RowSelection.bytesFor len))
  revert ht
  simp only [Workspace.withLedger, RowSelection.allocate, Ensures.modifyGet_iff]
  rcases w.ledger.tryCharge tracker (clampBytes (RowSelection.bytesFor len)) with ⟨e | c, l⟩
  · intro ht
    exact (by simpa [Except.toOption] using ht : Owns E _ R)
  · exact fun ht => ⟨rfl, ht⟩

/-! ## Chunks -/

variable {c : Chunk}

theorem dropChunk (h : Owns E w (c.held + R)) :
    Ensures (Workspace.onLedger c.drop) (fun _ w => Owns E w R) w :=
  h.dropAll

/-- A slice holds what its chunk holds. -/
theorem slice (h : Owns E w (c.held + R)) (offset length : Nat) :
    Ensures (Workspace.withLedger (c.slice offset length))
      (fun s w => s.batch = c.batch.slice offset length ∧ Owns E w (s.held + (c.held + R))) w :=
  ⟨rfl, h.onLedger (by simp [Chunk.held]) fun _ _ ha => ha.shareAll⟩

/-- A batch without a charge gets one, unless it has no bytes. -/
theorem tracked (h : Owns E w R) (b : Batch) (tracker : TrackerId) :
    Ensures (Workspace.withLedger (Chunk.tracked b tracker))
      (fun s w => s.batch = b ∧ Owns E w (s.held + R)) w := by
  simp only [Workspace.withLedger, Chunk.tracked, Chunk.transfer, Ensures.modifyGet_iff]
  split
  · exact ⟨rfl, by simpa [Chunk.held, Chunk.charge?] using h⟩
  · exact ⟨rfl, h.charge tracker (clampBytes b.bytes)⟩

/-- A chunk moves to the tracker whose books are kept, if it counts as taken over. -/
theorem transfer {tracker : TrackerId} (h : Owns E w (c.held + R))
    (hE : ∀ b ∈ E.books?, b.tracker = tracker ∧ ∀ i ∈ c.charge?, i < b.opened → i ∈ b.taken) :
    Ensures (Workspace.withLedger (c.transfer tracker))
      (fun s w => s.batch = c.batch ∧ Owns E w (s.held + R)) w := by
  rcases c with ⟨batch, _ | a⟩
  · exact Owns.tracked (by simpa [Chunk.held, Chunk.charge?] using h) batch tracker
  · refine ⟨rfl, h.onLedger rfl fun b hb ha => ?_⟩
    obtain ⟨rfl, ht⟩ := hE b hb
    exact ha.transfer (by simp [Chunk.held, Chunk.charge?]) (ht a.charge rfl)

/-! ## Files -/

/-- A held file is among those that the disk keeps. -/
theorem exists_placed {f : HeldFile} (h : Owns E w (.file f ::ₘ R)) :
    ∃ (fs gs : List Disk.Placed) (p : Place), ((fs ++ gs).map (·.2) : List HeldFile) = R.files ∧
      E.base.Keeps w.disk (fs ++ (p, f) :: gs) := by
  obtain ⟨fs, hfs, hk⟩ := h.disk
  rw [Resources.files_file] at hfs
  have hf : f ∈ fs.map (·.2) := Multiset.mem_coe.mp (hfs ▸ Multiset.mem_cons_self f _)
  obtain ⟨⟨p, _⟩, he, rfl⟩ := List.mem_map.mp hf
  obtain ⟨fs, gs, rfl⟩ := List.append_of_mem he
  refine ⟨fs, gs, p, ?_, hk⟩
  rw [List.map_append, List.map_cons, ← Multiset.coe_add, ← Multiset.cons_coe, Multiset.add_cons,
    Multiset.coe_add, ← List.map_append] at hfs
  exact (Multiset.cons_inj_right _).mp hfs

/-- A held file can be removed. -/
theorem removeFile {f : HeldFile} (h : Owns E w (.file f ::ₘ R)) :
    Ensures (Workspace.removeFile f.path) (fun _ w => Owns E w R) w := by
  obtain ⟨fs, gs, p, hfs, hk⟩ := h.exists_placed
  obtain ⟨d', hd, hk'⟩ := hk.removeFile
  refine Workspace.ensures_removeFile (fun d hr => ?_) (fun hr => ?_) fun _ hr => ?_
  · obtain rfl : d' = d := Except.ok.inj (hd.symm.trans hr)
    exact ⟨fun b hb => (h.accounts b hb).congr (fun c => (Resources.count_charge_file c _ R).symm)
      fun i => (Resources.count_lease_file i _ R).symm, ⟨fs ++ gs, hfs, hk'⟩, h.flag⟩
  · cases hd.symm.trans hr
  · cases hd.symm.trans hr

/-- A file that was made is held. -/
theorem createFile {path : String} {content : ContentId} {disk : Disk} (h : Owns E w R)
    (hd : w.disk.createFile path = .ok (content, disk)) :
    Ensures (Workspace.onDisk fun _ => disk)
      (fun _ w => Owns E w (.file ⟨path, content, .empty⟩ ::ₘ R)) w := by
  obtain ⟨fs, hfs, hk⟩ := h.disk
  obtain ⟨p, hk'⟩ := hk.createFile hd
  refine ⟨fun b hb => (h.accounts b hb).congr (fun c => Resources.count_charge_file c _ R)
    fun i => Resources.count_lease_file i _ R, ⟨_, ?_, hk'⟩, h.flag⟩
  rw [Resources.files_file, ← hfs]
  rfl

/-- Writing to a held file. -/
theorem write {path : String} {content : ContentId} {old : ByteArray}
    (h : Owns E w (.file ⟨path, content, old⟩ ::ₘ R)) (bytes : ByteArray) :
    Ensures (Workspace.onDisk fun d => d.write content bytes)
      (fun _ w => Owns E w (.file ⟨path, content, bytes⟩ ::ₘ R)) w := by
  obtain ⟨fs, gs, p, hfs, hk⟩ := h.exists_placed
  have hfiles : ((fs ++ (p, ⟨path, content, bytes⟩) :: gs).map (·.2) : List HeldFile) =
      Resources.files (.file ⟨path, content, bytes⟩ ::ₘ R) := by
    rw [Resources.files_file, ← hfs]
    simp only [List.map_append, List.map_cons, ← Multiset.coe_add, ← Multiset.cons_coe,
      Multiset.add_cons]
  have hcharges : ∀ c, (Resource.file ⟨path, content, bytes⟩ ::ₘ R).count (.charge c) =
      (Resource.file ⟨path, content, old⟩ ::ₘ R).count (.charge c) := fun c => by
    rw [Resources.count_charge_file, Resources.count_charge_file]
  have hleases : ∀ i, (Resource.file ⟨path, content, bytes⟩ ::ₘ R).count (.lease i) =
      (Resource.file ⟨path, content, old⟩ ::ₘ R).count (.lease i) := fun i => by
    rw [Resources.count_lease_file, Resources.count_lease_file]
  show E.Agree w.ledger (w.disk.write content bytes) w.cancel _
  exact ⟨fun b hb => (h.accounts b hb).congr hcharges hleases, ⟨_, hfiles, hk.write bytes⟩, h.flag⟩

/-- Writing over the start of a held file. -/
theorem overwrite {path : String} {content : ContentId} {old : ByteArray}
    (h : Owns E w (.file ⟨path, content, old⟩ ::ₘ R)) (bytes : ByteArray) :
    Ensures (Workspace.onDisk fun d => d.overwrite content bytes)
      (fun _ w => Owns E w (.file ⟨path, content, bytes ++ old.extract bytes.size old.size⟩ ::ₘ R))
      w := by
  obtain ⟨fs, gs, p, -, hk⟩ := h.exists_placed
  have hold : w.disk.contents.getD content .empty = old :=
    Except.ok.inj (hk.read (List.mem_append_right fs List.mem_cons_self))
  have hdisk : w.disk.overwrite content bytes =
      w.disk.write content (bytes ++ old.extract bytes.size old.size) := by
    rw [Disk.overwrite, hold]
  have hwritten := h.write (bytes ++ old.extract bytes.size old.size)
  show Owns E { w with disk := w.disk.overwrite content bytes } _
  rw [hdisk]
  exact hwritten

/-- The path of a held file leads to its content, which has its bytes. -/
theorem openFile {f : HeldFile} (h : Owns E w (.file f ::ₘ R)) :
    w.disk.openFile f.path = .ok (.file f.content) ∧
      w.disk.read (.file f.content) = .ok f.bytes := by
  obtain ⟨fs, gs, p, -, hk⟩ := h.exists_placed
  have hm : (p, f) ∈ fs ++ (p, f) :: gs := List.mem_append_right fs List.mem_cons_self
  have ho := hk.openFile hm
  have hr := hk.read hm
  exact ⟨ho, hr⟩

end Owns

/-! ## Many owners -/

/-- Things that own resources together: each has its part of them. -/
inductive Shared {α : Type} (P : α → Resources → Prop) : List α → Resources → Prop where
  | nil : Shared P [] 0
  | cons {x : α} {xs : List α} {S T : Resources} :
    P x S → Shared P xs T → Shared P (x :: xs) (S + T)

namespace Shared

variable {α β : Type} {P : α → Resources → Prop} {Q : β → Resources → Prop} {xs ys : List α}
  {R S : Resources}

theorem map {f : α → β} (h : Shared P xs R) (hf : ∀ x ∈ xs, ∀ S, P x S → Q (f x) S) :
    Shared Q (xs.map f) R := by
  induction h with
  | nil => exact .nil
  | cons hx _ ih =>
    exact .cons (hf _ List.mem_cons_self _ hx) (ih fun x hm => hf x (List.mem_cons_of_mem _ hm))

theorem mono {P' : α → Resources → Prop} (h : Shared P xs R) (hP : ∀ x ∈ xs, ∀ S, P x S → P' x S) :
    Shared P' xs R := by
  simpa using h.map (f := id) hP

theorem append (h : Shared P xs R) (h' : Shared P ys S) : Shared P (xs ++ ys) (R + S) := by
  induction h with
  | nil => simpa using h'
  | cons hx _ ih =>
    rw [List.cons_append, add_assoc]
    exact .cons hx ih

theorem of_append (h : Shared P (xs ++ ys) R) :
    ∃ S T, R = S + T ∧ Shared P xs S ∧ Shared P ys T := by
  induction xs generalizing R with
  | nil => exact ⟨0, R, (zero_add R).symm, .nil, h⟩
  | cons x xs ih =>
    cases h with
    | cons hx h =>
      obtain ⟨S, T, rfl, hS, hT⟩ := ih h
      exact ⟨_, T, (add_assoc ..).symm, .cons hx hS, hT⟩

/-- One of the owners may be replaced, together with its part, while the others stay. -/
theorem exists_set {x : α} {i : Nat} (h : Shared P xs R) (hx : xs[i]? = some x) :
    ∃ S T, R = S + T ∧ P x S ∧ ∀ P' : α → Resources → Prop, (∀ y S, P y S → P' y S) →
      ∀ x' S', P' x' S' → Shared P' (xs.set i x') (S' + T) := by
  induction h generalizing i with
  | nil => simp at hx
  | @cons y ys S T hy hys ih =>
    cases i with
    | zero =>
      obtain rfl : y = x := by simpa using hx
      exact ⟨S, T, rfl, hy, fun P' hP x' S' hx' => .cons hx' (hys.mono fun z _ => hP z)⟩
    | succ i =>
      obtain ⟨U, V, rfl, hU, hset⟩ := ih (by simpa using hx)
      refine ⟨U, S + V, add_left_comm .., hU, fun P' hP x' S' hx' => ?_⟩
      rw [List.set_cons_succ, add_left_comm]
      exact .cons (hP y S hy) (hset P' hP x' S' hx')

/-- Each of the owners has its part. -/
theorem exists_part {x : α} (h : Shared P xs R) (hx : x ∈ xs) : ∃ S T, R = S + T ∧ P x S := by
  obtain ⟨i, hi⟩ := List.mem_iff_getElem?.mp hx
  obtain ⟨S, T, hR, hS, -⟩ := h.exists_set hi
  exact ⟨S, T, hR, hS⟩

end Shared

end SpillSort
