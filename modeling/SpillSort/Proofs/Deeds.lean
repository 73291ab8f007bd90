import SpillSort.Proofs.Conservation
import SpillSort.Proofs.Registers

/-!
# Deeds of holders

Whatever holders do with their charges and chunks, the ledger stays conserved, and holds what a
register of the deeds says that is held.

* `Holders.Admits` are the deeds this is about: those that go through holders, on trackers that are
  there, while the sums fit a word.
* `Holders.perform_another` says what a copy and a slice of a chunk hold.
* `Holders.charges_conserved` is about any such deeds, one after the other.
-/

namespace SpillSort

open Memory

namespace Deed

/-- The names of the trackers that a deed charges, moves to or adds to. -/
def trackers : Deed → List String
  | .consume t _ | .release t _ | .tryConsume t _ => [t]
  | .charge _ t _ | .tryCharge _ t _ | .moveCharge _ t | .moveChunk _ t => [t]
  | .addTracker _ _ _ t? | .addChunk _ _ t? => t?.toList
  | _ => []

/-- The name that a copy or a slice gets, and that of its original. -/
def another? : Deed → Option (String × String)
  | .copyChunk name source | .sliceChunk name source _ _ => some (name, source)
  | _ => none

end Deed

namespace Holders

variable {h : Holders} {l₀ l : Ledger} {c : ChargeId}

/-- The charges that are held, once for each holder. -/
def held (h : Holders) : List ChargeId :=
  h.charges.map Prod.snd ++ h.chunks.filterMap fun x => x.2.charge?

/-- The ledger while a deed is done, before what was held under a name that it takes is let go of. -/
def fullest (h : Holders) : Deed → Ledger
  | .charge _ t bytes => (h.ledger.charge (h.tracker t) bytes).2
  | .tryCharge _ t bytes => (h.ledger.tryCharge (h.tracker t) bytes).2
  | .addChunk _ batch (some t) => (Chunk.tracked batch (h.tracker t) h.ledger).2
  | d => (h.perform d).2.ledger

/-- The deeds that go through holders, on trackers that are there, while the sums fit a word. -/
def Admits (h : Holders) (d : Deed) : Prop :=
  d.bare = false ∧ (∀ t ∈ d.trackers, (h.trackers.lookup t).isSome) ∧ (h.fullest d).Fits

instance (h : Holders) (d : Deed) : Decidable (h.Admits d) := by
  unfold Admits
  infer_instance

/-- Deeds that can be done one after the other. -/
def AdmitsAll (h : Holders) : List Deed → Prop
  | [] => True
  | d :: ds => h.Admits d ∧ (h.perform d).2.AdmitsAll ds

instance decidableAdmitsAll : ∀ (ds : List Deed) (h : Holders), Decidable (h.AdmitsAll ds)
  | [], _ => isTrue trivial
  | d :: ds, h =>
    have := decidableAdmitsAll ds (h.perform d).2
    inferInstanceAs (Decidable (_ ∧ _))

/-- Holders whose ledger is conserved and came from another one. Names are given once, and to trackers
that are there. -/
structure Orderly (l₀ : Ledger) (h : Holders) : Prop where
  conserved : l₀.Conserved h.ledger h.held
  trackers : ∀ x ∈ h.trackers, x.2 < h.ledger.forest.trackers.size
  charges : (h.charges.map Prod.fst).Nodup
  chunks : (h.chunks.map Prod.fst).Nodup

/-! ## What a name stands for -/

/-- The charges held apart from those of one name. -/
theorem held_perm_charges (hn : (h.charges.map Prod.fst).Nodup) (name : String) :
    h.held.Perm ((h.charges.lookup name).toList ++
      { h with charges := h.charges.erase name }.held) := by
  have hp := ((Named.perm_erase hn name).map Prod.snd).append_right
    (h.chunks.filterMap fun x => x.2.charge?)
  simpa [held, Function.comp_def] using hp

/-- The charges held apart from that of one chunk. -/
theorem held_perm_chunks (hn : (h.chunks.map Prod.fst).Nodup) (name : String) :
    h.held.Perm ((h.chunk name).charge?.toList ++ { h with chunks := h.chunks.erase name }.held) := by
  have hchunk : ((h.chunks.lookup name).toList.map (name, ·)).filterMap (fun x => x.2.charge?) =
      (h.chunk name).charge?.toList := by
    unfold chunk
    cases h.chunks.lookup name with
    | none => rfl
    | some c => cases hc : c.charge? <;> simp [hc]
  have hp := (((Named.perm_erase hn name).filterMap fun x => x.2.charge?).append_left
    (h.charges.map Prod.snd))
  rw [List.filterMap_append, hchunk] at hp
  exact hp.trans (List.perm_append_comm_assoc ..)

theorem keepChunk_eq (name : String) (c : Chunk) (h : Holders) :
    h.keepChunk name c =
      { h with ledger := (h.chunk name).drop h.ledger, chunks := h.chunks.set name c } := by
  unfold keepChunk chunk
  cases h.chunks.lookup name <;> rfl

theorem tracker_lt (ho : h.Orderly l₀) {t : String} (ht : (h.trackers.lookup t).isSome) :
    h.tracker t < h.ledger.forest.trackers.size := by
  obtain ⟨id, hid⟩ := Option.isSome_iff_exists.mp ht
  rw [tracker, hid]
  exact ho.trackers _ (Named.mem_of_lookup hid)

/-! ## What deeds keep -/

/-- A new charge under a name, instead of the one that had it. -/
theorem conserved_keepCharge (hn : (h.charges.map Prod.fst).Nodup) (name : String)
    (hc : l₀.Conserved l (c :: h.held)) :
    l₀.Conserved ({ h with ledger := l }.keepCharge name c).ledger
      ({ h with ledger := l }.keepCharge name c).held := by
  have hp := ((held_perm_charges hn name).cons c).trans List.perm_middle.symm
  exact (hc.perm hp).dropAll

theorem held_set_perm (name : String) (k : Chunk) (h : Holders) :
    { h with chunks := h.chunks.set name k }.held.Perm
      (k.charge?.toList ++ { h with chunks := h.chunks.erase name }.held) := by
  unfold held
  rw [Named.set, List.filterMap_cons]
  cases k.charge? with
  | none => exact .rfl
  | some c => exact List.perm_middle

/-- A new chunk under a name, instead of the one that had it. -/
theorem conserved_keepChunk (hn : (h.chunks.map Prod.fst).Nodup) (name : String) (k : Chunk)
    (hc : l₀.Conserved l (k.charge?.toList ++ h.held)) :
    l₀.Conserved ({ h with ledger := l }.keepChunk name k).ledger
      ({ h with ledger := l }.keepChunk name k).held := by
  rw [keepChunk_eq]
  have hp := ((held_perm_chunks hn name).append_left k.charge?.toList).trans
    (List.perm_append_comm_assoc ..)
  have hdrop : l₀.Conserved ((h.chunk name).drop l) _ := (hc.perm hp).dropAll
  exact hdrop.perm (held_set_perm name k h).symm

/-- Another holder of a chunk. -/
theorem conserved_shareChunk (ho : h.Orderly l₀) (name : String) :
    l₀.Conserved (h.ledger.shareAll (h.chunk name).charge?.toList)
      ((h.chunk name).charge?.toList ++ h.held) := by
  have hp := held_perm_chunks ho.chunks name
  cases hc : (h.chunk name).charge? with
  | none => exact ho.conserved
  | some c =>
    refine ho.conserved.share (hp.mem_iff.mpr ?_)
    rw [hc]
    exact List.mem_cons_self

/-- A chunk moves to a tracker with its charge, or is charged there. -/
theorem conserved_transfer (ho : h.Orderly l₀) {k : Chunk} {rest : List ChargeId}
    (hp : h.held.Perm (k.charge?.toList ++ rest)) {id : TrackerId}
    (hid : id < h.ledger.forest.trackers.size) (hfits : (k.transfer id h.ledger).2.Fits) :
    l₀.Conserved (k.transfer id h.ledger).2
      ((k.transfer id h.ledger).1.charge?.toList ++ rest) := by
  have hc := ho.conserved.perm hp
  unfold Chunk.transfer at hfits ⊢
  cases ha : k.account? with
  | some a =>
    simp only [ha] at hfits
    refine hc.transfer (List.mem_append_left _ ?_) hid hfits
    simp [Chunk.charge?, ha]
  | none =>
    have hnone : k.charge?.toList = [] := by simp [Chunk.charge?, ha]
    rw [hnone] at hc
    simp only [ha] at hfits
    dsimp only
    split
    · rw [hnone]
      exact hc
    · next hb =>
      rw [if_neg hb] at hfits
      exact hc.charge hid hfits

/-- Whoever made a tracker lets go of its name. -/
theorem conserved_dropTracker (hc : l₀.Conserved h.ledger h.held)
    (ht : ∀ x ∈ h.trackers, x.2 < h.ledger.forest.trackers.size) (name : String) :
    l₀.Conserved (h.dropTracker name).ledger (h.dropTracker name).held := by
  unfold dropTracker
  split
  · next id hid => exact hc.letGo (ht _ (Named.mem_of_lookup hid))
  · exact hc

/-- A tracker is made under a name; whoever made the one that had it lets go of that. -/
theorem conserved_addTracker (ho : h.Orderly h.ledger) (name label : String) (limit : Int64)
    {parent? : Option String}
    (hparent : ∀ p ∈ parent?.toList, h.tracker p < h.ledger.forest.trackers.size) :
    h.ledger.Conserved (h.addTracker name label limit parent?).ledger
      (h.addTracker name label limit parent?).held := by
  have hnew : ∀ l : Ledger, h.ledger.Conserved l h.held →
      h.ledger.Conserved ({ h with ledger := l }.dropTracker name).ledger
        ({ h with ledger := l }.dropTracker name).held := fun l hl =>
    conserved_dropTracker (h := { h with ledger := l }) hl
      (fun x hx => Nat.lt_of_lt_of_le (ho.trackers x hx) hl.continues.size) name
  cases parent? with
  | none => exact hnew _ (ho.conserved.addTracker .nil (fun _ ha => by cases ha) rfl rfl)
  | some p =>
    have hp := hparent p List.mem_cons_self
    refine hnew _ (ho.conserved.addTracker (ho.conserved.simple _) (fun a ha => ?_) rfl rfl)
    exact ho.conserved.balanced.lt_size_of_mem_path hp ha

/-- Every deed that is admitted keeps the ledger conserved. -/
theorem perform_conserved (ho : h.Orderly h.ledger) {d : Deed} (hd : h.Admits d) :
    h.ledger.Conserved (h.perform d).2.ledger (h.perform d).2.held := by
  obtain ⟨hbare, hnames, hfits⟩ := hd
  have hhere : ∀ t ∈ d.trackers, h.tracker t < h.ledger.forest.trackers.size := fun t ht =>
    tracker_lt ho (hnames t ht)
  cases d with
  | addTracker name label limit parent? => exact conserved_addTracker ho name label limit hhere
  | dropTracker name => exact conserved_dropTracker ho.conserved ho.trackers name
  | consume t bytes => cases hbare
  | release t bytes => cases hbare
  | tryConsume t bytes => cases hbare
  | charge name t bytes =>
    have hc := ho.conserved.charge (hhere t List.mem_cons_self) hfits
    exact conserved_keepCharge ho.charges name hc
  | tryCharge name t bytes =>
    simp only [fullest, perform, Ledger.tryCharge] at hfits ⊢
    split at hfits
    · exact ho.conserved
    · have hc := ho.conserved.charge (hhere t List.mem_cons_self) hfits
      exact conserved_keepCharge ho.charges name hc
  | moveCharge name t =>
    simp only [fullest, perform] at hfits ⊢
    cases hl : h.charges.lookup name with
    | none => exact ho.conserved
    | some c =>
      rw [hl] at hfits
      refine ho.conserved.transfer ?_ (hhere t List.mem_cons_self) hfits
      exact List.mem_append_left _ (List.mem_map_of_mem (Named.mem_of_lookup hl))
  | dropCharge name => exact (ho.conserved.perm (held_perm_charges ho.charges name)).dropAll
  | addChunk name batch t? =>
    cases t? with
    | none => exact conserved_keepChunk ho.chunks name { batch } ho.conserved
    | some t =>
      have hc := conserved_transfer ho (k := { batch }) .rfl (hhere t List.mem_cons_self) hfits
      exact conserved_keepChunk ho.chunks name _ hc
  | copyChunk name source =>
    exact conserved_keepChunk ho.chunks name _ (conserved_shareChunk ho source)
  | sliceChunk name source offset length =>
    simp only [perform]
    split
    · exact ho.conserved
    · exact conserved_keepChunk ho.chunks name
        { h.chunk source with batch := (h.chunk source).batch.slice offset length }
        (conserved_shareChunk ho source)
  | moveChunk name t =>
    have hc := conserved_transfer ho (held_perm_chunks ho.chunks name)
      (hhere t List.mem_cons_self) hfits
    exact hc.perm (held_set_perm name _ h).symm
  | dropChunk name => exact (ho.conserved.perm (held_perm_chunks ho.chunks name)).dropAll

theorem size_dropTracker (name : String) (h : Holders) :
    (h.dropTracker name).ledger.forest.trackers.size = h.ledger.forest.trackers.size := by
  unfold dropTracker
  split
  · exact Array.size_modify
  · rfl

/-- Names stand for trackers that had them, or for the next one. -/
theorem mem_trackers_perform {d : Deed} {x : String × TrackerId}
    (hx : x ∈ (h.perform d).2.trackers) : x ∈ h.trackers ∨
      x.2 = h.ledger.forest.trackers.size ∧ x.2 < (h.perform d).2.ledger.forest.trackers.size := by
  have hsame : (h.perform d).2.trackers = h.trackers → x ∈ h.trackers := fun he => he ▸ hx
  cases d with
  | addTracker name label limit parent? =>
    rcases Named.mem_set hx with rfl | hx
    · refine .inr ⟨by cases parent? <;> rfl, ?_⟩
      simp only [perform, addTracker, size_dropTracker]
      cases parent? with
      | none => simp [Ledger.addRoot, Forest.addRoot]
      | some p => simp [Ledger.addChild, Forest.addChild]
    · exact .inl hx
  | dropTracker name => exact .inl (List.mem_filter.mp hx).1
  | tryConsume t bytes =>
    refine .inl (hsame ?_)
    simp only [perform]
    split <;> rfl
  | tryCharge name t bytes =>
    refine .inl (hsame ?_)
    simp only [perform]
    split <;> rfl
  | sliceChunk name source offset length =>
    refine .inl (hsame ?_)
    simp only [perform]
    split <;> rfl
  | _ => exact .inl hx

/-- Names of charges and of chunks are still given once. -/
theorem nodup_perform (hcharges : (h.charges.map Prod.fst).Nodup)
    (hchunks : (h.chunks.map Prod.fst).Nodup) (d : Deed) :
    ((h.perform d).2.charges.map Prod.fst).Nodup ∧ ((h.perform d).2.chunks.map Prod.fst).Nodup := by
  have hset := Named.nodup_set hcharges
  have hsetChunk := Named.nodup_set hchunks
  cases d with
  | addTracker name label limit parent? =>
    simp only [perform, addTracker, dropTracker]
    split <;> exact ⟨hcharges, hchunks⟩
  | dropTracker name =>
    simp only [perform, dropTracker]
    split <;> exact ⟨hcharges, hchunks⟩
  | tryConsume t bytes =>
    simp only [perform]
    split <;> exact ⟨hcharges, hchunks⟩
  | charge name t bytes => exact ⟨hset name _, hchunks⟩
  | tryCharge name t bytes =>
    simp only [perform]
    split
    · exact ⟨hset name _, hchunks⟩
    · exact ⟨hcharges, hchunks⟩
  | dropCharge name => exact ⟨Named.nodup_erase hcharges name, hchunks⟩
  | sliceChunk name source offset length =>
    simp only [perform]
    split
    · exact ⟨hcharges, hchunks⟩
    · exact ⟨hcharges, hsetChunk name _⟩
  | addChunk name | copyChunk name | moveChunk name => exact ⟨hcharges, hsetChunk name _⟩
  | dropChunk name => exact ⟨hcharges, Named.nodup_erase hchunks name⟩
  | consume | release | moveCharge => exact ⟨hcharges, hchunks⟩

namespace Orderly

/-- The holders at the very beginning. -/
theorem start : Orderly {} {} := by
  have hempty : ∀ t : TrackerId, ¬t < ({} : Ledger).forest.trackers.size := Nat.not_lt_zero
  refine ⟨⟨⟨by simp, by simp, fun _ => rfl, fun _ => rfl⟩, List.nodup_singleton,
    fun t ht => absurd ht (hempty t), fun t x ht => ?_, fun t ht => absurd ht (hempty t), .refl _⟩,
    by simp, .nil, .nil⟩
  obtain ⟨hlt, -⟩ := Array.getElem?_eq_some_iff.mp ht
  exact absurd hlt (hempty t)

/-- Holders come from what they are now. -/
theorem now (ho : h.Orderly l₀) : h.Orderly h.ledger :=
  { ho with conserved := { ho.conserved with continues := .refl _ } }

theorem perform (ho : h.Orderly l₀) {d : Deed} (hd : h.Admits d) : (h.perform d).2.Orderly l₀ := by
  have hc := perform_conserved ho.now hd
  obtain ⟨hcharges, hchunks⟩ := nodup_perform ho.charges ho.chunks d
  refine ⟨{ hc with continues := ho.conserved.continues.trans hc.continues }, fun x hx => ?_,
    hcharges, hchunks⟩
  rcases mem_trackers_perform hx with hx | ⟨-, hlt⟩
  · exact Nat.lt_of_lt_of_le (ho.trackers x hx) hc.continues.size
  · exact hlt

theorem run {ds : List Deed} (ho : h.Orderly l₀) (hd : h.AdmitsAll ds) :
    (Holders.run ds h).Orderly l₀ := by
  induction ds generalizing h with
  | nil => exact ho
  | cons d ds ih => exact ih (ho.perform hd.1) hd.2

end Orderly

/-- A deed that moves a charge does nothing else to the ledger, whichever holder it goes through. -/
theorem ledger_of_moved? {d : Deed} {t : TrackerId} (hn : (h.chunks.map Prod.fst).Nodup)
    (hmoved : h.register.moved? d = some (c, t)) :
    c ∈ h.held ∧ (h.perform d).2.ledger = h.ledger.transfer c t := by
  cases d with
  | moveCharge name place =>
    obtain ⟨c, hl, heq⟩ := Option.map_eq_some_iff.mp hmoved
    obtain ⟨rfl, rfl⟩ := Prod.mk.inj heq
    have hl' : h.charges.lookup name = some c := hl
    refine ⟨List.mem_append_left _ (List.mem_map_of_mem (Named.mem_of_lookup hl')), ?_⟩
    simp only [perform, hl', Option.elim_some]
    rfl
  | moveChunk name place =>
    obtain ⟨c, hl, heq⟩ := Option.map_eq_some_iff.mp hmoved
    obtain ⟨rfl, rfl⟩ := Prod.mk.inj heq
    have hl' : (h.chunk name).charge? = some c := by
      rw [chunk_register] at hl
      exact hl
    refine ⟨(held_perm_chunks hn name).mem_iff.mpr ?_, ?_⟩
    · rw [hl']
      exact List.mem_cons_self
    · obtain ⟨a, ha, rfl⟩ := Option.map_eq_some_iff.mp hl'
      simp only [perform, Chunk.transfer, ha]
      rfl
  | _ => cases hmoved

/-- Under a new name a copy and a slice of a charged chunk hold the charge of their original, which
has one holder more. -/
theorem perform_another (ho : h.Orderly l₀) {d : Deed} {name source : String}
    (hd : d.another? = some (name, source)) (hdone : (h.perform d).1 = .done)
    (hnew : h.chunks.lookup name = none) (hc : (h.chunk source).charge? = some c) :
    ((h.perform d).2.chunk name).charge? = some c ∧
      (h.perform d).2.ledger.holdersOf c = h.ledger.holdersOf c + 1 := by
  have hone : ∀ k : Chunk, k.charge? = some c →
      let h' := { h with ledger := h.ledger.shareAll (h.chunk source).charge?.toList }.keepChunk name k
      (h'.chunk name).charge? = some c ∧ h'.ledger.holdersOf c = h.ledger.holdersOf c + 1 := by
    intro k hk
    have hshared := (conserved_shareChunk ho source).balanced.holders c
    rw [hc, ho.conserved.balanced.holders c]
    rw [hc, Option.toList_some, List.singleton_append, List.count_cons_self] at hshared
    refine ⟨by simpa [chunk, keepChunk] using hk, ?_⟩
    simpa only [keepChunk, hnew, hc, Option.elim_none, Option.toList_some] using hshared
  cases d with
  | copyChunk name' source' =>
    obtain ⟨rfl, rfl⟩ := Prod.mk.inj (Option.some.inj hd)
    exact hone _ hc
  | sliceChunk name' source' offset length =>
    obtain ⟨rfl, rfl⟩ := Prod.mk.inj (Option.some.inj hd)
    simp only [perform] at hdone ⊢
    split at hdone
    · cases hdone
    · next hin =>
      rw [if_neg hin]
      exact hone { h.chunk source' with batch := (h.chunk source').batch.slice offset length } hc
  | _ => cases hd

/-! ## Holders and what they were told -/

theorem register_run {ds : List Deed} (hd : h.AdmitsAll ds) :
    (run ds h).register = Register.told ds h h.register := by
  induction ds generalizing h with
  | nil => rfl
  | cons d ds ih => exact (ih hd.2).trans (by rw [register_perform hd.1.1]; rfl)

theorem register_empty : ({} : Holders).register = {} := by
  simp [register, Ledger.layout, Named.mapValues]

/-- What is live in a conserved ledger is what the register says. -/
theorem live_register (ho : h.Orderly l₀) (t : TrackerId) :
    h.register.live h.ledger.forest.path t = h.ledger.live t := by
  refine congrArg total (List.ext_getElem? fun c => ?_)
  have hopened : h.register.opened.toList[c]? =
      (h.ledger.charges[c]?).map fun x => (x.tracker, x.bytes) := by
    simp [register, Ledger.layout]
  rw [List.getElem?_mapIdx, List.getElem?_map, hopened, Option.map_map, Array.getElem?_toList]
  refine Option.map_congr fun x hx => ?_
  have hn := ho.conserved.balanced.holders c
  rw [Ledger.holdersOf, hx, Option.map_some, Option.getD_some] at hn
  have hheld : x.holders ≠ 0 ↔ c ∈ h.register.held := by
    rw [held_register, ← held, hn, ← Nat.pos_iff_ne_zero, List.count_pos_iff]
  simp only [Function.comp_apply, Charge.amount, hheld]

/-- **Charges are conserved.** After any deeds through holders, the ledger has just the charges that the
deeds opened, each with as many holders as the deeds left it: a copy and a slice hold the charge of
their original, until their names are dropped. Every tracker shows the bytes of the live charges on it
and below it. A move through any holder moves the whole charge, and leaves what the trackers above both
places show and their peaks as they were. A charge that was closed is never touched again, so each is
given back once; and when nothing is held, no tracker shows anything. -/
theorem charges_conserved (deeds : List Deed) (hdeeds : AdmitsAll {} deeds) :
    let h := run deeds {}
    let r := Register.told deeds {} {}
    h.register = r ∧
    (∀ c, h.ledger.holdersOf c = r.held.count c) ∧
    (∀ t < h.ledger.forest.trackers.size,
      (h.ledger.current t).toInt = r.live h.ledger.forest.path t) ∧
    (∀ d name source c, d.another? = some (name, source) → (h.perform d).1 = .done →
      h.chunks.lookup name = none → (h.chunk source).charge? = some c →
        ((h.perform d).2.chunk name).charge? = some c ∧
          (h.perform d).2.ledger.holdersOf c = h.ledger.holdersOf c + 1) ∧
    (∀ d c t, r.moved? d = some (c, t) → ∃ x : Charge, h.ledger.charges[c]? = some x ∧
      x.holders ≠ 0 ∧
      let l := (h.perform d).2.ledger
      l.charges = h.ledger.charges.modify c (fun x => { x with tracker := t }) ∧
        ∀ a ∈ h.ledger.forest.path x.tracker, a ∈ h.ledger.forest.path t →
          (l.forest.get? a).map (fun t => (t.current, t.peak)) =
            (h.ledger.forest.get? a).map fun t => (t.current, t.peak)) ∧
    (∀ more, h.AdmitsAll more → ∀ (c : ChargeId) (x : Charge), h.ledger.charges[c]? = some x →
      ∃ y : Charge, (run more h).ledger.charges[c]? = some y ∧ y.bytes = x.bytes ∧
        (x.holders = 0 → y = x)) ∧
    (r.held = [] → ∀ t < h.ledger.forest.trackers.size, h.ledger.current t = 0) := by
  intro h r
  have ho : h.Orderly {} := Orderly.start.run hdeeds
  have hr : h.register = r := (register_run hdeeds).trans (by rw [register_empty])
  have hheld : r.held = h.held := by rw [← hr, held_register, held]
  refine ⟨hr, fun c => ?_, fun t ht => ?_, fun d name source c => perform_another ho,
    fun d c t hmoved => ?_, fun more hmore => (ho.now.run hmore).conserved.continues.charges,
    fun hnone t ht => ?_⟩
  · rw [hheld]
    exact ho.conserved.balanced.holders c
  · rw [← hr, live_register ho]
    exact ho.conserved.current_eq ht
  · rw [← hr] at hmoved
    obtain ⟨hm, hledger⟩ := ledger_of_moved? ho.chunks hmoved
    rw [hledger]
    exact ho.conserved.transfer_moves hm t
  · rw [ho.conserved.shown t ht]
    refine sumOf_eq_zero fun x hx => if_pos ?_
    obtain ⟨c, hc⟩ := List.mem_iff_getElem?.mp hx
    have hn := ho.conserved.balanced.holders c
    have hc' : h.ledger.charges[c]? = some x := by simpa using hc
    rwa [← hheld, hnone, Ledger.holdersOf, hc'] at hn

/-- A root with two trackers below it, and a batch of two rows charged to the left one, of which a copy
and a slice are left; 96 bytes charged to the root. -/
def sharedBatch : List Deed :=
  [.addTracker "root" "root" (-1) none, .addTracker "left" "left" (-1) (some "root"),
    .addTracker "right" "right" (-1) (some "root"),
    .addChunk "all" (Batch.ofColumns ⟨[.mk "k" (.scalar .int32) false []]⟩ 2 #[#[.int 1, .int 2]])
      (some "left"),
    .copyChunk "copy" "all", .dropChunk "all", .sliceChunk "part" "copy" 1 1,
    .charge "bytes" "root" 96]

/-- Copy and slice have the 8 bytes of the batch, with their original gone: the left tracker shows
them, and a copy of the copy makes three. The slice moves them to the right, and the root shows 104
bytes before and after, its peak. Without the copy they are still live; when slice and bytes are gone
nobody shows anything. -/
theorem charges_conserved_shared_batch :
    let h := run sharedBatch {}
    let more := (h.perform (.copyChunk "more" "copy")).2
    let moved := (h.perform (.moveChunk "part" "right")).2
    let part := run (sharedBatch ++ [.moveChunk "part" "right", .dropChunk "copy"]) {}
    let after := run (sharedBatch ++ [.moveChunk "part" "right", .dropChunk "copy",
      .dropChunk "part", .dropCharge "bytes"]) {}
    AdmitsAll {} sharedBatch ∧ h.ledger.holdersOf 0 = 2 ∧ (h.ledger.current 0).toInt = 104 ∧
      (h.ledger.current 1).toInt = 8 ∧
      (more.chunk "more").charge? = some 0 ∧ more.ledger.holdersOf 0 = 3 ∧
      (moved.ledger.forest.get? 0).map (fun t => (t.current, t.peak)) = some (104, 104) ∧
      moved.ledger.trackerOf? 0 = some 2 ∧
      part.ledger.holdersOf 0 = 1 ∧ (part.ledger.current 2).toInt = 8 ∧
      ∀ t < after.ledger.forest.trackers.size, after.ledger.current t = 0 := by
  have hadmits : AdmitsAll {} sharedBatch := by decide +kernel
  obtain ⟨-, hholders, hshown, hanother, hmoves, -⟩ := charges_conserved sharedBatch hadmits
  obtain ⟨hcopy, hthree⟩ := hanother (.copyChunk "more" "copy") "more" "copy" 0 rfl rfl
    (by decide +kernel) (by decide +kernel)
  obtain ⟨x, hx, -, hcharges, hroot⟩ := hmoves (.moveChunk "part" "right") 0 2 (by decide +kernel)
  obtain ⟨-, hpart, hright, -⟩ := charges_conserved
    (sharedBatch ++ [.moveChunk "part" "right", .dropChunk "copy"]) (by decide +kernel)
  obtain ⟨-, -, -, -, -, -, hover⟩ := charges_conserved
    (sharedBatch ++ [.moveChunk "part" "right", .dropChunk "copy", .dropChunk "part",
      .dropCharge "bytes"])
    (by decide +kernel)
  have hleft : x.tracker = 1 := by
    have hsome : ((run sharedBatch {}).ledger.charges[0]?).map Charge.tracker = some 1 := by
      decide +kernel
    rw [hx] at hsome
    exact Option.some.inj hsome
  have htwo : (run sharedBatch {}).ledger.holdersOf 0 = 2 := (hholders 0).trans (by decide +kernel)
  refine ⟨hadmits, htwo, (hshown 0 (by decide +kernel)).trans ?_,
    (hshown 1 (by decide +kernel)).trans ?_, hcopy, by rw [hthree, htwo],
    (hroot 0 ?_ ?_).trans ?_, ?_, (hpart 0).trans ?_, (hright 2 (by decide +kernel)).trans ?_, ?_⟩
  · decide +kernel
  · decide +kernel
  · rw [hleft]
    decide +kernel
  · decide +kernel
  · decide +kernel
  · rw [Ledger.trackerOf?, hcharges, Array.getElem?_modify, if_pos rfl, hx]
    rfl
  · decide +kernel
  · decide +kernel
  · exact hover (by decide +kernel)

end Holders

end SpillSort
