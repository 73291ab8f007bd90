import Mathlib.Algebra.Group.Int.Defs
import Mathlib.Data.List.Induction
import SpillSort.Proofs.Deeds

/-!
# Trying to consume

A request that may be refused raises what is current on the way up and takes all of it back when it
is refused. It comes to the same as looking at the limits first.

* `Forest.raiseAll_eq` is about going up a path, `Forest.tryConsume_eq` about the whole request.
* `Forest.Recorded` is a forest with its past: paths end at a root, the books agree with what is
  current, and peaks are what was reached. Every deed that holders do with their trackers keeps it.
* `Holders.tryConsume_exact` is about any such deeds, one after the other.
-/

namespace SpillSort

open Memory

namespace Memory

/-! ## Requests -/

namespace Forest

variable {f f' : Forest} {g : Tracker → Tracker} {ids raised : List TrackerId} {id a : TrackerId}
  {bytes : Int64}

/-- The trackers from `id` up to its root. -/
def trackersFrom (f : Forest) (id : TrackerId) : List Tracker := (f.path id).filterMap f.get?

theorem ext_get? (h : ∀ a, f.get? a = f'.get? a) : f = f' :=
  congrArg Forest.mk (Array.ext_getElem? h)

theorem get?_modifyAll (hn : ids.Nodup) (a : TrackerId) :
    (f.modifyAll ids g).get? a = if a ∈ ids then (f.get? a).map g else f.get? a :=
  getElem?_foldl_modify_of_nodup hn f.trackers a

theorem modifyAll_append (f : Forest) (ids ids' : List TrackerId) (g : Tracker → Tracker) :
    f.modifyAll (ids ++ ids') g = (f.modifyAll ids g).modifyAll ids' g :=
  congrArg Forest.mk List.foldl_append

theorem path_modifyAll (hg : ∀ x, (g x).ancestors = x.ancestors) (ids : List TrackerId) :
    (f.modifyAll ids g).path = f.path := by
  funext j
  exact congrArg (fun o => j :: o.getD []) (getElem?_foldl_modify hg ids f.trackers j)

/-- What was raised and lowered again is as it was, in whichever order. -/
theorem lower_raise (hn : ids.Nodup) (hp : ids.Perm raised) :
    (f.modifyAll ids (Tracker.raise bytes)).modifyAll raised (Tracker.lower bytes) = f := by
  refine ext_get? fun a => ?_
  rw [get?_modifyAll (hp.nodup_iff.mp hn), get?_modifyAll hn]
  by_cases ha : a ∈ ids
  · rw [if_pos (hp.mem_iff.mp ha), if_pos ha]
    rcases f.get? a with _ | t
    · rfl
    · have hback : t.current + bytes - bytes = t.current := by grind
      simp [Tracker.raise, Tracker.lower, hback]
  · rw [if_neg (mt hp.mem_iff.mpr ha), if_neg ha]

/-- Raising and then entering the books is charging. -/
theorem book_raise (hn : ids.Nodup) :
    (f.modifyAll ids (Tracker.raise bytes)).modifyAll ids (Tracker.book bytes) =
      f.modifyAll ids (Tracker.charge bytes) := by
  refine ext_get? fun a => ?_
  rw [get?_modifyAll hn, get?_modifyAll hn, get?_modifyAll hn]
  split
  · rcases f.get? a with _ | t <;> rfl
  · rfl

/-- A tracker is exceeded by what it does not admit. -/
theorem exceeded_raise (t : Tracker) : (t.raise bytes).exceeded = !t.admits bytes := by
  unfold Tracker.exceeded Tracker.admits
  show (t.limited && decide (t.limit < t.current + bytes)) = _
  by_cases hle : t.current + bytes ≤ t.limit
  · simp [hle, Int64.not_lt.mpr hle]
  · simp [hle, Int64.not_le.mp hle]

/-- Going up a path stops at the first tracker that does not admit the bytes, and then nothing has
changed; if there is none, everything on the path is raised. -/
theorem raiseAll_eq (f : Forest) (bytes : Int64) : ∀ {raised ids : List TrackerId},
    (raised ++ ids).Nodup →
    raiseAll bytes raised ids (f.modifyAll raised (Tracker.raise bytes)) =
      match (ids.filterMap f.get?).find? fun t => !t.admits bytes with
      | some t => (.error ⟨t.label, t.limit, t.current, bytes⟩, f)
      | none => (.ok (), f.modifyAll (raised ++ ids) (Tracker.raise bytes))
  | raised, [], _ => by
    rw [List.append_nil]
    rfl
  | raised, id :: ids, hn => by
    have hn' : (raised ++ [id] ++ ids).Nodup := by
      rwa [List.append_assoc, List.singleton_append]
    obtain ⟨hup, -, -⟩ := List.nodup_append.mp hn'
    have hget : (f.modifyAll (raised ++ [id]) (Tracker.raise bytes)).get? id =
        (f.get? id).map (Tracker.raise bytes) := by
      rw [get?_modifyAll hup, if_pos (List.mem_append_right _ List.mem_cons_self)]
    have hrest := raiseAll_eq f bytes hn'
    rw [List.append_assoc, List.singleton_append] at hrest
    simp only [raiseAll, ← modifyAll_append, hget]
    rcases ht : f.get? id with _ | t
    · rw [List.filterMap_cons_none ht]
      exact hrest
    · rw [List.filterMap_cons_some ht, Option.map_some]
      cases had : t.admits bytes with
      | true =>
        rw [Option.filter_some, if_neg (by simp [exceeded_raise, had]),
          List.find?_cons_of_neg (by simp [had])]
        exact hrest
      | false =>
        have hback : t.current + bytes - bytes = t.current := by grind
        rw [Option.filter_some, if_pos (by simp [exceeded_raise, had]),
          List.find?_cons_of_pos (by simp [had])]
        exact Prod.ext (by simp [Tracker.raise, hback])
          (lower_raise hup (List.perm_append_singleton id raised))

/-- Trying to consume is refused where looking ahead is, with nothing changed, and else consumes. -/
theorem tryConsume_eq (hn : (f.path id).Nodup) :
    f.tryConsume id bytes =
      match f.refusal? id bytes with
      | some e => (.error e, f)
      | none => (.ok (), f.consume id bytes) := by
  have hpathless : ([] ++ f.path id).Nodup := by rwa [List.nil_append]
  have hup := raiseAll_eq f bytes hpathless
  rw [List.nil_append, show f.modifyAll [] (Tracker.raise bytes) = f from rfl] at hup
  unfold tryConsume refusal? consume
  split
  · rfl
  rw [hup]
  cases ((f.path id).filterMap f.get?).find? fun t => !t.admits bytes with
  | some t => rfl
  | none =>
    have hpath : (f.modifyAll (f.path id) (Tracker.raise bytes)).path = f.path :=
      path_modifyAll (g := Tracker.raise bytes) (fun _ => rfl) (f.path id)
    dsimp only
    rw [hpath, book_raise hn]
    rfl

end Forest

/-- What a charge is refused, and what it opens, is decided by trying to consume its bytes. -/
theorem Ledger.tryCharge_eq {l : Ledger} {id : TrackerId} {bytes : Int64}
    (hn : (l.forest.path id).Nodup) :
    l.tryCharge id bytes =
      match l.forest.tryConsume id bytes with
      | (.error e, forest) => (.error e, l.onForest fun _ => forest)
      | (.ok (), forest) =>
        let (c, l) := (l.onForest fun _ => forest).record id bytes
        (.ok c, l) := by
  rw [Forest.tryConsume_eq hn, tryCharge]
  rcases l.forest.refusal? id bytes with _ | e <;> rfl

/-! ## Books and peaks -/

theorem toInt_add_of_lt {x y : Int64} (hy : 0 < y) (h : x.toInt + y.toInt < 2 ^ 63) :
    (x + y).toInt = x.toInt + y.toInt := by
  have hx := x.le_toInt
  rw [Int64.lt_iff_toInt_lt, Int64.toInt_zero] at hy
  rw [Int64.toInt_add]
  refine Int.bmod_eq_of_le ?_ ?_ <;> omega

theorem toInt_sub_of_ge {x y : Int64} (hy : 0 < y) (h : -2 ^ 63 ≤ x.toInt - y.toInt) :
    (x - y).toInt = x.toInt - y.toInt := by
  have hx := x.toInt_lt
  rw [Int64.lt_iff_toInt_lt, Int64.toInt_zero] at hy
  rw [Int64.toInt_sub]
  refine Int.bmod_eq_of_le ?_ ?_ <;> omega

namespace Tracker

variable {t : Tracker} {bytes : Int64}

/-- What is current is what was allocated and not deallocated. -/
def Balanced (t : Tracker) : Prop := t.current.toInt = t.allocated.toInt - t.deallocated.toInt

/-- A tracker goes on: its books agree with what is current if they did, and its peak follows that. -/
structure Follows (t t' : Tracker) : Prop where
  balanced : t.Balanced → t'.Balanced
  mono : t.peak ≤ t'.peak
  current : t.current ≤ t.peak → t'.current ≤ t'.peak
  reached : t'.peak = t.peak ∨ t'.peak = t'.current

theorem charge_follows (hpos : 0 < bytes) (hcurrent : t.current.toInt + bytes.toInt < 2 ^ 63)
    (hallocated : t.allocated.toInt + bytes.toInt < 2 ^ 63) : t.Follows (t.charge bytes) := by
  refine ⟨fun h => ?_, ?_, fun _ => ?_, ?_⟩
  · unfold Balanced at h ⊢
    show (t.current + bytes).toInt = (t.allocated + bytes).toInt - t.deallocated.toInt
    rw [toInt_add_of_lt hpos hcurrent, toInt_add_of_lt hpos hallocated, h]
    omega
  · simp only [charge]
    split
    · next hlt => exact Int64.le_of_lt hlt
    · exact Int64.le_refl _
  · simp only [charge]
    split
    · exact Int64.le_refl _
    · next hle => exact Int64.not_lt.mp hle
  · simp only [charge]
    split
    · exact .inr rfl
    · exact .inl rfl

theorem credit_follows (hpos : 0 < bytes) (hcurrent : -2 ^ 63 ≤ t.current.toInt - bytes.toInt)
    (hdeallocated : t.deallocated.toInt + bytes.toInt < 2 ^ 63) : t.Follows (t.credit bytes) := by
  have hsub := toInt_sub_of_ge hpos hcurrent
  refine ⟨fun h => ?_, Int64.le_refl _, fun h => ?_, .inl rfl⟩
  · unfold Balanced at h ⊢
    show (t.current - bytes).toInt = t.allocated.toInt - (t.deallocated + bytes).toInt
    rw [hsub, toInt_add_of_lt hpos hdeallocated, h]
    omega
  · refine Int64.le_trans ?_ h
    rw [Int64.lt_iff_toInt_lt, Int64.toInt_zero] at hpos
    rw [Int64.le_iff_toInt_le]
    show (t.current - bytes).toInt ≤ t.current.toInt
    omega

end Tracker

namespace Forest

variable {f f' : Forest} {past past' : Forest → Prop} {g : Tracker → Tracker}
  {ids : List TrackerId} {id a : TrackerId} {bytes : Int64}

/-- A forest with its past. Paths go up over trackers made before, the books agree with what is
current, and the peak of a tracker is the most that was ever current on it. -/
structure Recorded (past : Forest → Prop) (f : Forest) : Prop where
  here : past f
  sizes : ∀ g, past g → g.trackers.size ≤ f.trackers.size
  rooted : ∀ a t, f.get? a = some t → t.ancestors = [] ∨ ∃ p < a, t.ancestors = f.path p
  balanced : ∀ a t, f.get? a = some t → t.Balanced
  below : ∀ a t, f.get? a = some t → ∀ g, past g → g.current a ≤ t.peak
  reached : ∀ a t, f.get? a = some t → ∃ g, past g ∧ g.current a = t.peak

theorem current_of_get? {t : Tracker} (ht : f.get? a = some t) : f.current a = t.current := by
  rw [current, ht]
  rfl

namespace Recorded

/-- A path goes up over trackers made before, each once. -/
theorem path_le_nodup (h : Recorded past f) (a : TrackerId) :
    (∀ b ∈ f.path a, b ≤ a) ∧ (f.path a).Nodup := by
  induction a using Nat.strong_induction_on with
  | _ a ih =>
    have hpath : f.path a = a :: ((f.get? a).map Tracker.ancestors).getD [] := rfl
    rw [hpath]
    rcases ht : f.get? a with _ | t
    · simp
    · rcases h.rooted a t ht with hnil | ⟨p, hp, hup⟩
      · simp [hnil]
      · obtain ⟨hle, hn⟩ := ih p hp
        rw [Option.map_some, Option.getD_some, hup]
        refine ⟨fun b hb => ?_, List.nodup_cons.mpr ⟨fun hm => ?_, hn⟩⟩
        · rcases List.mem_cons.mp hb with rfl | hb
          · exact Nat.le_refl _
          · exact Nat.le_trans (hle b hb) (Nat.le_of_lt hp)
        · exact Nat.not_lt.mpr (hle a hm) hp

theorem nodup (h : Recorded past f) (a : TrackerId) : (f.path a).Nodup := (h.path_le_nodup a).2

/-- A path goes from a tracker to its parent, and on to the root. -/
theorem path_eq (h : Recorded past f) (a : TrackerId) :
    f.path a = a :: (f.parent? a).elim [] f.path := by
  have hpath : f.path a = a :: ((f.get? a).map Tracker.ancestors).getD [] := rfl
  rw [hpath, parent?]
  rcases ht : f.get? a with _ | t
  · rfl
  · rcases h.rooted a t ht with hnil | ⟨p, -, hup⟩
    · simp [hnil]
    · simp [hup, path]

/-- What is there already is recorded. -/
theorem again (h : Recorded past f) (hpast : ∀ g, past' g ↔ past g ∨ g = f) : Recorded past' f := by
  have hsame : past' = past := by
    funext g
    refine propext ((hpast g).trans (or_iff_left_of_imp ?_))
    rintro rfl
    exact h.here
  rwa [hsame]

/-- A change of some trackers is recorded if each of them goes on. -/
theorem modifyAll (h : Recorded past f) (hn : ids.Nodup)
    (hanc : ∀ x, (g x).ancestors = x.ancestors)
    (hg : ∀ a ∈ ids, ∀ t, f.get? a = some t → t.Follows (g t))
    (hpast : ∀ x, past' x ↔ past x ∨ x = f.modifyAll ids g) :
    Recorded past' (f.modifyAll ids g) := by
  have hsize : (f.modifyAll ids g).trackers.size = f.trackers.size := size_foldl_modify ids _
  have hpath : (f.modifyAll ids g).path = f.path := path_modifyAll hanc ids
  -- every tracker is what became of one, which stayed the same or went on
  have hold : ∀ a t', (f.modifyAll ids g).get? a = some t' →
      ∃ t, f.get? a = some t ∧ t'.ancestors = t.ancestors ∧ (t' = t ∨ t.Follows t') := by
    intro a t' ht'
    rw [get?_modifyAll hn] at ht'
    split at ht'
    · next ha =>
      obtain ⟨t, ht, rfl⟩ := Option.map_eq_some_iff.mp ht'
      exact ⟨t, ht, hanc t, .inr (hg a ha t ht)⟩
    · exact ⟨t', ht', rfl, .inl rfl⟩
  refine ⟨(hpast _).mpr (.inr rfl), fun x hx => ?_, fun a t' ht' => ?_, fun a t' ht' => ?_,
    fun a t' ht' x hx => ?_, fun a t' ht' => ?_⟩
  · rw [hsize]
    rcases (hpast x).mp hx with hx | rfl
    · exact h.sizes x hx
    · exact Nat.le_of_eq hsize
  · obtain ⟨t, ht, hup, -⟩ := hold a t' ht'
    rw [hup, hpath]
    exact h.rooted a t ht
  · obtain ⟨t, ht, -, rfl | hf⟩ := hold a t' ht'
    · exact h.balanced a t' ht
    · exact hf.balanced (h.balanced a t ht)
  · obtain ⟨t, ht, -, hf⟩ := hold a t' ht'
    have hnow : t.current ≤ t.peak := current_of_get? ht ▸ h.below a t ht f h.here
    rcases (hpast x).mp hx with hx | rfl
    · rcases hf with rfl | hf
      · exact h.below a t' ht x hx
      · exact Int64.le_trans (h.below a t ht x hx) hf.mono
    · rw [current_of_get? ht']
      rcases hf with rfl | hf
      · exact hnow
      · exact hf.current hnow
  · obtain ⟨t, ht, -, hf⟩ := hold a t' ht'
    obtain ⟨x, hx, hpeak⟩ := h.reached a t ht
    have hsome : t'.peak = t.peak ∨ t'.peak = t'.current := by
      rcases hf with rfl | hf
      · exact .inl rfl
      · exact hf.reached
    rcases hsome with hsame | hnew
    · exact ⟨x, (hpast x).mpr (.inl hx), hpeak.trans hsame.symm⟩
    · exact ⟨_, (hpast _).mpr (.inr rfl), (current_of_get? ht').trans hnew.symm⟩

/-- A new tracker is recorded, below one that is there or below none. -/
theorem push {new : Tracker} (h : Recorded past f)
    (hup : new.ancestors = [] ∨ ∃ p < f.trackers.size, new.ancestors = f.path p)
    (hcurrent : new.current = 0) (hpeak : new.peak = 0) (hbalanced : new.Balanced)
    (hpast : ∀ x, past' x ↔ past x ∨ x = ⟨f.trackers.push new⟩) :
    Recorded past' ⟨f.trackers.push new⟩ := by
  -- every tracker is the new one or was there
  have hold : ∀ a t, Forest.get? ⟨f.trackers.push new⟩ a = some t →
      a = f.trackers.size ∧ t = new ∨ a < f.trackers.size ∧ f.get? a = some t := by
    intro a t ht
    have hlt : a < (f.trackers.push new).size := (Array.getElem?_eq_some_iff.mp ht).1
    rcases Nat.lt_succ_iff_lt_or_eq.mp (Array.size_push new ▸ hlt) with ha | rfl
    · exact .inr ⟨ha, get?_push_of_lt ha ▸ ht⟩
    · exact .inl ⟨rfl, Option.some.inj (ht.symm.trans get?_push_size)⟩
  have hzero : ∀ x, past x → x.current f.trackers.size = 0 := fun x hx => by
    rw [current, Forest.get?, Array.getElem?_eq_none (h.sizes x hx)]
    rfl
  refine ⟨(hpast _).mpr (.inr rfl), fun x hx => ?_, fun a t ht => ?_, fun a t ht => ?_,
    fun a t ht x hx => ?_, fun a t ht => ?_⟩
  · rcases (hpast x).mp hx with hx | rfl
    · exact Nat.le_trans (h.sizes x hx) (by rw [Array.size_push]; exact Nat.le_succ _)
    · exact Nat.le_refl _
  · rcases hold a t ht with ⟨rfl, rfl⟩ | ⟨ha, ht⟩
    · rcases hup with hroot | ⟨p, hp, heq⟩
      · exact .inl hroot
      · exact .inr ⟨p, hp, heq.trans (path_push_of_lt hp).symm⟩
    · rcases h.rooted a t ht with hroot | ⟨p, hp, heq⟩
      · exact .inl hroot
      · exact .inr ⟨p, hp, heq.trans (path_push_of_lt (Nat.lt_trans hp ha)).symm⟩
  · rcases hold a t ht with ⟨rfl, rfl⟩ | ⟨ha, ht⟩
    · exact hbalanced
    · exact h.balanced a t ht
  · rcases hold a t ht with ⟨rfl, rfl⟩ | ⟨ha, ht'⟩
    · rcases (hpast x).mp hx with hx | rfl
      · rw [hzero x hx, hpeak]
        exact Int64.le_refl 0
      · rw [current_of_get? ht, hcurrent, hpeak]
        exact Int64.le_refl 0
    · rcases (hpast x).mp hx with hx | rfl
      · exact h.below a t ht' x hx
      · rw [current_of_get? ht, ← current_of_get? ht']
        exact h.below a t ht' f h.here
  · rcases hold a t ht with ⟨rfl, rfl⟩ | ⟨ha, ht'⟩
    · exact ⟨_, (hpast _).mpr (.inr rfl), by rw [current_of_get? ht, hcurrent, hpeak]⟩
    · obtain ⟨x, hx, heq⟩ := h.reached a t ht'
      exact ⟨x, (hpast x).mpr (.inl hx), heq⟩

/-- Who holds a tracker is not recorded. -/
theorem letGo (h : Recorded past f) (id : TrackerId) (hpast : ∀ x, past x → past' x ∨ x = f)
    (hpast' : ∀ x, past' x → past x ∨ x = f.letGo id) (hnow : past' (f.letGo id)) :
    Recorded past' (f.letGo id) := by
  have hmodify : f.letGo id = f.modifyAll [id] fun t => { t with held := false } := rfl
  have hpath : (f.letGo id).path = f.path :=
    path_modifyAll (g := fun t => { t with held := false }) (fun _ => rfl) [id]
  have hsize : (f.letGo id).trackers.size = f.trackers.size := Array.size_modify
  have hview : ∀ x : Tracker, Tracker.current { x with held := false } = x.current :=
    fun _ => rfl
  have hcurrent : (f.letGo id).current = f.current := by
    funext a
    exact congrArg (Option.getD · 0) (getElem?_foldl_modify hview [id] f.trackers a)
  -- every tracker is what became of one, with the same books
  have hold : ∀ a t', (f.letGo id).get? a = some t' → ∃ t, f.get? a = some t ∧
      t'.ancestors = t.ancestors ∧ t'.peak = t.peak ∧ (t.Balanced → t'.Balanced) := by
    intro a t' ht'
    rw [hmodify, get?_modifyAll (List.nodup_singleton id)] at ht'
    split at ht'
    · obtain ⟨t, ht, rfl⟩ := Option.map_eq_some_iff.mp ht'
      exact ⟨t, ht, rfl, rfl, fun hb => hb⟩
    · exact ⟨t', ht', rfl, rfl, fun hb => hb⟩
  refine ⟨hnow, fun x hx => ?_, fun a t' ht' => ?_, fun a t' ht' => ?_, fun a t' ht' x hx => ?_,
    fun a t' ht' => ?_⟩
  · rw [hsize]
    rcases hpast' x hx with hx | rfl
    · exact h.sizes x hx
    · exact Nat.le_of_eq hsize
  · obtain ⟨t, ht, hup, -⟩ := hold a t' ht'
    rw [hup, hpath]
    exact h.rooted a t ht
  · obtain ⟨t, ht, -, -, hb⟩ := hold a t' ht'
    exact hb (h.balanced a t ht)
  · obtain ⟨t, ht, -, hpeak, -⟩ := hold a t' ht'
    rw [hpeak]
    rcases hpast' x hx with hx | rfl
    · exact h.below a t ht x hx
    · rw [hcurrent]
      exact h.below a t ht f h.here
  · obtain ⟨t, ht, -, hpeak, -⟩ := hold a t' ht'
    obtain ⟨x, hx, heq⟩ := h.reached a t ht
    rw [hpeak, ← heq]
    rcases hpast x hx with hx | rfl
    · exact ⟨x, hx, rfl⟩
    · exact ⟨_, hnow, by rw [hcurrent]⟩

end Recorded

/-- No word overflows if `bytes` more are current from `id` up. -/
def BearsMore (f : Forest) (id : TrackerId) (bytes : Int64) : Prop :=
  ∀ t ∈ f.trackersFrom id,
    t.current.toInt + bytes.toInt < 2 ^ 63 ∧ t.allocated.toInt + bytes.toInt < 2 ^ 63

/-- No word overflows if `bytes` fewer are current from `id` up. -/
def BearsLess (f : Forest) (id : TrackerId) (bytes : Int64) : Prop :=
  ∀ t ∈ f.trackersFrom id,
    -2 ^ 63 ≤ t.current.toInt - bytes.toInt ∧ t.deallocated.toInt + bytes.toInt < 2 ^ 63

instance (f : Forest) (id : TrackerId) (bytes : Int64) : Decidable (f.BearsMore id bytes) := by
  unfold BearsMore
  infer_instance

instance (f : Forest) (id : TrackerId) (bytes : Int64) : Decidable (f.BearsLess id bytes) := by
  unfold BearsLess
  infer_instance

theorem mem_trackersFrom {t : Tracker} (ha : a ∈ f.path id) (ht : f.get? a = some t) :
    t ∈ f.trackersFrom id :=
  List.mem_filterMap.mpr ⟨a, ha, ht⟩

namespace Recorded

theorem consume (h : Recorded past f) (hfits : f.BearsMore id bytes)
    (hpast : ∀ x, past' x ↔ past x ∨ x = f.consume id bytes) :
    Recorded past' (f.consume id bytes) := by
  unfold Forest.consume at hpast ⊢
  by_cases hpos : bytes ≤ 0
  · simp only [if_pos hpos] at hpast ⊢
    exact h.again hpast
  · simp only [if_neg hpos] at hpast ⊢
    refine h.modifyAll (g := Tracker.charge bytes) (h.nodup id) (fun _ => rfl)
      (fun a ha t ht => ?_) hpast
    obtain ⟨hcurrent, hallocated⟩ := hfits t (mem_trackersFrom ha ht)
    exact Tracker.charge_follows (Int64.not_le.mp hpos) hcurrent hallocated

theorem release (h : Recorded past f) (hfits : f.BearsLess id bytes)
    (hpast : ∀ x, past' x ↔ past x ∨ x = f.release id bytes) :
    Recorded past' (f.release id bytes) := by
  unfold Forest.release at hpast ⊢
  by_cases hpos : bytes ≤ 0
  · simp only [if_pos hpos] at hpast ⊢
    exact h.again hpast
  · simp only [if_neg hpos] at hpast ⊢
    refine h.modifyAll (g := Tracker.credit bytes) (h.nodup id) (fun _ => rfl)
      (fun a ha t ht => ?_) hpast
    obtain ⟨hcurrent, hdeallocated⟩ := hfits t (mem_trackersFrom ha ht)
    exact Tracker.credit_follows (Int64.not_le.mp hpos) hcurrent hdeallocated

end Recorded

end Forest

/-- The limit of a tracker, if it has one, allows `bytes` more. -/
def Tracker.Allows (t : Tracker) (bytes : Int64) : Prop :=
  0 ≤ t.limit → t.current.toInt + bytes.toInt ≤ t.limit.toInt

instance (t : Tracker) (bytes : Int64) : Decidable (t.Allows bytes) := by
  unfold Tracker.Allows
  infer_instance

theorem Tracker.admits_iff {t : Tracker} {bytes : Int64} (hpos : 0 < bytes)
    (hfits : t.current.toInt + bytes.toInt < 2 ^ 63) : t.admits bytes ↔ t.Allows bytes := by
  unfold admits Allows limited
  rw [← toInt_add_of_lt hpos hfits, ← Int64.le_iff_toInt_le]
  by_cases hlimited : 0 ≤ t.limit <;> simp [hlimited]

/-- A tracker on which `bytes` more count as current and as allocated. -/
structure Tracker.Grows (bytes : Int64) (t t' : Tracker) : Prop where
  label : t'.label = t.label
  limit : t'.limit = t.limit
  ancestors : t'.ancestors = t.ancestors
  current : t'.current.toInt = t.current.toInt + bytes.toInt
  allocated : t'.allocated.toInt = t.allocated.toInt + bytes.toInt
  deallocated : t'.deallocated = t.deallocated

namespace Forest

variable {f : Forest} {past : Forest → Prop} {id : TrackerId} {bytes : Int64}

/-- What comes of trying to consume `bytes` on `id`. -/
structure TriesExactly (f : Forest) (id : TrackerId) (bytes : Int64) : Prop where
  granted_iff : (f.tryConsume id bytes).1 = .ok () ↔ ∀ t ∈ f.trackersFrom id, t.Allows bytes
  granted : (f.tryConsume id bytes).1 = .ok () →
    (f.tryConsume id bytes).2.trackers.size = f.trackers.size ∧
    ∀ a t, f.get? a = some t → ∃ t', (f.tryConsume id bytes).2.get? a = some t' ∧
      if a ∈ f.path id then t.Grows bytes t' else t' = t
  refused : ∀ e, (f.tryConsume id bytes).1 = .error e →
    (f.tryConsume id bytes).2 = f ∧
    ∃ nearer t farther, f.trackersFrom id = nearer ++ t :: farther ∧
      (∀ s ∈ nearer, s.Allows bytes) ∧ ¬t.Allows bytes ∧
      e = ⟨t.label, t.limit, t.current, bytes⟩

theorem consume_grows (hn : (f.path id).Nodup) (hpos : 0 < bytes) (hfits : f.BearsMore id bytes)
    {a : TrackerId} {t : Tracker} (ht : f.get? a = some t) :
    ∃ t', (f.consume id bytes).get? a = some t' ∧
      if a ∈ f.path id then t.Grows bytes t' else t' = t := by
  rw [consume, if_neg (Int64.not_le.mpr hpos), onPath, get?_modifyAll hn]
  by_cases ha : a ∈ f.path id
  · simp only [if_pos ha, ht, Option.map_some]
    obtain ⟨hcurrent, hallocated⟩ := hfits t (mem_trackersFrom ha ht)
    exact ⟨_, rfl, rfl, rfl, rfl, toInt_add_of_lt hpos hcurrent,
      toInt_add_of_lt hpos hallocated, rfl⟩
  · simp only [if_neg ha]
    exact ⟨t, ht, rfl⟩

theorem Recorded.triesExactly (h : Recorded past f) (hpos : 0 < bytes)
    (hfits : f.BearsMore id bytes) : f.TriesExactly id bytes := by
  have hadmits : ∀ t ∈ f.trackersFrom id, t.admits bytes ↔ t.Allows bytes := fun t ht =>
    Tracker.admits_iff hpos (hfits t ht).1
  have hrefusal : f.refusal? id bytes =
      ((f.trackersFrom id).find? fun t => !t.admits bytes).map fun t =>
        ⟨t.label, t.limit, t.current, bytes⟩ :=
    if_neg (Int64.not_le.mpr hpos)
  have htry : f.tryConsume id bytes = match f.refusal? id bytes with
      | some e => (.error e, f)
      | none => (.ok (), f.consume id bytes) := tryConsume_eq (h.nodup id)
  rw [hrefusal] at htry
  cases hfind : (f.trackersFrom id).find? fun t => !t.admits bytes with
  | none =>
    rw [hfind, Option.map_none] at htry
    have hall : ∀ t ∈ f.trackersFrom id, t.Allows bytes := fun t ht =>
      (hadmits t ht).mp (by simpa using List.find?_eq_none.mp hfind t ht)
    have htry : f.tryConsume id bytes = (.ok (), f.consume id bytes) := htry
    refine ⟨?_, fun _ => ?_, fun e he => ?_⟩ <;> rw [htry] at *
    · exact iff_of_true rfl hall
    · exact ⟨size_consume, fun a t ht => consume_grows (h.nodup id) hpos hfits ht⟩
    · cases he
  | some t =>
    obtain ⟨ht, nearer, farther, hsplit, hnearer⟩ := List.find?_eq_some_iff_append.mp hfind
    rw [hfind, Option.map_some] at htry
    have htry : f.tryConsume id bytes = (.error ⟨t.label, t.limit, t.current, bytes⟩, f) := htry
    have hmem : t ∈ f.trackersFrom id := List.mem_of_find?_eq_some hfind
    have hnot : ¬t.Allows bytes := fun hallows => by
      simp [(hadmits t hmem).mpr hallows] at ht
    have hbefore : ∀ s ∈ nearer, s.Allows bytes := fun s hs =>
      (hadmits s (hsplit ▸ List.mem_append_left _ hs)).mp (by simpa using hnearer s hs)
    refine ⟨?_, fun hok => ?_, fun e he => ?_⟩
    · rw [htry]
      exact iff_of_false nofun fun hall => hnot (hall t hmem)
    · rw [htry] at hok
      cases hok
    · rw [htry] at he ⊢
      cases he
      exact ⟨rfl, nearer, t, farther, hsplit, hbefore, hnot, rfl⟩

end Forest

end Memory

/-! ## Deeds on trackers -/

namespace Holders

variable {h : Holders} {past past' : Forest → Prop}

/-- The deeds that are about trackers only, below trackers that are there, while the sums fit a word. -/
def Meters (h : Holders) : Deed → Prop
  | .addTracker _ _ _ parent? => ∀ p ∈ parent?, h.tracker p < h.ledger.forest.trackers.size
  | .dropTracker _ => True
  | .consume t bytes | .tryConsume t bytes => h.ledger.forest.BearsMore (h.tracker t) bytes
  | .release t bytes => h.ledger.forest.BearsLess (h.tracker t) bytes
  | _ => False

instance (h : Holders) (d : Deed) : Decidable (h.Meters d) := by
  cases d <;> unfold Meters <;> infer_instance

/-- Deeds about trackers that can be done one after the other. -/
def MetersAll (h : Holders) : List Deed → Prop
  | [] => True
  | d :: ds => h.Meters d ∧ (h.perform d).2.MetersAll ds

instance decidableMetersAll (h : Holders) : (ds : List Deed) → Decidable (h.MetersAll ds)
  | [] => .isTrue trivial
  | d :: ds =>
    have := decidableMetersAll (h.perform d).2 ds
    inferInstanceAs (Decidable (_ ∧ _))

/-- Taking a name from a tracker is not recorded. -/
theorem dropTracker_recorded (hf : h.ledger.forest.Recorded past) (name : String)
    (hpast : ∀ x, past x → past' x ∨ x = h.ledger.forest)
    (hpast' : ∀ x, past' x → past x ∨ x = (h.dropTracker name).ledger.forest)
    (hnow : past' (h.dropTracker name).ledger.forest) :
    (h.dropTracker name).ledger.forest.Recorded past' := by
  have hsome : (h.dropTracker name).ledger.forest = h.ledger.forest ∨
      ∃ id, (h.dropTracker name).ledger.forest = h.ledger.forest.letGo id := by
    unfold dropTracker
    split
    · exact .inr ⟨_, rfl⟩
    · exact .inl rfl
  rcases hsome with heq | ⟨id, heq⟩ <;> rw [heq] at hpast' hnow ⊢
  · refine hf.again fun x => ⟨hpast' x, ?_⟩
    rintro (hx | rfl)
    · exact (hpast x hx).elim (fun hx => hx) fun heq => heq ▸ hnow
    · exact hnow
  · exact hf.letGo id hpast hpast' hnow

theorem addTracker_recorded (hf : h.ledger.forest.Recorded past) (name label : String)
    (limit : Int64) {parent? : Option String}
    (hparent : ∀ p ∈ parent?, h.tracker p < h.ledger.forest.trackers.size)
    (hpast : ∀ x, past' x ↔
      past x ∨ x = (h.addTracker name label limit parent?).ledger.forest) :
    (h.addTracker name label limit parent?).ledger.forest.Recorded past' := by
  -- the tracker is made first, and then the name is taken
  have hmade : ∀ (l : Ledger) (new : Tracker), l.forest = ⟨h.ledger.forest.trackers.push new⟩ →
      (new.ancestors = [] ∨
        ∃ p < h.ledger.forest.trackers.size, new.ancestors = h.ledger.forest.path p) →
      new.current = 0 → new.peak = 0 → new.Balanced →
      (∀ x, past' x ↔ past x ∨ x = ({ h with ledger := l }.dropTracker name).ledger.forest) →
      ({ h with ledger := l }.dropTracker name).ledger.forest.Recorded past' := by
    intro l new hl hup hcurrent hpeak hbalanced hpast
    have hpush : l.forest.Recorded fun x => past x ∨ x = l.forest := by
      rw [hl]
      exact hf.push hup hcurrent hpeak hbalanced fun x => Iff.rfl
    refine dropTracker_recorded (h := { h with ledger := l }) hpush name ?_ ?_ ?_
    · exact fun x hx => hx.imp_left fun hx => (hpast x).mpr (.inl hx)
    · exact fun x hx => ((hpast x).mp hx).imp_left .inl
    · exact (hpast _).mpr (.inr rfl)
  cases parent? with
  | none => exact hmade _ _ rfl (.inl rfl) rfl rfl rfl hpast
  | some p =>
    exact hmade _ _ rfl (.inr ⟨_, hparent p rfl, rfl⟩) rfl rfl rfl hpast

theorem perform_recorded {d : Deed} (hf : h.ledger.forest.Recorded past) (hd : h.Meters d)
    (hpast : ∀ x, past' x ↔ past x ∨ x = (h.perform d).2.ledger.forest) :
    (h.perform d).2.ledger.forest.Recorded past' := by
  cases d with
  | addTracker name label limit parent? => exact addTracker_recorded hf name label limit hd hpast
  | dropTracker name =>
    exact dropTracker_recorded hf name (fun x hx => .inl ((hpast x).mpr (.inl hx)))
      (fun x => (hpast x).mp) ((hpast _).mpr (.inr rfl))
  | consume t bytes => exact hf.consume hd hpast
  | release t bytes => exact hf.release hd hpast
  | tryConsume t bytes =>
    simp only [perform, Forest.tryConsume_eq (hf.nodup _)] at hpast ⊢
    cases hrefusal : h.ledger.forest.refusal? (h.tracker t) bytes <;>
      simp only [hrefusal] at hpast ⊢
    · exact hf.consume hd hpast
    · exact hf.again hpast
  | _ => exact hd.elim

/-- The forests that deeds go through, from the beginning on. -/
def Passes (deeds : List Deed) (f : Forest) : Prop :=
  ∃ ds, ds <+: deeds ∧ f = (run ds {}).ledger.forest

theorem metersAll_append {ds ds' : List Deed} :
    h.MetersAll (ds ++ ds') ↔ h.MetersAll ds ∧ (run ds h).MetersAll ds' := by
  induction ds generalizing h with
  | nil => simp [MetersAll, run]
  | cons d ds ih =>
    simp only [List.cons_append, MetersAll, ih, and_assoc]
    rfl

theorem run_recorded (deeds : List Deed) (hdeeds : MetersAll {} deeds) :
    (run deeds {}).ledger.forest.Recorded (Passes deeds) := by
  induction deeds using List.reverseRecOn with
  | nil =>
    have hnone : ∀ a, ({} : Forest).get? a = none := fun a => Array.getElem?_empty
    refine ⟨⟨[], List.nil_prefix, rfl⟩, ?_, fun a t ht => ?_, fun a t ht => ?_, fun a t ht => ?_,
      fun a t ht => ?_⟩
    · rintro x ⟨ds, hds, rfl⟩
      rw [List.prefix_nil.mp hds]
    all_goals exact absurd ((hnone a).symm.trans ht) nofun
  | append_singleton ds d ih =>
    obtain ⟨hds, hd, -⟩ := metersAll_append.mp hdeeds
    have hrun : run (ds ++ [d]) {} = ((run ds {}).perform d).2 := by
      simp [run]
    rw [hrun]
    refine perform_recorded (ih hds) hd fun x => ⟨?_, ?_⟩
    · rintro ⟨es, hes, rfl⟩
      rcases List.prefix_concat_iff.mp hes with rfl | hes
      · exact .inr (congrArg (·.ledger.forest) hrun)
      · exact .inl ⟨es, hes, rfl⟩
    · rintro (⟨es, hes, rfl⟩ | rfl)
      · exact ⟨es, hes.trans (List.prefix_append ds [d]), rfl⟩
      · exact ⟨_, List.prefix_rfl, (congrArg (·.ledger.forest) hrun).symm⟩

/-- Trying to consume, after any deeds on trackers. A path goes from a tracker to its parent and on to
the root. The request is granted if every limit on the path allows it, and then counts on the path
and nowhere else; else it names the nearest limit that does not, and nothing has changed. On every
tracker, current is what was allocated and not deallocated, and peak the most that was ever current
on it, or zero. -/
theorem tryConsume_exact (deeds : List Deed) (hdeeds : MetersAll {} deeds) :
    let f := (run deeds {}).ledger.forest
    (∀ id, f.path id = id :: (f.parent? id).elim [] f.path) ∧
    (∀ id bytes, 0 < bytes → f.BearsMore id bytes → f.TriesExactly id bytes) ∧
    ∀ a t, f.get? a = some t → t.Balanced ∧ 0 ≤ t.peak ∧
      (∀ ds, ds <+: deeds → (run ds {}).ledger.forest.current a ≤ t.peak) ∧
      ∃ ds, ds <+: deeds ∧ (run ds {}).ledger.forest.current a = t.peak := by
  have h := run_recorded deeds hdeeds
  refine ⟨h.path_eq, fun id bytes hpos hfits => h.triesExactly hpos hfits,
    fun a t ht => ⟨h.balanced a t ht, ?_, fun ds hds => ?_, ?_⟩⟩
  · exact h.below a t ht {} ⟨[], List.nil_prefix, rfl⟩
  · exact h.below a t ht _ ⟨ds, hds, rfl⟩
  · obtain ⟨x, ⟨ds, hds, rfl⟩, hpeak⟩ := h.reached a t ht
    exact ⟨ds, hds, hpeak⟩

/-- A fragment with two operators. -/
def Sample.deeds : List Deed :=
  [.addTracker "fragment" "fragment" 1000 none,
    .addTracker "op" "op" 800 (some "fragment"),
    .addTracker "other" "other" (-1) (some "fragment"),
    .consume "other" 300, .tryConsume "op" 600, .tryConsume "op" 300, .release "other" 50]

theorem tryConsume_exact_fragment :
    let f := (run Sample.deeds {}).ledger.forest
    MetersAll {} Sample.deeds ∧ f.BearsMore 1 160 ∧ f.BearsMore 1 250 ∧
      (f.tryConsume 1 160).1 = .error ⟨"fragment", 1000, 850, 160⟩ ∧ (f.tryConsume 1 160).2 = f ∧
      (f.tryConsume 1 250).1 = .error ⟨"op", 800, 600, 250⟩ ∧ (f.tryConsume 1 250).2 = f ∧
      (f.tryConsume 1 150).1 = .ok () := by
  have hdeeds : MetersAll {} Sample.deeds := by decide +kernel
  obtain ⟨-, htry, -⟩ := tryConsume_exact Sample.deeds hdeeds
  have hmore : (run Sample.deeds {}).ledger.forest.BearsMore 1 160 := by decide +kernel
  have hmost : (run Sample.deeds {}).ledger.forest.BearsMore 1 250 := by decide +kernel
  have hless : (run Sample.deeds {}).ledger.forest.BearsMore 1 150 := by decide +kernel
  have hfragment : ((run Sample.deeds {}).ledger.forest.tryConsume 1 160).1 =
      .error ⟨"fragment", 1000, 850, 160⟩ := by rfl
  have hop : ((run Sample.deeds {}).ledger.forest.tryConsume 1 250).1 =
      .error ⟨"op", 800, 600, 250⟩ := by rfl
  exact ⟨hdeeds, hmore, hmost, hfragment,
    ((htry 1 160 (by decide) hmore).refused _ hfragment).1, hop,
    ((htry 1 250 (by decide) hmost).refused _ hop).1,
    (htry 1 150 (by decide) hless).granted_iff.mpr (by decide +kernel)⟩

end Holders

end SpillSort
