/-!
# Values under names

A short list of named values in which a name occurs once; `List.lookup` finds them.
-/

namespace SpillSort

/-- Values under names, the newest first. -/
abbrev Named (α : Type) := List (String × α)

namespace Named

variable {α : Type}

/-- Forgets a name. -/
def erase (name : String) (xs : Named α) : Named α := xs.filter (·.1 ≠ name)

/-- Gives a name to a value, instead of the one that had it. -/
def set (name : String) (a : α) (xs : Named α) : Named α := (name, a) :: xs.erase name

theorem lookup_erase (name : String) (xs : Named α) : (xs.erase name).lookup name = none := by
  induction xs with
  | nil => rfl
  | cons x xs ih =>
    by_cases h : x.1 = name
    · simpa [erase, h] using ih
    · have h' : (name == x.1) = false := by simp [Ne.symm h]
      rw [erase, List.filter_cons_of_pos (by simp [h]), List.lookup_cons, h']
      exact ih

@[simp] theorem lookup_set (name : String) (a : α) (xs : Named α) :
    (xs.set name a).lookup name = some a := by
  rw [set, List.lookup_cons_self]

/-- The same names for other values. -/
def mapValues {β : Type} (f : α → β) (xs : Named α) : Named β := xs.map fun x => (x.1, f x.2)

theorem mapValues_erase {β : Type} (f : α → β) (name : String) (xs : Named α) :
    (xs.erase name).mapValues f = (xs.mapValues f).erase name := by
  simp [erase, mapValues, List.filter_map, Function.comp_def]

theorem mapValues_set {β : Type} (f : α → β) (name : String) (a : α) (xs : Named α) :
    (xs.set name a).mapValues f = (xs.mapValues f).set name (f a) :=
  congrArg ((name, f a) :: ·) (mapValues_erase f name xs)

theorem lookup_mapValues {β : Type} (f : α → β) (name : String) (xs : Named α) :
    (xs.mapValues f).lookup name = (xs.lookup name).map f := by
  induction xs with
  | nil => rfl
  | cons x xs ih =>
    rw [mapValues, List.map_cons, List.lookup_cons, List.lookup_cons]
    split
    · rfl
    · exact ih

theorem mem_of_lookup {name : String} {a : α} {xs : Named α} (h : xs.lookup name = some a) :
    (name, a) ∈ xs := by
  induction xs with
  | nil => cases h
  | cons x xs ih =>
    rw [List.lookup_cons] at h
    split at h
    · next hx =>
      obtain rfl := Option.some.inj h
      obtain rfl : name = x.1 := by simpa using hx
      exact List.mem_cons_self
    · exact List.mem_cons_of_mem x (ih h)

theorem mem_set {name : String} {a : α} {xs : Named α} {x : String × α} (h : x ∈ xs.set name a) :
    x = (name, a) ∨ x ∈ xs :=
  (List.mem_cons.mp h).imp_right fun hx => (List.mem_filter.mp hx).1

theorem nodup_erase {xs : Named α} (h : (xs.map Prod.fst).Nodup) (name : String) :
    ((xs.erase name).map Prod.fst).Nodup :=
  List.Sublist.nodup (List.filter_sublist.map Prod.fst) h

theorem nodup_set {xs : Named α} (h : (xs.map Prod.fst).Nodup) (name : String) (a : α) :
    ((xs.set name a).map Prod.fst).Nodup := by
  rw [set, List.map_cons, List.nodup_cons]
  refine ⟨fun hm => ?_, nodup_erase h name⟩
  obtain ⟨x, hx, hname⟩ := List.mem_map.mp hm
  simpa [hname] using (List.mem_filter.mp hx).2

/-- What a name stands for, and the rest. -/
theorem perm_erase {xs : Named α} (h : (xs.map Prod.fst).Nodup) (name : String) :
    xs.Perm ((xs.lookup name).toList.map (name, ·) ++ xs.erase name) := by
  induction xs with
  | nil => exact .nil
  | cons x xs ih =>
    obtain ⟨hx, hxs⟩ := List.nodup_cons.mp h
    by_cases hname : x.1 = name
    · subst hname
      have hrest : erase x.1 xs = xs := List.filter_eq_self.mpr fun y hy => by
        simpa using fun heq : y.1 = x.1 => hx (heq ▸ List.mem_map_of_mem hy)
      have hgone : erase x.1 (x :: xs) = xs :=
        (List.filter_cons_of_neg (by simp)).trans hrest
      rw [hgone, List.lookup_cons_self]
      exact .rfl
    · have hother : (name == x.1) = false := by simp [Ne.symm hname]
      rw [List.lookup_cons, hother, erase, List.filter_cons_of_pos (by simp [hname])]
      exact ((ih hxs).cons x).trans List.perm_middle.symm

end Named

end SpillSort
