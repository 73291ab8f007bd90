import SpillSort.Proofs.Meters

/-!
# Snapshots of trackers in a profile

A tree of trackers is copied below the node `MemTracker`, each tracker into the child that bears its
label. The copy has the shape and the numbers of the tree if and only if no two trackers right below
another have one label; otherwise they share a node, which shows the last of them.

* `Memory.Ledger.TrackerTree.Distinct` is the condition on labels, `Profile.mirror` the copy with a
  node for each tracker.
* `Memory.Ledger.TrackerTree.along` finds the trackers at the end of a path of labels; what the node
  there shows is `Profile.shown_write`, by induction on the path.
* `Profile.snapshot_exact` is the theorem, `Profile.labels_collide` a tree whose numbers are lost.
-/

namespace SpillSort

open Memory.Ledger (TrackerTree)

/-! ## Trees of trackers -/

namespace Memory.Ledger.TrackerTree

/-- Bytes current on the root. -/
def current : TrackerTree → Int64
  | node _ current _ _ => current

/-- The most bytes ever current on the root. -/
def peak : TrackerTree → Int64
  | node _ _ peak _ => peak

/-- The trees right below the root. -/
def children : TrackerTree → List TrackerTree
  | node _ _ _ children => children

/-- The trees below the root at the end of a path of labels, in order. -/
def along : List String → TrackerTree → List TrackerTree
  | [], t => [t]
  | k :: ks, t => (t.children.filter (·.label = k)).flatMap (along ks)

mutual

/-- No two trackers right below another have one label. -/
def Distinct : TrackerTree → Prop
  | node _ _ _ below => (below.map label).Nodup ∧ AllDistinct below

/-- All trees have labels like that. -/
def AllDistinct : List TrackerTree → Prop
  | [] => True
  | t :: ts => Distinct t ∧ AllDistinct ts

end

end Memory.Ledger.TrackerTree

namespace Profile

variable {p q : Profile} {t : TrackerTree} {ts : List TrackerTree} {cs : List Profile} {k : String}

mutual

/-- The profile called `name` that has a node for each tracker of a tree, in its shape, with the
label and the numbers of this tracker. -/
def mirror (name : String) : TrackerTree → Profile
  | .node label current peak below =>
    node name [("Label", label)]
      [("CurrentMemoryBytes", ⟨.bytes, current⟩), ("PeakMemoryBytes", ⟨.bytes, peak⟩)]
      (mirrorAll below)

/-- The profiles of several trees, called by their labels. -/
def mirrorAll : List TrackerTree → List Profile
  | [] => []
  | t :: ts => mirror t.label t :: mirrorAll ts

end

/-! ## Children by name -/

theorem onNamed_of_not_mem {f : Profile → Profile} (h : k ∉ cs.map name) :
    onNamed k f cs = cs ++ [f (empty k)] := by
  induction cs with
  | nil => rfl
  | cons c cs ih =>
    rw [List.map_cons, List.mem_cons, not_or] at h
    rw [onNamed, if_neg (Ne.symm h.1), ih h.2, List.cons_append]

theorem map_name_onNamed {f : Profile → Profile} (hf : ∀ q, (f q).name = q.name) :
    (onNamed k f cs).map name = if k ∈ cs.map name then cs.map name else cs.map name ++ [k] := by
  induction cs with
  | nil =>
    have hempty : (f (empty k)).name = k := hf _
    simp [onNamed, hempty]
  | cons c cs ih =>
    unfold onNamed
    by_cases hc : c.name = k
    · simp [hc, hf]
    · rw [if_neg hc, List.map_cons, ih, List.map_cons]
      by_cases hk : k ∈ cs.map name
      · rw [if_pos hk, if_pos (List.mem_cons_of_mem _ hk)]
      · rw [if_neg hk, if_neg (by simp [Ne.symm hc, hk]), List.cons_append]

/-- Writes each tree into the first profile called by its label. -/
def fillNamed (ts : List TrackerTree) (cs : List Profile) : List Profile :=
  ts.foldl (fun cs t => onNamed t.label (fill t) cs) cs

theorem fillChildren_node (n : String) (i : List (String × String)) (c : List (String × Counter)) :
    fillChildren ts (node n i c cs) = node n i c (fillNamed ts cs) := by
  induction ts generalizing cs with
  | nil => rw [fillChildren]; rfl
  | cons t ts ih =>
    rw [fillChildren, onChild, ih]
    rfl

theorem name_fillChildren : (fillChildren ts p).name = p.name := by
  cases p
  rw [fillChildren_node]
  rfl

theorem name_fill : (fill t p).name = p.name := by
  cases t
  rw [fill, name_fillChildren, setCounter, setCounter, name_onCounter, name_addCounter,
    name_onCounter, name_addCounter, name_setInfo]

theorem nodup_fillNamed (h : (cs.map name).Nodup) : ((fillNamed ts cs).map name).Nodup := by
  induction ts generalizing cs with
  | nil => exact h
  | cons t ts ih =>
    apply ih
    rw [map_name_onNamed fun _ => name_fill]
    split
    · exact h
    · next hnot => exact List.concat_eq_append ▸ h.concat hnot

/-- Trees of different labels get nodes of their own. -/
theorem fillNamed_of_nodup (hlabels : (ts.map TrackerTree.label).Nodup)
    (hnew : ∀ t ∈ ts, t.label ∉ cs.map name) :
    fillNamed ts cs = cs ++ ts.map fun t => fill t (empty t.label) := by
  induction ts generalizing cs with
  | nil => simp [fillNamed]
  | cons t ts ih =>
    rw [List.map_cons, List.nodup_cons] at hlabels
    have hstep : fillNamed (t :: ts) cs = fillNamed ts (cs ++ [fill t (empty t.label)]) := by
      rw [fillNamed, List.foldl_cons, onNamed_of_not_mem (hnew t List.mem_cons_self)]
      rfl
    rw [hstep, ih hlabels.2, List.map_cons, List.append_assoc, List.singleton_append]
    intro u hu hmem
    rw [List.map_append, List.mem_append] at hmem
    rcases hmem with hmem | hmem
    · exact hnew u (List.mem_cons_of_mem _ hu) hmem
    · rw [List.map_singleton, name_fill, List.mem_singleton] at hmem
      apply hlabels.1
      exact List.mem_map.mpr ⟨u, hu, hmem⟩

/-! ## A node for each tracker -/

theorem fill_empty (name label : String) (current peak : Int64) (below : List TrackerTree) :
    fill (.node label current peak below) (empty name) =
      node name [("Label", label)]
        [("CurrentMemoryBytes", ⟨.bytes, current⟩), ("PeakMemoryBytes", ⟨.bytes, peak⟩)]
        (fillNamed below []) := by
  rw [fill, ← fillChildren_node]
  rfl

theorem map_name_mirrorAll : (mirrorAll ts).map name = ts.map TrackerTree.label := by
  induction ts with
  | nil => rfl
  | cons t ts ih =>
    have hname : (mirror t.label t).name = t.label := by
      cases t
      rfl
    rw [mirrorAll, List.map_cons, List.map_cons, hname, ih]

mutual

/-- A tree is copied as it is if and only if its labels are distinct. -/
theorem fill_eq_mirror_iff (name : String) :
    ∀ t : TrackerTree, fill t (empty name) = mirror name t ↔ t.Distinct
  | .node label current peak below => by
    have hall := map_fill_eq_mirrorAll_iff below
    rw [fill_empty, mirror, TrackerTree.Distinct]
    have hnodes : node name [("Label", label)] [("CurrentMemoryBytes", ⟨.bytes, current⟩),
          ("PeakMemoryBytes", ⟨.bytes, peak⟩)] (fillNamed below []) =
        node name [("Label", label)] [("CurrentMemoryBytes", ⟨.bytes, current⟩),
          ("PeakMemoryBytes", ⟨.bytes, peak⟩)] (mirrorAll below) ↔
        fillNamed below [] = mirrorAll below := by simp
    rw [hnodes]
    constructor
    · intro heq
      have hlabels : (below.map TrackerTree.label).Nodup := by
        rw [← map_name_mirrorAll, ← heq]
        exact nodup_fillNamed (by simp)
      rw [fillNamed_of_nodup hlabels (by simp), List.nil_append] at heq
      exact ⟨hlabels, hall.mp heq⟩
    · rintro ⟨hlabels, hbelow⟩
      rw [fillNamed_of_nodup hlabels (by simp), List.nil_append]
      exact hall.mpr hbelow

theorem map_fill_eq_mirrorAll_iff :
    ∀ ts : List TrackerTree, (ts.map fun t => fill t (empty t.label)) = mirrorAll ts ↔
      TrackerTree.AllDistinct ts
  | [] => by simp [mirrorAll, TrackerTree.AllDistinct]
  | t :: ts => by
    rw [List.map_cons, mirrorAll, List.cons.injEq, fill_eq_mirror_iff t.label t,
      map_fill_eq_mirrorAll_iff ts, TrackerTree.AllDistinct]

end

/-! ## What a node shows -/

/-- The label and the numbers that a node shows. -/
def shown (p : Profile) : Option String × Option Int64 × Option Int64 :=
  (p.info? "Label", p.value? [] "CurrentMemoryBytes", p.value? [] "PeakMemoryBytes")

/-- The label and the numbers of the root of a tree. -/
def shownOf (t : TrackerTree) : Option String × Option Int64 × Option Int64 :=
  (some t.label, some t.current, some t.peak)

theorem counter?_addCounter (unit : CounterUnit) (k' : String) :
    (p.addCounter k unit).counter? k' =
      if k' = k then some ((p.counter? k).getD { unit }) else p.counter? k' := by
  cases p with
  | node n i c cs =>
    unfold addCounter counter? counters
    dsimp only
    cases hx : c.lookup k with
    | none => simp [lookup_insertKey]
    | some x =>
      by_cases hk : k' = k
      · simp [hk, hx]
      · simp [hk]

theorem value?_setCounter (unit : CounterUnit) (v : Int64) (k' : String) :
    (p.setCounter k unit v).value? [] k' = if k' = k then some v else p.value? [] k' := by
  simp only [value?, at?, Option.bind_some, setCounter, counter?_onCounter, counter?_addCounter]
  split <;> simp [Counter.set]

/-- Writing children changes nothing else. -/
theorem shown_fillChildren : (fillChildren ts p).shown = p.shown := by
  cases p
  rw [fillChildren_node]
  rfl

theorem info?_setCounter (unit : CounterUnit) (v : Int64) (k' : String) :
    (p.setCounter k unit v).info? k' = p.info? k' := by
  cases p with
  | node n i c cs =>
    unfold setCounter addCounter
    dsimp only
    split <;> (unfold onCounter; dsimp only; split <;> rfl)

theorem shown_fill : (fill t p).shown = shownOf t := by
  cases t with
  | node label current peak children =>
    have hlabel : (p.setInfo "Label" label).info? "Label" = some label := by
      cases p
      simp [setInfo, info?, infos, lookup_insertKey]
    rw [fill, shown_fillChildren, shown]
    simp only [info?_setCounter, value?_setCounter, hlabel]
    simp [shownOf, TrackerTree.label, TrackerTree.current, TrackerTree.peak]

/-- Writes trees into the profile called `k`, which is made for the first of them if missing. -/
def write (k : String) (ts : List TrackerTree) (p? : Option Profile) : Option Profile :=
  ts.foldl (fun p? t => some (fill t (p?.getD (empty k)))) p?

theorem find_fillNamed : (fillNamed ts cs).find? (·.name = k) =
    write k (ts.filter (·.label = k)) (cs.find? (·.name = k)) := by
  induction ts generalizing cs with
  | nil => rfl
  | cons t ts ih =>
    have hstep : fillNamed (t :: ts) cs = fillNamed ts (onNamed t.label (fill t) cs) := rfl
    rw [hstep, ih]
    by_cases hk : t.label = k
    · subst hk
      rw [find_onNamed fun _ => name_fill, List.filter_cons_of_pos (by simp)]
      rfl
    · rw [find_onNamed_ne (fun _ => name_fill) (Ne.symm hk),
        List.filter_cons_of_neg (by simpa using hk)]

theorem children_setCounter (unit : CounterUnit) (v : Int64) :
    (p.setCounter k unit v).children = p.children := by
  cases p with
  | node n i c cs =>
    unfold setCounter addCounter
    dsimp only
    split <;> (unfold onCounter; dsimp only; split <;> rfl)

theorem children_fill : (fill t p).children = fillNamed t.children p.children := by
  have hchildren (ts : List TrackerTree) (p : Profile) :
      (fillChildren ts p).children = fillNamed ts p.children := by
    cases p
    rw [fillChildren_node]
    rfl
  have hinfo (v : String) : (p.setInfo "Label" v).children = p.children := by
    cases p
    rfl
  cases t
  rw [fill, hchildren, children_setCounter, children_setCounter, hinfo]
  rfl

theorem child?_fill : (fill t p).child? k =
    write k (t.children.filter (·.label = k)) (p.child? k) := by
  rw [child?, children_fill, find_fillNamed]
  rfl

theorem child?_write {k' : String} {p? : Option Profile} :
    (write k ts p?).bind (·.child? k') =
      write k' (ts.flatMap fun t => t.children.filter (·.label = k')) (p?.bind (·.child? k')) := by
  induction ts generalizing p? with
  | nil => rfl
  | cons t ts ih =>
    have hstep : write k (t :: ts) p? = write k ts (some (fill t (p?.getD (empty k)))) := rfl
    have hchild : (p?.getD (empty k)).child? k' = p?.bind (·.child? k') := by
      cases p? <;> rfl
    rw [hstep, ih, Option.bind_some, child?_fill, hchild, List.flatMap_cons, write, write, write,
      List.foldl_append]

/-- Behind any number of trees, the node at the end of a path shows the last of the trackers that
stand there; if there are none, it shows what it did before. -/
theorem shown_write (ks : List String) {p? : Option Profile} :
    ((write k ts p?).bind (at? ks)).map shown =
      ((ts.flatMap (TrackerTree.along ks)).getLast?.map shownOf).or
        ((p?.bind (at? ks)).map shown) := by
  induction ks generalizing k ts p? with
  | nil =>
    have halong : ts.flatMap (TrackerTree.along []) = ts := by
      simp [TrackerTree.along]
    rw [halong]
    rcases List.eq_nil_or_concat ts with rfl | ⟨us, u, rfl⟩
    · simp [write]
    · simp [write, List.concat_eq_append, at?, shown_fill]
  | cons k' ks ih =>
    have hat (q? : Option Profile) :
        q?.bind (at? (k' :: ks)) = (q?.bind (·.child? k')).bind (at? ks) := by
      cases q? <;> rfl
    have halong : ts.flatMap (TrackerTree.along (k' :: ks)) =
        (ts.flatMap fun t => t.children.filter (·.label = k')).flatMap (TrackerTree.along ks) := by
      rw [List.flatMap_assoc]
      rfl
    rw [hat, child?_write, ih, hat, halong]

/-! ## Snapshots -/

/-- **A snapshot of trackers.** Below a node without a child `MemTracker`, a tree of trackers is
copied into a new child of this name. The copy has a node for each tracker, in the shape of the tree
and with the label and the numbers of this tracker, if and only if no two trackers right below
another have one label. Whatever the labels are, the node at the end of a path of labels shows the
last of the trackers that stand there, and there is no node where there is no tracker. -/
theorem snapshot_exact (t : TrackerTree) (h : p.child? "MemTracker" = none) :
    ∃ q, p.attach t = .node p.name p.infos p.counters (p.children ++ [q]) ∧ q.name = "MemTracker" ∧
      (∀ ks, (q.at? ks).map shown = (t.along ks).getLast?.map shownOf) ∧
      (q = mirror "MemTracker" t ↔ t.Distinct) := by
  refine ⟨fill t (empty "MemTracker"), ?_, name_fill, ?_, fill_eq_mirror_iff "MemTracker" t⟩
  · cases p with
    | node n i c cs =>
      have hnew : "MemTracker" ∉ cs.map name := by
        intro hmem
        obtain ⟨q, hq, hname⟩ := List.mem_map.mp hmem
        have hnot := List.find?_eq_none.mp h q hq
        exact hnot (by simpa using hname)
      rw [attach, onChild, onNamed_of_not_mem hnew]
      rfl
  · intro ks
    have hwritten : ((write "MemTracker" [t] none).bind (at? ks)).map shown =
        (([t].flatMap (TrackerTree.along ks)).getLast?.map shownOf).or none := shown_write ks
    rw [List.flatMap_singleton, Option.or_none] at hwritten
    exact hwritten

end Profile

namespace Sample

open Memory (Ledger)

/-- A fragment with two trackers below it, with one byte on the first and two on the second. -/
def fragment (first second : String) : Ledger :=
  let (root, l) := ({} : Ledger).addRoot "fragment" (-1)
  let (i, l) := l.addChild first (-1) root
  let (j, l) := l.addChild second (-1) root
  (l.onForest (·.consume i 1)).onForest (·.consume j 2)

theorem tree_fragment (first second : String) : (fragment first second).tree 0 =
    .node "fragment" 3 3 [.node first 1 1 [], .node second 2 2 []] := by
  cbv

end Sample

/-- Two trackers of different labels below a node that has another child. -/
theorem Profile.snapshot_exact_two_labels :
    let p := (empty "EXTERNAL_SORT").onChild "Spill" id
    let t := (Sample.fragment "sort" "scan").tree 0
    p.child? "MemTracker" = none ∧
      p.attach t = .node "EXTERNAL_SORT" [] [] [empty "Spill", mirror "MemTracker" t] := by
  intro p t
  have h : p.child? "MemTracker" = none := by decide +kernel
  have hdistinct : t.Distinct := by
    simp [t, Sample.tree_fragment, TrackerTree.Distinct, TrackerTree.AllDistinct, TrackerTree.label]
  obtain ⟨q, hq, -, -, hmirror⟩ := snapshot_exact t h
  refine ⟨h, hq.trans ?_⟩
  rw [hmirror.mpr hdistinct]
  rfl

/-- Two trackers of one label share a node, which shows the second of them. -/
theorem Profile.labels_collide :
    let t := (Sample.fragment "sort" "sort").tree 0
    let p := (empty "m").attach t
    t = .node "fragment" 3 3 [.node "sort" 1 1 [], .node "sort" 2 2 []] ∧
      (empty "m").child? "MemTracker" = none ∧
      (p.at? ["MemTracker"]).map (·.children.map shown) = some [(some "sort", some 2, some 2)] ∧
      p.child? "MemTracker" ≠ some (mirror "MemTracker" t) := by
  rw [Sample.tree_fragment]
  refine ⟨rfl, rfl, by decide +kernel, fun heq => ?_⟩
  have hchildren := congrArg (Option.map fun q => q.children.map shown) heq
  revert hchildren
  decide +kernel

end SpillSort
