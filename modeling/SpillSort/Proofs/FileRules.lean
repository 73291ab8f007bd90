import SpillSort.Proofs.Steps

/-!
# Rules for files

There is one rule for each step by which spill files are written and read. Before each of them the
disk may have a trouble, so that every rule begins with `Work.gives_brace`.

* `Writer.gives_create`, `gives_append`, `gives_writeOut` and `gives_finish` are about writing;
  `Writer.taken` is the writer that has taken in one more batch.
* `Reader.gives_open`, `gives_messageAt` and `gives_batchAt` are about reading.
-/

namespace SpillSort

open Spill

variable {w : Workspace} {E : Failure → Workspace → Prop}

/-- The value of a disk operation, or its fault in a context. -/
@[simp] theorem Gives.ofDisk_iff {α : Type} {context : String} {x : Except DiskFault α}
    {P : α → Workspace → Prop} {F : Failure → Workspace → Prop} {w : Workspace} :
    Gives (Work.ofDisk context x) P F w ↔
      match x with
      | .ok a => P a w
      | .error fault => F (.io context fault) w := by
  cases x <;> rfl

/-- A trouble is over once it showed. -/
theorem Work.gives_brace {context : String} {P : Unit → Workspace → Prop}
    (hpass : ∀ disk, w.disk.nextTrouble = (none, disk) → P () { w with disk })
    (hfault : ∀ fault disk, w.disk.nextTrouble = (some fault, disk) →
      E (.io context fault) { w with disk }) :
    Gives (brace context) P E w := by
  unfold brace
  rw [Gives.bind_iff, Gives.get_iff]
  split
  · next fault disk h =>
    simp only [Gives.bind_iff, Gives.lift_iff, Gives.throw_iff]
    exact hfault fault disk h
  · next disk h =>
    rw [Gives.lift_iff]
    exact hpass disk h

/-- A file that is not there need not be removed. -/
theorem Workspace.ensures_removeFile {path : String} {Q : Unit → Workspace → Prop}
    (hremoved : ∀ disk, w.disk.removeFile path = .ok disk → Q () { w with disk })
    (hmissing : w.disk.removeFile path = .error .notFound → Q () w)
    (hkept : ∀ fault, w.disk.removeFile path = .error fault →
      Ensures (note (.removalFailed path fault)) Q w) :
    Ensures (removeFile path) Q w := by
  unfold removeFile
  rw [Ensures.bind_iff, Ensures.get_iff]
  split
  · next disk h => exact hremoved disk h
  · next h => exact Ensures.pure_iff.mpr (hmissing h)
  · next fault _ h => exact hkept fault h

/-- The path of the next spill file. -/
def Workspace.nextPath (w : Workspace) : String := (Workspace.nextSpillPath.run w).1

/-- The workspace once that path is in use. -/
def Workspace.named (w : Workspace) : Workspace := (Workspace.nextSpillPath.run w).2

theorem Workspace.nextSpillPath_gives (w : Workspace) :
    Ensures nextSpillPath (fun path v => path = w.nextPath ∧ v = w.named) w :=
  ⟨rfl, rfl⟩

namespace Spill

/-! ## Writing -/

namespace Writer

variable {wr : Writer}

/-- The path is chosen before anything can go wrong. The file is there once it was made, and is given
up if it cannot have its header. -/
theorem gives_create {schema : Schema} {P : Writer → Workspace → Prop}
    (h : Ensures Workspace.nextSpillPath (fun path =>
      Gives (Work.brace s!"create spill file {path}") (fun _ u =>
        match u.disk.createFile path with
        | .error fault => E (.io s!"create spill file {path}" fault) u
        | .ok (content, disk) => Ensures (Workspace.onDisk fun _ => disk) (fun _ x =>
          Gives (Work.brace "write spill file header")
            (fun _ => P { path, content, schema, codec := x.spiller.codec })
            (fun e => Ensures (Workspace.removeFile path) fun _ => E e) x) u) E) w) :
    Gives (create schema) P E w := by
  unfold create
  simp only [Gives.bind_iff, Gives.lift_iff]
  refine h.mono fun path v hv => hv.mono (fun _ u hu => ?_) fun _ _ he => he
  simp only [Gives.get_iff, Gives.ofDisk_iff]
  split
  · next content disk hc =>
    simp only [hc] at hu
    refine hu.mono fun _ x hx => ?_
    simp only [Gives.rescue_iff, Gives.pure_iff]
    exact hx
  · next fault hc =>
    simp only [hc] at hu
    exact hu

variable [MessageFormat]

/-- A writer that has taken in one more batch. -/
def taken (wr : Writer) (b : Batch) : Writer where
  path := wr.path
  content := wr.content
  schema := wr.schema
  codec := wr.codec
  messages := MessageFormat.encode wr.codec b :: wr.messages
  entries := ⟨wr.written.toUInt64, (MessageFormat.encode wr.codec b).length.toUInt64,
    b.rows.toUInt32⟩ :: wr.entries
  written := wr.written + (MessageFormat.encode wr.codec b).length
  rows := wr.rows + b.rows

/-- A batch is refused for its rows before the disk is asked, for its bytes only then. -/
theorem gives_append {b : Batch} {P : Writer → Workspace → Prop}
    (hlong : mostRows < b.rows → E (.unsupported s!"spill batch of {b.rows} rows") w)
    (hbrace : b.rows ≤ mostRows → Gives (Work.brace s!"write spill file {wr.path}") (fun _ v =>
      (farthestSeek ≤ wr.written + (MessageFormat.encode wr.codec b).length →
        E (.io s!"write spill file {wr.path}" .fileTooLarge) v) ∧
      (wr.written + (MessageFormat.encode wr.codec b).length < farthestSeek → P (wr.taken b) v))
      E w) :
    Gives (wr.append b) P E w := by
  unfold append
  split
  · next hlt =>
    simp only [Gives.bind_iff, Gives.throw_iff]
    exact hlong hlt
  next hrows =>
  rw [Gives.bind_iff]
  refine (hbrace (Nat.not_lt.mp hrows)).mono (fun _ v hv => ?_) fun _ _ he => he
  extract_lets message length rest
  split
  · next hfar =>
    simp only [Gives.bind_iff, Gives.throw_iff]
    exact hv.1 hfar
  · next hnear => exact Gives.pure_iff.mpr (hv.2 (Nat.not_le.mp hnear))

omit [MessageFormat]

/-- The bytes in the buffer are written on the way back to the start, and the header over them. -/
theorem gives_writeOut {P : Unit → Workspace → Prop}
    (h : Gives (Work.brace "write spill file index") (fun _ =>
      Gives (Work.brace s!"seek spill file {wr.path}") (fun _ =>
        Ensures (Workspace.onDisk fun d => d.write wr.content ⟨wr.gathered.toArray⟩) fun _ =>
          Gives (Work.brace "write spill file header") (fun _ =>
            Gives (Work.brace s!"flush spill file {wr.path}") (fun _ =>
              Ensures (Workspace.onDisk fun d =>
                d.overwrite wr.content ⟨wr.header.encode.toArray⟩) P) E) E) E) E w) :
    Gives wr.writeOut P E w := by
  unfold writeOut
  simp only [Gives.bind_iff, Gives.lift_iff]
  exact h

/-- A file that cannot be written out is given up. -/
theorem gives_finish {P : SpillFile → Workspace → Prop}
    (h : Gives wr.writeOut
      (fun _ => Ensures (Workspace.note (.fileFinished wr.path wr.messages.length wr.rows
          (wr.written + wr.entries.length * entryLength)))
        fun _ => P ⟨wr.path, wr.schema, wr.messages.length, wr.rows,
          wr.written + wr.entries.length * entryLength⟩)
      (fun e => Ensures wr.abandon fun _ => E e) w) :
    Gives wr.finish P E w := by
  unfold finish
  simp only [Gives.bind_iff, Gives.rescue_iff, Gives.lift_iff, Gives.pure_iff]
  exact h

end Writer

/-! ## Reading -/

namespace Reader

/-- The header is read before the index, and must name the schema. -/
theorem gives_open {path : String} {schema : Schema} {P : Reader → Workspace → Prop}
    (h : Gives (Work.brace s!"open spill file {path}") (fun _ u =>
      match u.disk.openFile path with
      | .error fault => E (.io s!"open spill file {path}" fault) u
      | .ok node => Gives (Work.brace "read spill file header") (fun _ v =>
        match v.disk.read node with
        | .error fault => E (.io "read spill file header" fault) v
        | .ok content =>
          match readHeader content with
          | .error e => E e v
          | .ok header =>
            if header.schemaHash ≠ schema.hash then
              E (.schemaChange s!"spill file {path} was written with a different schema") v
            else
              Gives (Work.brace "seek to spill file index") (fun _ x =>
                match readIndex header content farthestSeek with
                | .error e => E e x
                | .ok entries => P { path, node, schema, pending := entries } x) E v) E u) E w) :
    Gives (Reader.open path schema) P E w := by
  unfold Reader.open
  rw [Gives.bind_iff]
  refine h.mono (fun _ u hu => ?_) fun _ _ he => he
  simp only [Gives.bind_iff, Gives.get_iff, Gives.ofDisk_iff]
  split
  case h_2 fault ho =>
    simp only [ho] at hu
    exact hu
  next node ho =>
  simp only [ho] at hu
  refine hu.mono (fun _ v hv => ?_) fun _ _ he => he
  split
  case h_2 fault hr =>
    simp only [hr] at hv
    exact hv
  next content hr =>
  simp only [hr] at hv
  rw [Gives.except_iff]
  split
  case h_2 e hh =>
    simp only [hh] at hv
    exact hv
  next header hh =>
  simp only [hh] at hv
  split
  · next hne =>
    rw [if_pos hne] at hv
    simp only [Gives.bind_iff, Gives.throw_iff]
    exact hv
  next heq =>
  rw [if_neg heq] at hv
  simp only [Gives.bind_iff, Gives.except_iff, Gives.pure_iff]
  refine hv.mono (fun _ x hx => ?_) fun _ _ he => he
  split
  · next entries hi =>
    simp only [hi] at hx
    exact hx
  · next e hi =>
    simp only [hi] at hx
    exact hx

variable {r : Reader} {e : Entry}

theorem gives_messageAt {P : List UInt8 → Workspace → Prop}
    (h : Gives (Work.brace s!"read spill file {r.path}") (fun _ u =>
      match u.disk.read r.node with
      | .error fault => E (.io s!"read spill file {r.path}" fault) u
      | .ok content =>
        if farthestSeek ≤ e.offset.toNat then
          E (.io s!"read spill file {r.path}" .invalidArgument) u
        else
          match bytesAt? content e.offset.toNat e.length.toNat with
          | some bytes => P bytes u
          | none => E (.io s!"read spill file {r.path}" .shortRead) u) E w) :
    Gives (r.messageAt e) P E w := by
  unfold messageAt
  rw [Gives.bind_iff]
  refine h.mono (fun _ u hu => ?_) fun _ _ he => he
  simp only [Gives.bind_iff, Gives.get_iff, Gives.ofDisk_iff]
  split
  case h_2 fault hr =>
    simp only [hr] at hu
    exact hu
  next content hr =>
  simp only [hr] at hu
  split
  · next hfar =>
    rw [if_pos hfar] at hu
    simp only [Gives.bind_iff, Gives.throw_iff]
    exact hu
  next hnear =>
  rw [if_neg hnear] at hu
  split
  · next bytes hb =>
    simp only [hb] at hu
    exact Gives.pure_iff.mpr hu
  · next hb =>
    simp only [hb] at hu
    exact Gives.throw_iff.mpr hu

/-- A batch is compared with the reader's schema first, then with its entry. -/
theorem gives_batchAt [MessageFormat] {P : Batch → Workspace → Prop}
    (h : Gives (r.messageAt e) (fun bytes u =>
      match Message.decode bytes with
      | .error f => E f u
      | .ok batch =>
        if batch.schema ≠ r.schema then
          E (.corrupted s!"spill file {r.path} yielded a batch with a different schema") u
        else if batch.rows ≠ e.rows.toNat then
          E (.corrupted (s!"spill file {r.path} message {r.position} holds {batch.rows} rows, " ++
            s!"index says {e.rows}")) u
        else P batch u) E w) :
    Gives (r.batchAt e) P E w := by
  unfold batchAt
  rw [Gives.bind_iff]
  refine h.mono (fun bytes u hu => ?_) fun _ _ he => he
  simp only [Gives.bind_iff, Gives.except_iff]
  split
  case h_2 f hd =>
    simp only [hd] at hu
    exact hu
  next batch hd =>
  simp only [hd] at hu
  split
  · next hs =>
    rw [if_pos hs] at hu
    simp only [Gives.bind_iff, Gives.throw_iff]
    exact hu
  next hs =>
  rw [if_neg hs] at hu
  split
  · next hr =>
    rw [if_pos hr] at hu
    simp only [Gives.bind_iff, Gives.throw_iff]
    exact hu
  next hr =>
  rw [if_neg hr] at hu
  exact Gives.pure_iff.mpr hu

end Reader

end Spill

end SpillSort
