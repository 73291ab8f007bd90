/-!
# Terms in postfix notation

A term is a number or a sequence of terms. Its notation writes the parts first and then how many
there are; numbers are in base 128, and the marks between them are the bytes from 128 on. A reader
needs no look-ahead: it keeps the digits read so far and the terms not yet used up.

* `Term.code` writes a term, `Term.read` reads one back.
* `Term.read_code` says that reading gives back what was written, whatever follows, and
  `Term.read_zeros` that zeros may stand in front.
-/

namespace SpillSort.Spill

/-- A number or a sequence of terms. -/
inductive Term where
  | num (n : Nat)
  | node (ts : List Term)
  deriving Inhabited

namespace Term

/-- Ends a number. -/
def numberMark : UInt8 := 128

/-- Ends a sequence, after the count of its terms. -/
def nodeMark : UInt8 := 129

/-- Ends the notation. -/
def endMark : UInt8 := 130

/-- Puts the digits of a number before bytes that are kept last first. -/
def digits (n : Nat) (written : List UInt8) : List UInt8 :=
  if n < 128 then UInt8.ofNat n :: written
  else UInt8.ofNat (n % 128) :: digits (n / 128) written
termination_by n
decreasing_by omega

mutual

/-- Puts the notation of a term before bytes that are kept last first. -/
def write : Term → List UInt8 → List UInt8
  | num n, written => numberMark :: digits n written
  | node ts, written => nodeMark :: digits ts.length (writeAll ts written)

/-- Puts the notations of several terms before bytes that are kept last first. -/
def writeAll : List Term → List UInt8 → List UInt8
  | [], written => written
  | t :: ts, written => writeAll ts (write t written)

end

/-- The notation of a term. -/
def code (t : Term) : List UInt8 := (endMark :: write t []).reverse

/-- The only term of a list. -/
def sole : List Term → Option Term
  | [t] => some t
  | _ => none

/-- Reads up to the end mark, with the digits `n` and the terms `stack` read before. -/
def readWith : List UInt8 → Nat → List Term → Option Term
  | [], _, _ => none
  | b :: rest, n, stack =>
    if b < 128 then readWith rest (n * 128 + b.toNat) stack
    else if b = numberMark then readWith rest 0 (num n :: stack)
    else if b = nodeMark then
      let parts := stack.take n
      if parts.length = n then readWith rest 0 (node parts.reverse :: stack.drop n) else none
    else if b = endMark then sole stack
    else none

/-- Reads the term whose notation the bytes begin with. -/
def read (bytes : List UInt8) : Option Term := readWith bytes 0 []

/-! ## Reading back -/

/-- Reading the bytes, which are kept last first, leaves the digits `n` and the terms `stack`. -/
def Leaves (written : List UInt8) (n : Nat) (stack : List Term) : Prop :=
  ∀ rest, readWith (written.reverse ++ rest) 0 [] = readWith rest n stack

theorem leaves_digits (m : Nat) {written : List UInt8} {stack : List Term}
    (h : Leaves written 0 stack) : Leaves (digits m written) m stack := by
  induction m using Nat.strongRecOn with
  | ind m ih =>
    intro rest
    rw [digits]
    split
    · have hb : UInt8.ofNat m < 128 := by
        rw [UInt8.lt_iff_toNat_lt]; simp; omega
      have hm : (UInt8.ofNat m).toNat = m := by simp; omega
      rw [List.reverse_cons, List.append_assoc, h, List.singleton_append, readWith, if_pos hb, hm]
      simp
    · have hb : UInt8.ofNat (m % 128) < 128 := by
        rw [UInt8.lt_iff_toNat_lt]; simp; omega
      have hm : (UInt8.ofNat (m % 128)).toNat = m % 128 := by simp; omega
      rw [List.reverse_cons, List.append_assoc, ih (m / 128) (by omega), List.singleton_append,
        readWith, if_pos hb, hm, Nat.div_add_mod']

mutual

theorem leaves_write : ∀ (t : Term) {written : List UInt8} {stack : List Term},
    Leaves written 0 stack → Leaves (write t written) 0 (t :: stack)
  | num n, written, stack, h => fun rest => by
    rw [write, List.reverse_cons, List.append_assoc, leaves_digits n h]
    simp [readWith, numberMark]
  | node ts, written, stack, h => fun rest => by
    rw [write, List.reverse_cons, List.append_assoc,
      leaves_digits ts.length (leaves_writeAll ts h)]
    simp [readWith, numberMark, nodeMark]

theorem leaves_writeAll : ∀ (ts : List Term) {written : List UInt8} {stack : List Term},
    Leaves written 0 stack → Leaves (writeAll ts written) 0 (ts.reverse ++ stack)
  | [], written, stack, h => by simpa [writeAll] using h
  | t :: ts, written, stack, h => by
    simpa [writeAll] using leaves_writeAll ts (leaves_write t h)

end

/-- Zeros in front do not count. -/
theorem read_zeros (n : Nat) (bytes : List UInt8) :
    read (List.replicate n 0 ++ bytes) = read bytes := by
  induction n with
  | zero => rfl
  | succ n ih => simpa [List.replicate_succ, read, readWith] using ih

theorem read_code (t : Term) (rest : List UInt8) : read (code t ++ rest) = some t := by
  have h : Leaves (write t []) 0 [t] := leaves_write t fun _ => rfl
  rw [read, code, List.reverse_cons, List.append_assoc, h]
  simp [readWith, sole, endMark, numberMark, nodeMark]

end Term

end SpillSort.Spill
