import Mathlib.Tactic

/-!
# Machinery/Memory — blocks of bytes, read and written in windows

    m :  ⋯ | off ⋯ off+n | ⋯         `m.read off n`,  `m.write off l`

A block is a total function from offsets to bytes, so stale bytes stay readable, as they are in
memory.  `memmove` is a write of what was read.
-/

namespace Cornet

open List

abbrev Byte := UInt8

/-- The contents of a block of memory, by offset. -/
abbrev Mem := ℕ → Byte

namespace Mem

variable {m : Mem} {off n k : ℕ} {l : List Byte}

/-- The bytes of a window. -/
def read (m : Mem) (off n : ℕ) : List Byte := (List.range' off n).map m

/-- The block with a window overwritten. -/
def write (m : Mem) (off : ℕ) (l : List Byte) : Mem := fun i =>
  if off ≤ i then (l[i - off]?).getD (m i) else m i

/-- A fresh, zeroed block. -/
def zero : Mem := fun _ => 0

@[simp] theorem length_read : (m.read off n).length = n := by simp [read]

@[simp] theorem read_zero : m.read off 0 = [] := rfl

theorem read_add (m : Mem) (off a b : ℕ) :
    m.read off (a + b) = m.read off a ++ m.read (off + a) b := by
  rw [read, read, read, ← map_append, ← List.range'_append_1]

theorem read_split (m : Mem) (off : ℕ) (h : k ≤ n) :
    m.read off n = m.read off k ++ m.read (off + k) (n - k) := by
  rw [← read_add, Nat.add_sub_cancel' h]

theorem read_eq_nil : m.read off n = [] ↔ n = 0 := by
  rw [← length_eq_zero_iff, length_read]

/-- A window depends on its own bytes only. -/
theorem read_congr {m' : Mem} (h : ∀ i, off ≤ i → i < off + n → m i = m' i) :
    m.read off n = m'.read off n :=
  map_congr_left fun i hi => by
    rw [mem_range'_1] at hi
    exact h i hi.1 hi.2

@[simp] theorem write_nil : m.write off [] = m := by
  funext i
  simp [write]

@[simp] theorem read_write_self : (m.write off l).read off l.length = l := by
  refine ext_getElem (by simp) fun i _ hi => ?_
  simp [read, write, getElem?_eq_getElem hi]

theorem write_of_disjoint {i : ℕ} (h : i < off ∨ off + l.length ≤ i) : m.write off l i = m i := by
  rw [write]
  split
  · rw [getElem?_eq_none (by omega)]
    rfl
  · rfl

/-- **The frame rule**: a write leaves the windows it does not meet alone. -/
theorem read_write_of_disjoint {off' : ℕ} (h : off' + n ≤ off ∨ off + l.length ≤ off') :
    (m.write off l).read off' n = m.read off' n :=
  read_congr fun i hlo hhi => write_of_disjoint (by omega)

end Mem

end Cornet
