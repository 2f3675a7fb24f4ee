import Mathlib.Data.List.TakeWhile
import Mathlib.Tactic

/-!
# Machinery/Segments — segments of which a write took the first bytes

    | a | b | c |   ──n──▸   | b' | c |          `left n`, joined, is the rest of what was joined

A gathered write is offered a list of segments and takes some first part of their concatenation,
which may end anywhere.  The segments that are used up go, empty ones in front included.
-/

namespace Cornet.Segments

open List

variable {α : Type*}

/-- The bytes a write took leave the segments, from the first on. -/
def takeOff : ℕ → List (List α) → List (List α)
  | _, [] => []
  | n, s :: iov => s.drop (min n s.length) :: takeOff (n - min n s.length) iov

/-- What is offered to the next write. -/
def left [DecidableEq α] (n : ℕ) (iov : List (List α)) : List (List α) :=
  (takeOff n iov).dropWhile (· = [])

theorem flatten_takeOff : ∀ (n : ℕ) (iov : List (List α)),
    (takeOff n iov).flatten = iov.flatten.drop n
  | _, [] => drop_nil.symm
  | n, s :: iov => by
      rw [takeOff, flatten_cons, flatten_cons, flatten_takeOff, drop_append]
      rcases le_total n s.length with h | h
      · rw [min_eq_left h, Nat.sub_self, Nat.sub_eq_zero_of_le h]
      · rw [min_eq_right h, drop_length, drop_of_length_le h]

variable [DecidableEq α]

theorem flatten_dropWhile : ∀ iov : List (List α), (iov.dropWhile (· = [])).flatten = iov.flatten
  | [] => rfl
  | s :: iov => by
      rw [dropWhile_cons]
      split
      · rename_i hs
        rw [flatten_dropWhile iov, of_decide_eq_true hs, flatten_cons, nil_append]
      · rfl

/-- **What is left, joined.** -/
theorem flatten_left (n : ℕ) (iov : List (List α)) : (left n iov).flatten = iov.flatten.drop n := by
  rw [left, flatten_dropWhile, flatten_takeOff]

/-- Nothing is left but empty segments: nothing is left. -/
theorem left_eq_nil {n : ℕ} {iov : List (List α)} (h : (left n iov).flatten = []) : left n
    iov = [] := by
  rw [left, flatten_dropWhile, flatten_eq_nil_iff] at h
  exact dropWhile_eq_nil_iff.mpr fun x hx => decide_eq_true (h x hx)

end Cornet.Segments
