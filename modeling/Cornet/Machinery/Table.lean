import Mathlib.Tactic

/-!
# Machinery/Table — hash maps as association lists

    find k t            upsert k f t :  the entry of `k`, made if it is missing, rewritten by `f`

The order of the entries is that of insertion, and no lemma depends on it: a table is known by what
`find` says.
-/

namespace Cornet

variable {κ ν : Type*} [DecidableEq κ]

/-- A hash map, by its entries. -/
abbrev Table (κ ν : Type*) := List (κ × ν)

namespace Table

variable {k k' : κ} {f : Option ν → ν} {t : Table κ ν}

/-- The value stored under a key. -/
def find (k : κ) : Table κ ν → Option ν
  | [] => none
  | e :: t => if e.1 = k then some e.2 else find k t

/-- Rewrite the entry of a key, or append one. -/
def upsert (k : κ) (f : Option ν → ν) : Table κ ν → Table κ ν
  | [] => [(k, f none)]
  | e :: t => if e.1 = k then (k, f (some e.2)) :: t else e :: upsert k f t

@[simp] theorem find_upsert_self : find k (upsert k f t) = some (f (find k t)) := by
  induction t with
  | nil => simp [upsert, find]
  | cons e t ih =>
    rw [upsert, find]
    split
    · simp [find]
    · rename_i h
      rw [find, if_neg h, ih]

theorem find_upsert_of_ne (h : k ≠ k') : find k' (upsert k f t) = find k' t := by
  induction t with
  | nil => simp [upsert, find, h]
  | cons e t ih =>
    rw [upsert]
    split
    · rename_i he
      rw [find, find, if_neg h, if_neg (he ▸ h)]
    · rw [find, find, ih]

end Table

end Cornet
