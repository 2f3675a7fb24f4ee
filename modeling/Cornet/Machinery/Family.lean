import Mathlib.Tactic
import Mathlib.Data.Set.Card

/-!
# Machinery/Family — finitely many live keys, and the head count of a population

    keys : {k₁, …, kₙ}      val k = default off the keys      sum f = ∑ f (val kᵢ)

A map that creates an entry on first use is a `Family`: a total function that is `default` off a
finite set of keys.  `Family.sum_set` is the ledger rule, what one write does to a sum over all
entries.

A counter kept by hand is compared with a `census`, the number of individuals that answer `k`.
Individuals come from any type, so the census is a cardinality in `ℕ∞`; one individual at a time
enters or leaves it.
-/

namespace Cornet

open Function

variable {ι κ β : Type*}

attribute [grind =] update_apply

/-- A function that is `default` off finitely many keys. -/
structure Family (κ β : Type*) [Inhabited β] where
  keys : Finset κ := ∅
  val : κ → β := fun _ => default
  val_of_notMem : ∀ k ∉ keys, val k = default := by intros; rfl

namespace Family

variable [Inhabited β] [DecidableEq κ] {F : Family κ β} {k j : κ} {b : β}

instance : CoeFun (Family κ β) fun _ => κ → β := ⟨val⟩

instance : Inhabited (Family κ β) := ⟨{}⟩

/-- Write one entry. -/
def set (F : Family κ β) (k : κ) (b : β) : Family κ β where
  keys := insert k F.keys
  val := Function.update F.val k b
  val_of_notMem j hj := by
    obtain ⟨hne, hj⟩ := not_or.mp (Finset.mem_insert.not.mp hj)
    rw [update_of_ne hne]
    exact F.val_of_notMem j hj

@[simp] theorem set_self (F : Family κ β) (k : κ) (b : β) : F.set k b k = b := update_self ..

theorem set_of_ne (F : Family κ β) (b : β) (h : j ≠ k) : F.set k b j = F j := update_of_ne h ..

@[grind =] theorem set_apply (F : Family κ β) (k : κ) (b : β) (j : κ) : F.set k b j = if j = k then
    b else F j :=
  update_apply ..

@[simp] theorem set_set (F : Family κ β) (k : κ) (b c : β) : (F.set k b).set k c = F.set k c := by
  simp [set]

/-- A property of all entries survives a write that has it. -/
theorem forall_set (P : κ → β → Prop) (h : ∀ j, P j (F j)) (hb : P k b) (j : κ) : P j
    (F.set k b j) := by
  rcases eq_or_ne j k with rfl | hne
  · rwa [set_self]
  · rw [set_of_ne F b hne]
    exact h j

/-- The total of a measure over all entries. -/
def sum (F : Family κ β) (f : β → ℕ) : ℕ := ∑ k ∈ F.keys, f (F k)

/-- **The ledger rule.**  A write replaces one summand. -/
theorem sum_set {f : β → ℕ} (hf : f default = 0) (F : Family κ β) (k : κ) (b : β) :
    (F.set k b).sum f + f (F k) = F.sum f + f b := by
  have hk := Finset.mem_insert_self k F.keys
  have hold : F.sum f = ∑ j ∈ insert k F.keys, f (F j) := by
    refine Finset.sum_subset (Finset.subset_insert k F.keys) fun j _ hj => ?_
    rw [F.val_of_notMem j hj, hf]
  have hrest : ∑ j ∈ (insert k F.keys).erase k, f (F.set k b j)
      = ∑ j ∈ (insert k F.keys).erase k, f (F j) :=
    Finset.sum_congr rfl fun j hj => by rw [set_of_ne F b (Finset.ne_of_mem_erase hj)]
  have hnew : (F.set k b).sum f = _ := (Finset.add_sum_erase _ (fun j => f (F.set k b j)) hk).symm
  rw [hnew, hold, ← Finset.add_sum_erase _ (fun j => f (F j)) hk, hrest, set_self]
  omega

/-- A write that keeps the measure keeps the total. -/
theorem sum_set_of_eq {f : β → ℕ} (hf : f default = 0) (h : f b = f (F k)) :
    (F.set k b).sum f = F.sum f := by
  have := sum_set hf F k b
  omega

/-- Each entry is at most the total. -/
theorem le_sum {f : β → ℕ} (hf : f default = 0) (F : Family κ β) (k : κ) : f (F k) ≤ F.sum f := by
  by_cases hk : k ∈ F.keys
  · exact Finset.single_le_sum (f := fun k => f (F k)) (fun _ _ => Nat.zero_le _) hk
  · rw [F.val_of_notMem k hk, hf]
    exact Nat.zero_le _

end Family

/-! ## The census -/

/-- How many individuals answer `k`. -/
noncomputable def census (f : ι → Option κ) (k : κ) : ℕ∞ := {i | f i = some k}.encard

variable {f g : ι → Option κ} {i : ι} {k : κ}

theorem census_congr (h : ∀ j, g j = some k ↔ f j = some k) : census g k = census f k :=
  congrArg Set.encard (Set.ext h)

/-- One individual starts to answer `k`. -/
theorem census_enter (h : ∀ j, j ≠ i → (g j = some k ↔ f j = some k)) (hf : f i ≠ some k)
    (hg : g i = some k) : census g k = census f k + 1 := by
  have hins : {j | g j = some k} = insert i {j | f j = some k} := by
    ext j
    rcases eq_or_ne j i with rfl | hne
    · simp [hg]
    · simp [hne, h j hne]
  rw [census, hins]
  exact Set.encard_insert_of_notMem hf

/-- One individual stops answering `k`. -/
theorem census_leave (h : ∀ j, j ≠ i → (g j = some k ↔ f j = some k)) (hf : f i = some k)
    (hg : g i ≠ some k) : census g k + 1 = census f k :=
  (census_enter (fun j hj => (h j hj).symm) hg hf).symm

/-- **The counter rule.**  A counter that follows one individual in and out stays the census. -/
theorem census_eq_of_write [DecidableEq κ] {m n : ℕ}
    (h : ∀ j, j ≠ i → (g j = some k ↔ f j = some k))
    (hn : census f k = n)
    (hm : m + (if f i = some k then 1 else 0) = n + (if g i = some k then 1 else 0)) : census g
      k = m := by
  by_cases hf : f i = some k <;> by_cases hg : g i = some k
  · rw [if_pos hf, if_pos hg] at hm
    obtain rfl : m = n := Nat.add_right_cancel hm
    refine (census_congr fun j => ?_).trans hn
    rcases eq_or_ne j i with rfl | hj
    · exact iff_of_true hg hf
    · exact h j hj
  · rw [if_pos hf, if_neg hg] at hm
    have hleave := census_leave h hf hg
    rw [hn, ← show m + 1 = n by omega, Nat.cast_add, Nat.cast_one] at hleave
    exact ENat.add_left_injective_of_ne_top ENat.one_ne_top hleave
  · rw [if_neg hf, if_pos hg] at hm
    rw [census_enter h hf hg, hn, show m = n + 1 by omega, Nat.cast_add, Nat.cast_one]
  · rw [if_neg hf, if_neg hg] at hm
    obtain rfl : m = n := hm
    refine (census_congr fun j => ?_).trans hn
    rcases eq_or_ne j i with rfl | hj
    · exact iff_of_false hg hf
    · exact h j hj

theorem census_ne_zero (h : f i = some k) : census f k ≠ 0 := by
  rw [census, Set.encard_ne_zero]
  exact ⟨i, h⟩

theorem census_none (h : ∀ j, f j ≠ some k) : census f k = 0 := by
  rw [census, Set.encard_eq_zero]
  exact Set.eq_empty_of_forall_notMem h

end Cornet
