import Mathlib.Tactic

/-!
# Machinery/Run — labelled step functions, guarded runs, and the invariant rule

    s₀ ──a₁──▸ s₁ ──a₂──▸ ⋯ ──aₙ──▸ sₙ        every `aᵢ` allowed by `ok` in the state it is taken in

A system is a partial function `step : σ → α → Option σ`; the label names who moves and what the
environment answered, so a word of labels determines its run.  `Run step ok s₀` collects the words
whose every step meets a condition `ok` on the state it is taken in; `Run.invariant` is the one
induction every safety statement about a run goes through.  Where `ok` is decidable, `exec` computes
the state a word leads to (`Run.of_exec`).  A system that keeps a log of what it did is judged by
`Throughout`.
-/

namespace Cornet

open List

variable {σ α : Type*} {step : σ → α → Option σ} {ok : σ → α → Prop} {s₀ s t : σ} {a : α}
  {as : List α}

/-- The runs from `s₀` all of whose steps meet `ok`, with the word they spell. -/
inductive Run (step : σ → α → Option σ) (ok : σ → α → Prop) (s₀ : σ) : List α → σ → Prop
  | nil : Run step ok s₀ [] s₀
  | snoc {as : List α} {s t : σ} {a : α} :
      Run step ok s₀ as s → ok s a → step s a = some t → Run step ok s₀ (as ++ [a]) t

/-- **The invariant rule.**  What holds at the start and survives every allowed step holds along the
whole run. -/
theorem Run.invariant {I : σ → Prop} (h₀ : I s₀)
    (hstep : ∀ {s a t}, I s → ok s a → step s a = some t → I t)
    (h : Run step ok s₀ as s) : I s := by
  induction h with
  | nil => exact h₀
  | snoc _ hok hst ih => exact hstep ih hok hst

theorem Run.cons (hok : ok s₀ a) (hst : step s₀ a = some s) (h : Run step ok s as t) :
    Run step ok s₀ (a :: as) t := by
  induction h with
  | nil => exact Run.nil.snoc hok hst
  | snoc _ hok' hst' ih => exact Run.snoc ih hok' hst'

theorem Run.eq_of_nil (h : Run step ok s₀ [] s) : s = s₀ := by
  generalize hword : ([] : List α) = as at h
  cases h with
  | nil => rfl
  | snoc => exact absurd hword.symm (append_ne_nil_of_right_ne_nil _ (cons_ne_nil _ _))

/-- The first step of a run. -/
theorem Run.of_cons (h : Run step ok s₀ (a :: as) t) :
    ∃ s, ok s₀ a ∧ step s₀ a = some s ∧ Run step ok s as t := by
  generalize hword : a :: as = bs at h
  induction h generalizing as with
  | nil => cases hword
  | @snoc bs s t b hrun hok hst ih =>
    cases bs with
    | nil =>
      obtain ⟨rfl, rfl⟩ : a = b ∧ as = [] := by simpa using hword
      obtain rfl := hrun.eq_of_nil
      exact ⟨t, hok, hst, .nil⟩
    | cons c cs =>
      obtain ⟨rfl, rfl⟩ : a = c ∧ as = cs ++ [b] := by simpa using hword
      obtain ⟨r, hr, hrs, hrun⟩ := ih rfl
      exact ⟨r, hr, hrs, hrun.snoc hok hst⟩

/-- A run that meets a condition meets a weaker one. -/
theorem Run.mono {ok' : σ → α → Prop} (hmono : ∀ s a, ok s a → ok' s a) (h : Run step ok s₀ as s) :
    Run step ok' s₀ as s := by
  induction h with
  | nil => exact .nil
  | snoc _ hok hst ih => exact .snoc ih (hmono _ _ hok) hst

/-- The state a word of labels leads to, if every step is enabled and allowed. -/
def exec (step : σ → α → Option σ) (ok : σ → α → Prop) [∀ s a, Decidable (ok s a)] :
    σ → List α → Option σ
  | s, [] => some s
  | s, a :: as => if ok s a then (step s a).bind fun t => exec step ok t as else none

/-- A word that executes is a run; this is how a concrete run is exhibited. -/
theorem Run.of_exec [∀ s a, Decidable (ok s a)] : ∀ {as : List α} {s₀ : σ},
    exec step ok s₀ as = some t → Run step ok s₀ as t
  | [], _, h => by
      obtain rfl : _ = t := Option.some.inj h
      exact Run.nil
  | a :: as, s₀, h => by
      rw [exec] at h
      split at h
      · obtain ⟨s, hs, hrest⟩ := Option.bind_eq_some_iff.mp h
        exact Run.cons ‹_› hs (Run.of_exec hrest)
      · cases h

/-- What the state a word leads to can be computed to be, the end of a run is. -/
theorem Run.exists_of_mem [∀ s a, Decidable (ok s a)] {P : σ → Prop}
    (h : ∃ s ∈ exec step ok s₀ as, P s) :
    ∃ s, Run step ok s₀ as s ∧ P s := by
  obtain ⟨s, hs, hP⟩ := h
  exact ⟨s, Run.of_exec hs, hP⟩

/-- With what holds at the end of every run that spells the word. -/
theorem Run.exists_and_of_mem [∀ s a, Decidable (ok s a)] {P Q : σ → Prop}
    (hQ : ∀ {s}, Run step ok s₀ as s → Q s) (h : ∃ s ∈ exec step ok s₀ as, P s) :
    ∃ s, Run step ok s₀ as s ∧ Q s ∧ P s := by
  obtain ⟨s, hs, hP⟩ := Run.exists_of_mem h
  exact ⟨s, hs, hQ hs, hP⟩

/-! ## Traces: what every entry of a log may assume of the entries before it -/

variable {ε : Type*} {P : List ε → ε → Prop} {log : List ε} {e : ε}

/-- Every entry stands in the relation `P` to what was logged before it. -/
def Throughout (P : List ε → ε → Prop) (log : List ε) : Prop :=
  ∀ before e after, log = before ++ e :: after → P before e

theorem throughout_nil : Throughout P [] := fun before e after h => by simp at h

theorem Throughout.snoc (h : Throughout P log) (he : P log e) : Throughout P (log ++ [e]) := by
  intro before d after hlog
  rcases eq_nil_or_concat after with rfl | ⟨after', d', rfl⟩
  · obtain ⟨rfl, rfl⟩ : log = before ∧ e = d := by simpa using hlog
    exact he
  · have hlog' : log ++ [e] = (before ++ d :: after') ++ [d'] := by simpa using hlog
    obtain ⟨rfl, -⟩ := append_inj' hlog' rfl
    exact h before d after' rfl

theorem throughout_snoc : Throughout P (log ++ [e]) ↔ Throughout P log ∧ P log e := by
  refine ⟨fun h => ⟨fun before d after hlog => h before d (after ++ [e]) ?_, h log e [] rfl⟩,
    fun h => h.1.snoc h.2⟩
  rw [hlog, append_assoc, cons_append]

end Cornet
