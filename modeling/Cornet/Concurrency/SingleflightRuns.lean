import Cornet.Concurrency.SingleflightFlights

/-!
# Concurrency/SingleflightRuns — every follower gets what its leader got

    leader:    err := e   ──▸   follower:   err.code ≠ 0 ?  e  :  result

What a follower reads is what the leader left, unless that was an error with code zero: a follower
looks at the code, and takes the error for a value, with a null pointer in it.
-/

namespace Cornet.Singleflight

open Family

variable {κ φ ω ρ : Type*} [DecidableEq κ] [DecidableEq φ] [DecidableEq ω] {s t : Group κ φ ω ρ}
  {f : φ} {w : ω}

/-! ## What the followers get -/

section

omit [DecidableEq κ] [DecidableEq φ] [DecidableEq ω]

/-- **What a follower reads**: the outcome, unless that is an error with code zero. -/
theorem Flight.awaitResume_eq_iff {e : Flight κ ω ρ} (h : e.Told) (hdone : e.done = true) :
    e.outcome = some e.awaitResume ↔ ∀ err, e.outcome = some (.error err) → err.code ≠ 0 := by
  unfold Flight.Told at h
  split at h
  next hout => simp [hdone] at h
  next v hout =>
    obtain ⟨_, hresult, herr⟩ := h
    simp [hout, Flight.awaitResume, herr, hresult]
  next err hout =>
    obtain ⟨_, hresult, herr⟩ := h
    by_cases hcode : err.code = 0 <;> simp [hout, Flight.awaitResume, herr, hcode]

/-- Outcomes stay, and so does what was read. -/
theorem Shared.keep (h : Shared s)
    (hout : ∀ f r, (s.flights f).outcome = some r → (t.flights f).outcome = some r)
    (hcaller : ∀ u, (t.callers u).joined = none ∨ (t.callers u).got = none ∨
      (t.callers u).joined = (s.callers u).joined ∧ (t.callers u).got = (s.callers u).got) : Shared
        t := by
  intro u f r hjoined hgot
  rcases hcaller u with hu | hu | ⟨hj, hg⟩
  · cases hu.symm.trans hjoined
  · cases hu.symm.trans hgot
  · exact hout f r (h u f r (hj ▸ hjoined) (hg ▸ hgot))

end

omit [DecidableEq κ] in
theorem Shared.follow (h : Shared s) : Shared (s.follow w f) := by
  refine h.keep (fun g r hr => ?_) fun u => ?_
  · simp only [Group.follow, Group.putFlight, Group.putCaller, set_apply]
    split_ifs with hg
    · exact hg ▸ hr
    · exact hr
  · simp only [Group.follow, Group.putFlight, Group.putCaller, set_apply]
    split_ifs
    · exact .inr (.inl rfl)
    · exact .inr (.inr ⟨rfl, rfl⟩)

theorem Shared.lead {k : κ} (h : Shared s) (hs : Ok s) (hfresh : (s.flights f).key = none) :
    Shared (s.lead w k f) := by
  refine h.keep (fun g r hr => ?_) fun u => ?_
  · have hne : g ≠ f := fun hg => by
      rw [hg, (hs.flight f).blank hfresh] at hr
      cases hr
    exact (congrArg Flight.outcome (set_of_ne _ _ hne)).trans hr
  · simp only [Group.lead, Group.putFlight, Group.putCaller, set_apply]
    split_ifs
    · exact .inl rfl
    · exact .inr (.inr ⟨rfl, rfl⟩)

/-- Nobody has read anything of a flight when its leader ends. -/
theorem Shared.leaderFinish (h : Shared s) (hs : Ok s) (hrole : (s.callers w).role = .leading f)
    {g : Flight κ ω ρ → Flight κ ω ρ} {c : Caller φ ρ → Caller φ ρ}
      (hc : ∀ e, (c e).joined = e.joined) :
    Shared (((s.putFlight f g).leaderFinish f).putCaller w c) := by
  obtain ⟨k, _, hfly⟩ := hs.leads w f hrole
  have hnone : (s.flights f).outcome = none := by
    have htold := (hs.flight f).told
    unfold Flight.Told at htold
    split at htold
    · assumption
    all_goals exact absurd htold.1 (by simp [(hs.flying k f hfly).2])
  refine h.keep (fun j r hr => ?_) fun u => ?_
  · have hne : j ≠ f := fun hj => by
      rw [hj, hnone] at hr
      cases hr
    show (((s.putFlight f g).leaderFinish f).flights j).outcome = some r
    rw [leaderFinish_flights, set_of_ne _ _ hne]
    exact (congrArg Flight.outcome (set_of_ne _ _ hne)).trans hr
  · simp only [Group.putCaller, set_apply]
    split_ifs with hu
    · refine .inl ?_
      rw [hc, leaderFinish_callers]
      split_ifs <;> exact (hs.caller w).aloof f (.inl hrole)
    · refine .inr (.inr ?_)
      rw [leaderFinish_callers]
      split_ifs <;> exact ⟨rfl, rfl⟩

omit [DecidableEq κ] [DecidableEq ω] in
theorem releaseWaiter_outcome (s : Group κ φ ω ρ) (f j : φ) :
    ((s.releaseWaiter f).flights j).outcome = (s.flights j).outcome := by
  simp only [Group.releaseWaiter, Group.putFlight, set_apply]
  split_ifs with hj <;> simp [*]

omit [DecidableEq κ] in
theorem Shared.drop (h : Shared s) : Shared (s.drop w f) := by
  refine h.keep (fun j r hr => ?_) fun u => .inr (.inr ?_)
  · rw [Group.drop, releaseWaiter_outcome]
    simp only [Group.putCaller, Group.putFlight, set_apply]
    split_ifs with hj
    · exact hj ▸ hr
    · exact hr
  · simp only [Group.drop, Group.releaseWaiter, Group.putCaller, Group.putFlight, set_apply]
    split_ifs with hu
    · exact hu ▸ ⟨rfl, rfl⟩
    · exact ⟨rfl, rfl⟩

omit [DecidableEq κ] in
/-- **Reading.** -/
theorem shared_resume_iff (h : Shared s) (hs : Ok s) (hrole : (s.callers w).role = .woken f) :
    Shared (s.resume w f) ↔ (s.flights f).outcome = some (s.flights f).awaitResume := by
  have hjoined := ((hs.caller w).joined f (.inr hrole)).1
  have hcaller (u : ω) : (s.resume w f).callers u = if u = w then
      { s.callers w with role := .over, got := some (s.flights f).awaitResume } else s.callers u :=
    set_apply ..
  have hout (j : φ) : ((s.resume w f).flights j).outcome = (s.flights j).outcome :=
    releaseWaiter_outcome ..
  refine ⟨fun hshared => ?_, fun hread u j r => ?_⟩
  · rw [← hout]
    exact hshared w f _ (by rw [hcaller, if_pos rfl]; exact hjoined) (by rw [hcaller, if_pos rfl])
  · rw [hout, hcaller]
    split_ifs with hu
    · intro hj hgot
      cases hjoined.symm.trans hj
      cases hgot
      exact hread
    · exact h u j r

/-! ## Runs -/

/-- What one step does to what was read. -/
theorem Shared.step_iff (h : Shared s) (hs : Ok s) {a : Act κ φ ω ρ} (hstep : step s a = some t) :
    Shared t ↔ Coded s a := by
  cases a with
  | run w k f =>
    obtain ⟨⟨hrole, hfresh⟩, hstep⟩ := Option.ite_none_right_eq_some.mp hstep
    cases hstep
    refine iff_of_true ?_ trivial
    unfold Group.run
    cases hfly : s.inFlight k with
    | some f' => exact h.follow
    | none => exact h.lead hs hfresh
  | complete | kill =>
    simp only [Singleflight.step] at hstep
    split at hstep <;> cases hstep
    exact iff_of_true (h.leaderFinish hs ‹_› fun _ => rfl) trivial
  | resume w =>
    simp only [Singleflight.step] at hstep
    split at hstep <;> cases hstep
    next f hrole =>
    rw [shared_resume_iff h hs hrole, Flight.awaitResume_eq_iff (hs.flight f).told
      (hs.woke w f hrole)]
    simp only [Coded, hrole]
    cases hout : (s.flights f).outcome with
    | none => simp
    | some r => cases r <;> simp
  | drop w =>
    simp only [Singleflight.step] at hstep
    split at hstep <;> cases hstep
    all_goals exact iff_of_true h.drop trivial

/-- Two followers of a leader that is destroyed: one reads that, the other is destroyed after it was
scheduled.  Meanwhile a second flight for the key is on its way; its follower gives up before it
lands. -/
def ownerDeadWord : List (Act ℕ ℕ ℕ ℕ) :=
  [.run 0 5 0, .run 1 5 100, .run 2 5 101, .kill 0, .run 3 5 1, .resume 1, .run 4 5 102, .drop 2,
    .drop 4,
    .complete 3 (.ok (some 42))]

end Cornet.Singleflight
