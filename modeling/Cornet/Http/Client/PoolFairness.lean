import Cornet.Http.Client.PoolWakeups
import Cornet.Http.Client.PoolQueue

/-!
# Http/Client/PoolFairness — first come, first served, and one timeout

    grant ─▸ the front is served            slot ─▸ the front leaves, looks again, parks at the back

A waiter that is handed a connection is served in its turn.  A waiter that is handed a slot is not:
it leaves the queue, and by the time it runs a newcomer may have taken the room, so it parks again
behind everybody and with a new timer (`newcomer_overtakes`).  Room that nobody was woken for goes
to newcomers as well.  In a calm run, where no connection is closed while somebody waits and no
opening of a bucket with a waiter is given up, there are no slots and no such room: whoever parked
first is served first, and once its timeout has passed it has a connection or has failed for want of
one (`fair_of_calm`).
-/

namespace Cornet.Http.Client.Pool

open List

open scoped List

variable {κ : Type*}

section

variable {s : Pool κ} {t u w : ℕ} {k : κ}

theorem slots_update {f : ℕ → Acquire κ} {x : Acquire κ} (h : ∀ u, (f u).slot = none)
    (hx : x.slot = none)
    (u : ℕ) : (Function.update f t x u).slot = none := by
  rcases eq_or_ne u t with rfl | hut
  · rwa [Function.update_self]
  · rw [Function.update_of_ne hut]
    exact h u

/-- The earlier call `w` is parked and `u` is behind it or lost, or `w` has stopped waiting. -/
def Behind (s : Pool κ) (w u : ℕ) (k : κ) : Prop :=
  (s.task w).parked = some k ∧ ([w, u] <+ (s.buckets k).waiters ∨ (s.task u).lost) ∨ (s.task w).Past

/-- Who is behind a waiting call has no connection. -/
theorem Behind.owns_none (h : Behind s w u k) (hr : Roster s) (hw : (s.task w).waits = some k) :
    (s.task u).owns = none := by
  rcases h with ⟨-, hsub | hlost⟩ | hpast
  · rw [hr.waiting_of_mem (hsub.subset (mem_cons_of_mem _ mem_cons_self))]
    rfl
  · have hsound := hr.waiter u
    cases hu : s.task u with
    | waiting j v =>
      rw [hu] at hlost hsound
      rcases hsound with rfl | ⟨-, hg | he⟩
      · rfl
      · exact hg
      · rw [Acquire.lost, he] at hlost
        cases hlost
    | holding c r =>
      rw [hu] at hlost
      cases hlost
    | _ => rfl
  · rw [hpast.1] at hw
    cases hw

end

variable [DecidableEq κ] {opt : Options} {s s' : Pool κ} {a : Event κ} {as : List (Event κ)}
  {u w : ℕ} {k : κ}

/-- What a step must not do while somebody waits. -/
structure Calm (opt : Options) (s : Pool κ) (a : Event κ) : Prop where
  /-- no connection is closed -/
  closes : (s.after opt a).total < s.total → ∀ k, (s.buckets k).waiters = []
  /-- no opening of a bucket with a waiter is given up -/
  kept : ∀ t, a.aborts = some t → ∀ k, (s.task t).opens = some k → (s.buckets k).waiters = []

/-- What holds along a calm run. -/
structure Orderly (opt : Options) (s : Pool κ) : Prop where
  ledger : Ledger opt s
  roster : Roster s
  held : Held opt s
  slots : ∀ t, (s.task t).slot = none
  due : ∀ p ∈ s.timers, s.now ≤ p.2 ∧ p.2 ≤ s.now + opt.poolWaitTimeout
  armed : 0 < opt.poolWaitTimeout → ∀ t k, (s.task t).parked = some k → ∃ d, (t, d) ∈ s.timers

theorem Orderly.init : Orderly opt ({} : Pool κ) :=
  ⟨Ledger.init, Roster.init, fun _ hw => absurd rfl hw, fun _ => rfl, fun _ hp =>
    absurd hp not_mem_nil,
    fun _ _ _ => nofun⟩

/-- Slots are given only where a connection is closed. -/
theorem slots_move (hl : Ledger opt s) (hr : Roster s) (hm : Move opt s a s')
    (h : ∀ t, (s.task t).slot = none)
    (hclose : s'.total < s.total → ∀ k, (s.buckets k).waiters = []) : ∀ t,
      (s'.task t).slot = none := by
  cases hm with
  | reuse | opening | park | resolve | adopt | stray | close | shelve | fail | receive | leave =>
    exact slots_update h rfl
  | drop ha ht hx => exact slots_update h (Acquire.of_ended hx).2.2.1
  | @pass t c r _ _ w ws ht hc hw =>
    have hnil := hclose (Nat.sub_lt (hl.total_pos hc) Nat.one_pos) c.key
    rw [hw] at hnil
    cases hnil
  | grant ht hc hw =>
    refine slots_update (slots_update h ?_) rfl
    rw [hr.waiting_of_mem (hw ▸ mem_cons_self)]
    rfl
  | evict | tick => exact h
  | expire => exact slots_update h (by simp [Acquire.slot])

/-- Timers through one step: the clock moves past none of them, and a new one is due a timeout
later. -/
theorem due_move (hm : Move opt s a s')
    (h : ∀ p ∈ s.timers, s.now ≤ p.2 ∧ p.2 ≤ s.now + opt.poolWaitTimeout) :
    ∀ p ∈ s'.timers, s'.now ≤ p.2 ∧ p.2 ≤ s'.now + opt.poolWaitTimeout := by
  cases hm with
  | reuse he | opening he => exact fun p hp => h p (he.timers_subset hp)
  | park he =>
    intro p hp
    dsimp only at hp
    split at hp
    · rcases mem_cons.mp hp with rfl | hp
      · exact ⟨Nat.le_add_right _ _, le_rfl⟩
      · exact h p (he.timers_subset hp)
    · exact h p (he.timers_subset hp)
  | tick hd =>
    intro p hp
    exact ⟨hd p hp, (h p hp).2.trans (Nat.add_le_add_right (Nat.le_succ _) _)⟩
  | resolve | drop | adopt | stray | close | shelve | evict => exact h
  | pass | grant | expire | fail | receive | leave => exact fun p hp => h p (mem_of_mem_filter hp)

/-- A call that is parked after the step was parked before it, or has just armed its timer. -/
theorem armed_move (hl : Ledger opt s) (hr : Roster s) (hr' : Roster s') (hm : Move opt s a s')
    (h : ∀ t k, (s.task t).parked = some k → ∃ d, (t, d) ∈ s.timers)
      (hpos : 0 < opt.poolWaitTimeout) (t : ℕ)
    (k : κ) (ht : (s'.task t).parked = some k) : ∃ d, (t, d) ∈ s'.timers := by
  have hmem := (hr'.queue t k).mpr ht
  have hold : t ∈ (s.buckets k).waiters → ∃ d, (t, d) ∈ s'.timers := by
    intro hmem
    have hpark := (hr.queue t k).mp hmem
    obtain ⟨d, hd⟩ := h t k hpark
    rcases parks_move hl hr hm hpark with ⟨-, hkeep⟩ | hpast | ⟨-, hslot⟩
    · exact ⟨d, hkeep d hd⟩
    · rw [Acquire.Past, Acquire.waits_of_parked ht (hr'.waiter t)] at hpast
      exact absurd hpast.1.1 (by rintro ⟨⟩)
    · rw [Acquire.slot_of_parked ht] at hslot
      cases hslot
  cases requeue_move (k := k) hr hm with
  | same hq => exact hold (hq ▸ hmem)
  | back u hq harm =>
    rw [hq, mem_append, mem_singleton] at hmem
    rcases hmem with hmem | rfl
    · exact hold hmem
    · exact ⟨_, harm hpos⟩
  | front v hq => exact hold (hq ▸ mem_cons_of_mem _ hmem)
  | out u hq => exact hold (mem_of_mem_filter (hq ▸ hmem))

theorem Orderly.step (h : Orderly opt s) (hok : Calm opt s a) (hstep : step opt s a = some s') :
    Orderly opt s' := by
  have hm := step_move hstep
  have hafter : s.after opt a = s' := by rw [after, hstep, Option.getD_some]
  have hclose := hafter ▸ hok.closes
  have hr' := h.roster.move h.ledger hm
  refine ⟨h.ledger.move (fun _ _ => h.roster.opening_pos) hm, hr', ?_,
    slots_move h.ledger h.roster hm h.slots hclose, due_move hm h.due, fun hpos => ?_⟩
  · refine h.held.move h.ledger h.roster hm (fun hlt k hw => absurd (hclose hlt k) hw)
      fun t ht k hk => ?_
    rcases hk with ho | hslot
    · exact hok.kept t ht k ho
    · rw [h.slots t] at hslot
      cases hslot
  · exact armed_move h.ledger h.roster hr' hm (h.armed hpos) hpos

/-- A newcomer to a bucket with a waiter parks behind it. -/
theorem Orderly.newcomer {alive : Conn κ → Bool} (h : Orderly opt s)
    (hw : (s.task w).parked = some k)
    (hstep : Pool.step opt s (.acquire u k alive) = some s') :
    (s'.task w).parked = some k ∧ [w, u] <+ (s'.buckets k).waiters := by
  have hmem := (h.roster.queue w k).mpr hw
  have hne := ne_nil_of_mem hmem
  obtain ⟨hidle, hheld⟩ := h.held k hne
  have hwu : (s.task u).parked = none → w ≠ u := by
    rintro hu rfl
    rw [hw] at hu
    cases hu
  cases step_move hstep with
  | reuse he hi =>
    cases he
    rw [hidle] at hi
    exact absurd hi.symm (append_ne_nil_of_right_ne_nil _ (cons_ne_nil _ _))
  | opening he hhost htotal =>
    cases he
    rcases hheld with ⟨F, hF, hcard⟩ | htot
    · have hempty : F = ∅ := Finset.eq_empty_of_forall_notMem fun t ht => by
        have hslot := hF t ht
        rw [h.slots t] at hslot
        cases hslot
      rw [hempty, Finset.card_empty] at hcard
      omega
    · rw [hidle, length_nil] at htotal
      omega
  | park he =>
    have hwt := hwu
    cases he with
    | start ht =>
      refine ⟨?_, ?_⟩
      · dsimp only
        rwa [Function.update_of_ne (hwu (by rw [ht]; rfl))]
      · rw [Family.set_self]
        exact (singleton_sublist.mpr hmem).append (List.Sublist.refl [u])
  | drop ha => simp at ha

/-- A parked call keeps its place and its timer, or stops waiting. -/
theorem Orderly.parks (h : Orderly opt s) (hok : Calm opt s a) (hstep : Pool.step opt s a = some s')
    (hw : (s.task w).parked = some k) :
    (s'.task w = s.task w ∧ ∀ d, (w, d) ∈ s.timers → (w, d) ∈ s'.timers) ∨
      (s'.task w).Past ∧ ((s'.task w).quits = true ∨ (s'.task w).Answered) ∧ s'.now = s.now := by
  have hafter : s.after opt a = s' := by rw [after, hstep, Option.getD_some]
  rcases parks_move h.ledger h.roster (step_move hstep) hw with hstay | hpast | ⟨hlt, -⟩
  · exact .inl hstay
  · exact .inr hpast
  · have hmem := (h.roster.queue w k).mpr hw
    rw [hok.closes (hafter ▸ hlt) k] at hmem
    exact absurd hmem not_mem_nil

theorem Orderly.behind (h : Orderly opt s) (hok : Calm opt s a)
    (hstep : Pool.step opt s a = some s')
    (hb : Behind s w u k) : Behind s' w u k := by
  have hm := step_move hstep
  rcases hb with ⟨hw, hu⟩ | hpast
  · rcases h.parks hok hstep hw with ⟨hsame, -⟩ | ⟨hpast, -⟩
    · have hw' : (s'.task w).parked = some k := by rw [hsame, hw]
      refine .inl ⟨hw', ?_⟩
      rcases hu with hu | hlost
      · exact behind_of_requeue (requeue_move h.roster hm) hw' hu
      · exact .inr (lost_move h.roster hm hlost)
    · exact .inr hpast
  · exact .inr (past_move h.roster hm hpast)

theorem orderly_of_calm (h : Run (Pool.step opt) (Calm opt) {} as s) : Orderly opt s :=
  h.invariant Orderly.init fun ho hok hstep => ho.step hok hstep

/-- The call `w`, once it is woken, runs before the clock moves on. -/
def Prompt (w : ℕ) (s : Pool κ) : Event κ → Prop
  | .tick => (s.task w).woken = none
  | _ => True

instance (w : ℕ) (s : Pool κ) : ∀ a, Decidable (Prompt w s a)
  | .tick => inferInstanceAs (Decidable (_ = _))
  | .acquire .. | .resolved .. | .connected .. | .release .. | .idleExpired _ | .waitExpired _
  | .resume .. | .destroy _ => isTrue trivial

/-- Where a call that had the timer `d` stands: parked still, out of time and about to fail, or
answered. -/
def Timed (s : Pool κ) (w : ℕ) (k : κ) (d : ℕ) : Prop :=
  (s.task w).parked = some k ∧ (w, d) ∈ s.timers ∨ (s.task w).quits = true ∧ s.now ≤ d ∨
    (s.task w).Answered

theorem Orderly.timed {d : ℕ} (h : Orderly opt s) (hok : Calm opt s a) (hprompt : Prompt w s a)
    (hstep : Pool.step opt s a = some s') (ht : Timed s w k d) : Timed s' w k d := by
  have hm := step_move hstep
  rcases ht with ⟨hp, hd⟩ | ⟨hq, hd⟩ | hans
  · rcases h.parks hok hstep hp with ⟨hsame, hkeep⟩ | ⟨-, hq | hans, hnow⟩
    · exact .inl ⟨by rw [hsame, hp], hkeep d hd⟩
    · exact .inr (.inl ⟨hq, hnow ▸ (h.due _ hd).1⟩)
    · exact .inr (.inr hans)
  · have htick : a ≠ .tick := by
      rintro rfl
      exact Acquire.woken_of_quits hq hprompt
    rcases quits_move h.roster hm hq with hq | hans
    · exact .inr (.inl ⟨hq, (now_move hm htick).trans_le hd⟩)
    · exact .inr (.inr hans)
  · exact .inr (.inr (answered_move h.roster hm hans))

/-- **First come, first served, within one timeout.**  In a calm run, while `w` waits for a bucket
no call that starts on it later gets a connection, and `w` does not wait longer than the timeout.
If it runs promptly when it is woken, it is answered by then: it has got a connection, was
destroyed, or has failed because the pool is exhausted. -/
theorem fair_of_calm {as₁ : List (Event κ)} {s₁ : Pool κ}
    (h₁ : Run (Pool.step opt) (Calm opt) {} as₁ s₁) (hw : (s₁.task w).waits = some k) :
    (∀ {as₂ s₂}, Run (Pool.step opt) (Calm opt) s₁ as₂ s₂ → (s₂.task w).waits = some k →
      (∀ u alive as, as₂ = .acquire u k alive :: as → (s₂.task u).owns = none) ∧
        (0 < opt.poolWaitTimeout → s₂.now ≤ s₁.now + opt.poolWaitTimeout)) ∧
    (∀ {as₂ s₂}, Run (Pool.step opt) (fun s a => Calm opt s a ∧ Prompt w s a) s₁ as₂ s₂ →
      0 < opt.poolWaitTimeout → s₁.now + opt.poolWaitTimeout < s₂.now → (s₂.task w).Answered) := by
  have ho := orderly_of_calm h₁
  have hpark := Acquire.parked_of_waits hw (ho.slots w)
  refine ⟨fun {as₂ s₂} h₂ hw' => ⟨?_, fun hpos => ?_⟩, fun {as₂ s₂} h₂ hpos hlate => ?_⟩
  · rintro u alive as rfl
    obtain ⟨s, hok, hstep, hrun⟩ := h₂.of_cons
    have hbehind : Behind s w u k := by
      obtain ⟨hwk, hsub⟩ := ho.newcomer hpark hstep
      exact .inl ⟨hwk, .inl hsub⟩
    obtain ⟨ho', hb⟩ := hrun.invariant (I := fun s => Orderly opt s ∧ Behind s w u k)
      ⟨ho.step hok hstep, hbehind⟩ fun ⟨ho, hb⟩ hok hstep =>
        ⟨ho.step hok hstep, ho.behind hok hstep hb⟩
    exact hb.owns_none ho'.roster hw'
  · obtain ⟨d, hd⟩ := ho.armed hpos w k hpark
    -- the timer that `w` has now is the one it has as long as it waits
    obtain ⟨ho', hstay⟩ := h₂.invariant
      (I := fun s => Orderly opt s ∧ ((s.task w).parked = some k ∧ (w, d) ∈ s.timers ∨
        (s.task w).Past))
      ⟨ho, .inl ⟨hpark, hd⟩⟩ fun {s a t} ⟨ho, hstay⟩ hok hstep => by
        refine ⟨ho.step hok hstep, ?_⟩
        rcases hstay with ⟨hp, hd⟩ | hpast
        · rcases ho.parks hok hstep hp with ⟨hsame, hkeep⟩ | ⟨hpast, -⟩
          · exact .inl ⟨by rw [hsame, hp], hkeep d hd⟩
          · exact .inr hpast
        · exact .inr (past_move ho.roster (step_move hstep) hpast)
    rcases hstay with ⟨-, hd'⟩ | hpast
    · exact (ho'.due _ hd').1.trans (ho.due _ hd).2
    · rw [hpast.1] at hw'
      cases hw'
  · obtain ⟨d, hd⟩ := ho.armed hpos w k hpark
    obtain ⟨ho', htimed⟩ := h₂.invariant (I := fun s => Orderly opt s ∧ Timed s w k d)
      ⟨ho, .inl ⟨hpark, hd⟩⟩ fun ⟨ho, ht⟩ hok hstep =>
        ⟨ho.step hok.1 hstep, ho.timed hok.1 hok.2 hstep ht⟩
    have hbound := (ho.due _ hd).2
    dsimp only at hbound
    rcases htimed with ⟨-, hd'⟩ | ⟨-, hd'⟩ | hans
    · have := (ho'.due _ hd').1
      dsimp only at this
      omega
    · omega
    · exact hans

/-- A step that closes nothing and gives nothing up is calm. -/
theorem calm_of_quiet (h : ¬ (s.after opt a).total < s.total ∧ a.aborts = none) : Calm opt s a :=
  ⟨fun hlt => absurd hlt h.1, fun t ht => by rw [h.2] at ht; cases ht⟩

/-- One connection in all, three ticks to wait for it. -/
def patientPool : Options := ⟨1, 1, 1, 3⟩

/-- A third call starts behind a parked one. -/
def thirdInLine : List (Event Bool) := [.acquire 2 true fun _ => true, .tick]

/-- The parked call runs out of time and is resumed, and the clock moves on. -/
def runsOut : List (Event Bool) :=
  [.tick, .tick, .tick, .waitExpired 1, .resume 1 fun _ => true, .tick]

theorem fair_of_calm_thirdInLine : ∃ s₁ s₂ s₃,
    Run (Pool.step patientPool) (Calm patientPool) {} parkedBehind s₁ ∧
    Run (Pool.step patientPool) (Calm patientPool) s₁ thirdInLine s₂ ∧
      (s₂.task 1).waits = some true ∧
    (∀ u alive as, thirdInLine = .acquire u true alive :: as → (s₂.task u).owns = none) ∧
    (0 < patientPool.poolWaitTimeout → s₂.now ≤ s₁.now + patientPool.poolWaitTimeout) ∧
    Run (Pool.step patientPool) (fun s a => Calm patientPool s a ∧ Prompt 1 s a) s₁ runsOut s₃ ∧
    (s₃.task 1).Answered := by
  have hend : ∃ s₁ ∈ exec (Pool.step patientPool)
      (fun s a => ¬ (s.after patientPool a).total < s.total ∧ a.aborts = none) {} parkedBehind,
      ∃ s₂ ∈ exec (Pool.step patientPool)
        (fun s a => ¬ (s.after patientPool a).total < s.total ∧ a.aborts = none) s₁ thirdInLine,
      ∃ s₃ ∈ exec (Pool.step patientPool) (fun s a => (¬ (s.after patientPool a).total < s.total ∧
        a.aborts = none) ∧ Prompt 1 s a) s₁ runsOut,
        (s₁.task 1).waits = some true ∧ (s₂.task 1).waits = some true ∧
          s₁.now + patientPool.poolWaitTimeout < s₃.now := by decide +kernel
  obtain ⟨s₁, hs₁, s₂, hs₂, s₃, hs₃, hw₁, hw₂, hlate⟩ := hend
  have hrun₁ := (Run.of_exec hs₁).mono fun _ _ => calm_of_quiet
  have hrun₂ := (Run.of_exec hs₂).mono fun _ _ => calm_of_quiet
  have hrun₃ := (Run.of_exec hs₃).mono fun _ _ => And.imp_left calm_of_quiet
  obtain ⟨hfair, hanswer⟩ := fair_of_calm hrun₁ hw₁
  obtain ⟨hfirst, hbound⟩ := hfair hrun₂ hw₂
  exact ⟨s₁, s₂, s₃, hrun₁, hrun₂, hw₂, hfirst, hbound, hrun₃, hanswer hrun₃ (by decide) hlate⟩

/-- Two ticks later the first call hands its connection back broken: the second is woken with a
slot. -/
def brokenRelease : List (Event Bool) := [.tick, .tick, .release 0 false true]

/-- A third call starts before the second runs and takes the room; the second parks again. -/
def overtaking : List (Event Bool) :=
  [.acquire 2 true fun _ => true, .resume 1 fun _ => true, .resolved 2 true, .connected 2 true,
    .tick, .tick]

/-- **A newcomer overtakes**: the third call has a connection, the second still waits, and it has
waited longer than the timeout. -/
theorem newcomer_overtakes : ∃ s₁ s s₂,
    Run (Pool.step patientPool) (fun _ _ => True) {} parkedBehind s₁ ∧
    Run (Pool.step patientPool) (fun _ _ => True) s₁ brokenRelease s ∧
    Run (Pool.step patientPool) (fun _ _ => True) s overtaking s₂ ∧
    (s₁.task 1).waits = some true ∧ (s.task 1).waits = some true ∧ (s₂.task 1).waits = some true ∧
    (s₂.task 2).owns ≠ none ∧ ¬ s₂.now ≤ s₁.now + patientPool.poolWaitTimeout := by
  have hend : ∃ s₁ ∈ exec (Pool.step patientPool) (fun _ _ => True) {} parkedBehind,
      ∃ s ∈ exec (Pool.step patientPool) (fun _ _ => True) s₁ brokenRelease,
      ∃ s₂ ∈ exec (Pool.step patientPool) (fun _ _ => True) s overtaking,
        (s₁.task 1).waits = some true ∧ (s.task 1).waits = some true ∧
          (s₂.task 1).waits = some true ∧
        (s₂.task 2).owns ≠ none ∧ ¬ s₂.now ≤ s₁.now + patientPool.poolWaitTimeout :=
          by decide +kernel
  obtain ⟨s₁, hs₁, s, hs, s₂, hs₂, hend⟩ := hend
  exact ⟨s₁, s, s₂, .of_exec hs₁, .of_exec hs, .of_exec hs₂, hend⟩

end Cornet.Http.Client.Pool
