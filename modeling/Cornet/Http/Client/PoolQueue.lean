import Cornet.Http.Client.PoolRoster

/-!
# Http/Client/PoolQueue — one call, and its queue, through one step

    queue of k:   v w … u        back: u parks      front: v is chosen      out: w gives up

What a step can do to a call that is parked (`parks_move`) and to the queue of a bucket
(`requeue_move`): a queue grows at its back, loses its front to a release, or loses a call that will
not come back.  So whoever is behind a parked call stays behind it (`behind_of_requeue`).
-/

namespace Cornet.Http.Client

open List Function Acquire

open scoped List

variable {κ : Type*}

namespace Acquire

/-- The bucket this call still waits for: parked, or woken with nothing but a slot. -/
def waits : Acquire κ → Option κ
  | .waiting k v => if v.granted.isSome ∨ v.expired then none else some k
  | _ => none

/-- The call has waited and is not waiting any more, or never will. -/
def Past (x : Acquire κ) : Prop := x.waits = none ∧ x ≠ .fresh

/-- The time is up: the call is scheduled and will fail. -/
def quits : Acquire κ → Bool
  | .waiting _ v => v.expired && v.wakes != 0
  | _ => false

/-- The call has its connection or has handed it back, was destroyed, or has failed for want of
one. -/
def Answered (x : Acquire κ) : Prop :=
  x.owns ≠ none ∨ x = .released ∨ x = .destroyed ∨ x = .failed .poolExhausted

/-- The call will get no connection any more. -/
def lost : Acquire κ → Bool
  | .waiting _ v => v.expired
  | .failed _ => true
  | .released => true
  | .destroyed => true
  | _ => false

variable {f : ℕ → Acquire κ} {t w : ℕ} {k : κ} {x : Acquire κ}

theorem waits_of_parked (h : x.parked = some k) (hx : x.Sound) : x.waits = some k := by
  cases x with
  | waiting j v =>
    simp only [parked] at h
    split at h
    · rename_i hv
      rcases hx with rfl | ⟨hone, -⟩
      · exact h
      · omega
    · cases h
  | _ => cases h

theorem parked_of_waits (h : x.waits = some k) (hslot : x.slot = none) : x.parked = some k := by
  cases x with
  | waiting j v =>
    simp only [waits] at h
    split at h
    · cases h
    · rename_i hv
      simp only [slot] at hslot
      split at hslot
      · rename_i hw
        rw [parked, if_pos (hw.resolve_right hv)]
        exact h
      · cases hslot
  | _ => cases h

theorem past_of_ended (h : x.ended) : x.Past := by
  cases x <;> simp_all [ended, Past, waits]

theorem lost_of_ended (h : x.ended) : x.lost := by
  cases x <;> simp_all [ended, lost]

theorem past_update (h : (f w).Past) (hx : w = t → x.Past) : (Function.update f t x w).Past := by
  rcases eq_or_ne w t with hwt | hwt
  · rw [hwt, update_self]
    exact hx hwt
  · rwa [update_of_ne hwt]

theorem lost_update (h : (f w).lost) (hx : w = t → x.lost) : (Function.update f t x w).lost := by
  rcases eq_or_ne w t with hwt | hwt
  · rw [hwt, update_self]
    exact hx hwt
  · rwa [update_of_ne hwt]

theorem quits_update (h : (f w).quits = true) (hx : w = t → x.quits = true ∨ x.Answered) :
    (Function.update f t x w).quits = true ∨ (Function.update f t x w).Answered := by
  rcases eq_or_ne w t with hwt | hwt
  · rw [hwt, update_self]
    exact hx hwt
  · rw [update_of_ne hwt]
    exact .inl h

theorem answered_update (h : (f w).Answered) (hx : w = t → x.Answered) :
    (Function.update f t x w).Answered := by
  rcases eq_or_ne w t with hwt | hwt
  · rw [hwt, update_self]
    exact hx hwt
  · rwa [update_of_ne hwt]

theorem woken_of_quits (h : x.quits = true) : x.woken ≠ none := by
  cases x <;> simp_all [quits, woken]

theorem not_answered_of_opens (h : x.opens = some k) : ¬ x.Answered := by
  cases x <;> simp_all [opens, Answered, owns]

end Acquire

namespace Pool

section

variable {opt : Options} {s s' : Pool κ} {a : Event κ} {t u w d : ℕ} {k : κ} {T : List (ℕ × ℕ)}

theorem Enters.not_past (he : Enters s a t k T) : ¬ (s.task t).Past := by
  cases he with
  | start ht => exact fun h => h.2 ht
  | again ht hv hg he => exact fun h => by simpa [ht, Acquire.waits, hg, he] using h.1

theorem Enters.not_lost (he : Enters s a t k T) : ¬ (s.task t).lost := by
  cases he with
  | start ht => simp [ht, Acquire.lost]
  | again ht hv hg he => simp [ht, Acquire.lost, he]

theorem Enters.not_answered (he : Enters s a t k T) : ¬ (s.task t).Answered := by
  cases he with
  | start ht => simp [ht, Acquire.Answered, Acquire.owns]
  | again ht hv hg he => simp [ht, Acquire.Answered, Acquire.owns, hg]

theorem Enters.not_quits (he : Enters s a t k T) : (s.task t).quits = false := by
  cases he with
  | start ht => rw [ht]; rfl
  | again ht hv hg he => simp [ht, Acquire.quits, he]

theorem Enters.mem_timers (he : Enters s a t k T) {p : ℕ × ℕ} (hp : p ∈ s.timers)
    (ht : p.1 ≠ t) : p ∈ T := by
  cases he with
  | start => exact hp
  | again => exact mem_filter.mpr ⟨hp, by simpa using ht⟩

/-- A parked call in the step: it stays as it is with its timer, it stops waiting, with an answer or
to fail at once, or it gets a slot because a connection was closed. -/
def Parks (s s' : Pool κ) (w : ℕ) (k : κ) : Prop :=
  (s'.task w = s.task w ∧ ∀ d, (w, d) ∈ s.timers → (w, d) ∈ s'.timers) ∨
    ((s'.task w).Past ∧ ((s'.task w).quits = true ∨ (s'.task w).Answered) ∧ s'.now = s.now) ∨
    s'.total < s.total ∧ (s'.task w).slot = some k

/-- Steps of other calls leave a parked call alone. -/
theorem Parks.of_ne {x : Acquire κ} (hwt : w ≠ t) (htask : s'.task = Function.update s.task t x)
    (htimer : ∀ d, (w, d) ∈ s.timers → (w, d) ∈ s'.timers) : Parks s s' w k :=
  .inl ⟨by rw [htask, update_of_ne hwt], htimer⟩

theorem mem_timers_filter (hwt : w ≠ t) (h : (w, d) ∈ s.timers) : (w, d) ∈ s.timers.filter
    (·.1 ≠ t) :=
  mem_filter.mpr ⟨h, by simpa using hwt⟩

/-- What a step does to the queue of a bucket. -/
inductive Requeue (opt : Options) (s s' : Pool κ) (k : κ) : Prop
  | same (h : (s'.buckets k).waiters = (s.buckets k).waiters)
  /-- somebody parks, with a fresh timer -/
  | back (t : ℕ) (h : (s'.buckets k).waiters = (s.buckets k).waiters ++ [t])
      (ht : 0 < opt.poolWaitTimeout → (t, s.now + opt.poolWaitTimeout) ∈ s'.timers)
  /-- the front is chosen -/
  | front (v : ℕ) (h : (s.buckets k).waiters = v :: (s'.buckets k).waiters)
      (hv : (s'.task v).parked = none)
  /-- somebody gives up -/
  | out (t : ℕ) (h : (s'.buckets k).waiters = (s.buckets k).waiters.filter (· ≠ t))
      (ht : (s'.task t).lost) (hp : (s'.task t).parked = none)

/-- Who is queued behind a call that stays parked stays behind it, or gives up. -/
theorem behind_of_requeue (hq : Requeue opt s s' k) (hw : (s'.task w).parked = some k)
    (hb : [w, u] <+ (s.buckets k).waiters) :
    [w, u] <+ (s'.buckets k).waiters ∨ (s'.task u).lost := by
  cases hq with
  | same h => exact .inl (h ▸ hb)
  | back t h ht => exact .inl (h ▸ hb.trans (sublist_append_left _ _))
  | front v h hv =>
    have hwv : w ≠ v := by
      rintro rfl
      rw [hv] at hw
      cases hw
    rw [h] at hb
    cases hb with
    | cons _ hb => exact .inl hb
    | cons_cons _ hb => exact absurd rfl hwv
  | out t h ht hp =>
    have hwt : w ≠ t := by
      rintro rfl
      rw [hp] at hw
      cases hw
    rcases eq_or_ne u t with rfl | hut
    · exact .inr ht
    · left
      rw [h]
      have := hb.filter (· ≠ t)
      simpa [hwt, hut] using this

end

variable [DecidableEq κ] {opt : Options} {s s' : Pool κ} {a : Event κ} {as : List (Event κ)}
  {t u w d : ℕ} {k : κ}

/-! ## One call through one step -/

/-- Who has stopped waiting does not start again. -/
theorem past_move (hr : Roster s) (hm : Move opt s a s')
    (h : (s.task w).Past) : (s'.task w).Past := by
  cases hm with
  | reuse | opening | resolve | adopt | stray | close | shelve | fail | receive | leave =>
    exact past_update h fun _ => ⟨rfl, nofun⟩
  | park he => exact past_update h fun hw => absurd (hw ▸ h) he.not_past
  | drop ha ht hx => exact past_update h fun _ => past_of_ended hx
  | pass ht hc hw =>
    refine past_update (past_update h fun hww => ?_) fun _ => ⟨rfl, nofun⟩
    rw [hww, hr.waiting_of_mem (hw ▸ mem_cons_self)] at h
    exact absurd h.1 nofun
  | grant ht hc hw =>
    refine past_update (past_update h fun hww => ?_) fun _ => ⟨rfl, nofun⟩
    rw [hr.waiting_of_mem (hw ▸ mem_cons_self)]
    exact ⟨rfl, nofun⟩
  | evict | tick => exact h
  | expire => exact past_update h fun _ => ⟨if_pos (.inr rfl), nofun⟩

/-- Who is lost stays lost. -/
theorem lost_move (hr : Roster s) (hm : Move opt s a s')
    (h : (s.task u).lost) : (s'.task u).lost := by
  cases hm with
  | reuse he | opening he | park he => exact lost_update h fun hu => absurd (hu ▸ h) he.not_lost
  | resolve ht | adopt ht => exact lost_update h fun hu => by rw [hu, ht] at h; cases h
  | drop ha ht hx => exact lost_update h fun _ => lost_of_ended hx
  | stray | close | shelve | expire | fail | leave => exact lost_update h fun _ => rfl
  | pass ht hc hw | grant ht hc hw =>
    refine lost_update (lost_update h fun hu => ?_) fun _ => rfl
    rw [hu, hr.waiting_of_mem (hw ▸ mem_cons_self)] at h
    cases h
  | evict | tick => exact h
  | receive ht hv he hg =>
    refine lost_update h fun hu => ?_
    rw [hu, ht] at h
    rw [Acquire.lost, he] at h
    cases h

/-- An answer stands. -/
theorem answered_move (hr : Roster s) (hm : Move opt s a s') (h : (s.task w).Answered) :
    (s'.task w).Answered := by
  have hreleased : (Acquire.released : Acquire κ).Answered := .inr (.inl rfl)
  cases hm with
  | reuse he | opening he | park he =>
    exact answered_update h fun hw => absurd (hw ▸ h) he.not_answered
  | resolve ht =>
    exact answered_update h fun hw => absurd (hw ▸ h) (not_answered_of_opens (by rw [ht]; rfl))
  | adopt => exact answered_update h fun _ => .inl nofun
  | drop ha ht hx => exact answered_update h fun hw => absurd (hw ▸ h) (not_answered_of_opens ht)
  | stray | close | shelve => exact answered_update h fun _ => hreleased
  | pass ht hc hw | grant ht hc hw =>
    refine answered_update (answered_update h fun hww => ?_) fun _ => hreleased
    rw [hww, hr.waiting_of_mem (hw ▸ mem_cons_self)] at h
    rcases h with h | h | h | h
    · exact absurd rfl h
    all_goals cases h
  | evict | tick => exact h
  | expire ht =>
    refine answered_update h fun hw => ?_
    rw [hw, ht] at h
    rcases h with h | h | h | h
    · exact .inl h
    all_goals cases h
  | fail => exact answered_update h fun _ => .inr (.inr (.inr rfl))
  | receive => exact answered_update h fun _ => .inl nofun
  | leave => exact answered_update h fun _ => .inr (.inr (.inl rfl))

/-- Who has run out of time fails, unless it is destroyed before. -/
theorem quits_move (hr : Roster s) (hm : Move opt s a s') (h : (s.task w).quits = true) :
    (s'.task w).quits = true ∨ (s'.task w).Answered := by
  have hreleased : (Acquire.released : Acquire κ).Answered := .inr (.inl rfl)
  cases hm with
  | reuse he | opening he | park he =>
    refine quits_update h fun hw => ?_
    rw [hw, he.not_quits] at h
    cases h
  | resolve ht =>
    refine quits_update h fun hw => ?_
    rw [hw, ht] at h
    cases h
  | adopt => exact quits_update h fun _ => .inr (.inl nofun)
  | drop ha ht hx =>
    refine quits_update h fun hw => ?_
    rw [hw] at h
    cases htask : s.task _ <;> rw [htask] at h ht <;> first | cases h | cases ht
  | stray | close | shelve => exact quits_update h fun _ => .inr hreleased
  | pass ht hc hw | grant ht hc hw =>
    rename_i t c r _ _ v ws
    rcases eq_or_ne w t with rfl | hwt
    · dsimp only
      rw [update_self]
      exact .inr hreleased
    · dsimp only
      rw [update_of_ne hwt]
      refine quits_update h fun hww => ?_
      rw [hww, hr.waiting_of_mem (hw ▸ mem_cons_self)] at h
      cases h
  | evict | tick => exact .inl h
  | expire => exact quits_update h fun _ => .inl (by simp [Acquire.quits])
  | fail => exact quits_update h fun _ => .inr (.inr (.inr (.inr rfl)))
  | receive => exact quits_update h fun _ => .inr (.inl nofun)
  | leave => exact quits_update h fun _ => .inr (.inr (.inr (.inl rfl)))

/-- Only a tick moves the clock. -/
theorem now_move (hm : Move opt s a s') (ha : a ≠ .tick) : s'.now = s.now := by
  cases hm with
  | tick => exact absurd rfl ha
  | _ => rfl

theorem parks_move (hl : Ledger opt s) (hr : Roster s) (hm : Move opt s a s')
    (h : (s.task w).parked = some k) : Parks s s' w k := by
  have hne : ∀ t, (s.task t).parked = none → w ≠ t := by
    rintro t ht rfl
    rw [h] at ht
    cases ht
  cases hm with
  | reuse he | opening he =>
    have hwt := hne _ he.nowhere.2.1
    exact .of_ne hwt rfl fun d hd => he.mem_timers hd hwt
  | park he =>
    have hwt := hne _ he.nowhere.2.1
    refine .of_ne hwt rfl fun d hd => ?_
    dsimp only
    split
    · exact mem_cons_of_mem _ (he.mem_timers hd hwt)
    · exact he.mem_timers hd hwt
  | resolve ht | adopt ht | stray ht | close ht | shelve ht =>
    exact .of_ne (hne _ (by rw [ht]; rfl)) rfl fun d hd => hd
  | drop ha ht hx => exact .of_ne (hne _ (parked_of_opens ht)) rfl fun d hd => hd
  | @pass t c r _ _ v ws ht hc hw =>
    have hwt : w ≠ t := hne _ (by rw [ht]; rfl)
    rcases eq_or_ne w v with rfl | hwv
    · refine .inr (.inr ⟨Nat.sub_lt (hl.total_pos hc) Nat.one_pos, ?_⟩)
      have hkey : c.key = k := by
        have hpark := (hr.queue w c.key).mp (hw ▸ mem_cons_self)
        exact Option.some.inj (hpark.symm.trans h)
      dsimp only
      rw [update_of_ne hwt, update_self, hr.waiting_of_mem (hw ▸ mem_cons_self), hkey]
      rfl
    · refine .inl ⟨?_, fun d hd => mem_timers_filter hwv hd⟩
      dsimp only
      rw [update_of_ne hwt, update_of_ne hwv]
  | @grant t c r _ _ v ws ht hc hw =>
    have hwt : w ≠ t := hne _ (by rw [ht]; rfl)
    rcases eq_or_ne w v with rfl | hwv
    · refine .inr (.inl ?_)
      dsimp only
      rw [update_of_ne hwt, update_self, hr.waiting_of_mem (hw ▸ mem_cons_self)]
      exact ⟨⟨rfl, nofun⟩, .inr (.inl nofun), rfl⟩
    · refine .inl ⟨?_, fun d hd => mem_timers_filter hwv hd⟩
      dsimp only
      rw [update_of_ne hwt, update_of_ne hwv]
  | evict | tick => exact .inl ⟨rfl, fun d hd => hd⟩
  | @expire t d k v ht hd =>
    rcases eq_or_ne w t with rfl | hwt
    · refine .inr (.inl ?_)
      dsimp only
      rw [update_self]
      exact ⟨⟨if_pos (.inr rfl), nofun⟩, .inl (by simp [Acquire.quits]), rfl⟩
    · exact .of_ne hwt rfl fun d hd => mem_timers_filter hwt hd
  | fail ht hv | receive ht hv =>
    have hwt := hne _ (by rw [ht]; exact if_neg hv)
    exact .of_ne hwt rfl fun d hd => mem_timers_filter hwt hd
  | @leave t k v ht =>
    rcases eq_or_ne w t with rfl | hwt
    · refine .inr (.inl ?_)
      dsimp only
      rw [update_self]
      exact ⟨⟨rfl, nofun⟩, .inr (.inr (.inr (.inl rfl))), rfl⟩
    · exact .of_ne hwt rfl fun d hd => mem_timers_filter hwt hd

/-! ## The queue through one step -/

/-- A write that leaves a queue leaves all queues. -/
theorem Requeue.of_set {j : κ} {b : Bucket κ} (hb : s'.buckets = s.buckets.set j b)
    (hw : b.waiters = (s.buckets j).waiters) : Requeue opt s s' k := by
  refine .same ?_
  rw [hb, Family.set_apply]
  split
  · rename_i hk
    rw [hw, hk]
  · rfl

/-- A release that serves a waiter serves the front. -/
theorem Requeue.of_release {c : Conn κ} {r : Bool} {g : Option (Conn κ)} {v : ℕ} {ws : List ℕ}
    {b : Bucket κ}
    (hr : Roster s) (ht : s.task t = .holding c r) (hw : (s.buckets c.key).waiters = v :: ws)
    (hb : s'.buckets = s.buckets.set c.key b) (hws : b.waiters = ws)
    (htask : s'.task = Function.update (Function.update s.task v ((s.task v).wake g)) t .released) :
    Requeue opt s s' k := by
  have hmem : v ∈ (s.buckets c.key).waiters := hw ▸ mem_cons_self
  rcases eq_or_ne k c.key with rfl | hk
  · refine .front v ?_ ?_
    · rw [hb, Family.set_self, hws, hw]
    · rw [htask, update_of_ne (hr.ne_of_holding hmem ht), update_self,
        hr.waiting_of_mem hmem]
      rfl
  · exact .same (by rw [hb, Family.set_of_ne _ _ hk])

/-- A call leaves the queue of its bucket, if it is in it, and will not come back. -/
theorem Requeue.of_filter {j : κ} {x : Acquire κ}
    (hb : s'.buckets = s.buckets.set j
      { s.buckets j with waiters := (s.buckets j).waiters.filter (· ≠ t) })
    (htask : s'.task = Function.update s.task t x) (hx : x.lost) (hp : x.parked = none) :
    Requeue opt s s' k := by
  rcases eq_or_ne k j with rfl | hk
  · exact .out t (by rw [hb, Family.set_self]) (by rwa [htask, update_self])
      (by rwa [htask, update_self])
  · exact .same (by rw [hb, Family.set_of_ne _ _ hk])

theorem requeue_move (hr : Roster s) (hm : Move opt s a s') : Requeue opt s s' k := by
  cases hm with
  | reuse | opening | drop | adopt | close | shelve | evict => exact .of_set rfl (by rfl)
  | @park a t j T he hfull =>
    rcases eq_or_ne k j with rfl | hk
    · refine .back t (by rw [Family.set_self]) fun hpos => ?_
      dsimp only
      rw [if_pos hpos]
      exact mem_cons_self
    · exact .same (by rw [Family.set_of_ne _ _ hk])
  | resolve | stray | fail | receive | tick => exact .same rfl
  | pass ht hc hw | grant ht hc hw => exact .of_release hr ht hw rfl rfl rfl
  | expire => exact .of_filter rfl rfl rfl (by simp [Acquire.parked])
  | leave => exact .of_filter rfl rfl rfl rfl

end Pool

end Cornet.Http.Client
