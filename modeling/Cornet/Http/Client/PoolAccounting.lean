import Cornet.Http.Client.PoolRoster

/-!
# Http/Client/PoolAccounting — what holds of the pool in every interleaving

    step ─▸ Move ─▸ Ledger, Roster ─▸ `Accounted`          Reserved ─▸ `capped_of_reserved`

The caps of a bucket, the counter `total_` and the places of connections and waiters hold in every
state of every interleaving (`run_accounted`).  The cap on all connections does not: `acquire` tests
`total_` before it suspends in the lookup and counts the connection after the connect, so openings
under way in other buckets are not seen (`twoOrigins_exceed`).  It holds in the runs in which an
opening starts only while the connections open and under way are below the cap
(`capped_of_reserved`).
-/

namespace Cornet.Http.Client.Pool

open List

variable {κ : Type*} [DecidableEq κ] {opt : Options} {ok : Pool κ → Event κ → Prop} {s s' : Pool κ}
  {a : Event κ} {as : List (Event κ)}

/-- The books and the roster hold along every run. -/
theorem run_books (h : Run (step opt) ok {} as s) : Ledger opt s ∧ Roster s :=
  h.invariant (I := fun s => Ledger opt s ∧ Roster s) ⟨Ledger.init, Roster.init⟩
    fun ⟨hl, hr⟩ _ hstep =>
    ⟨hl.move (fun _ _ => hr.opening_pos) (step_move hstep), hr.move hl (step_move hstep)⟩

/-- The accounts of the pool. -/
structure Accounted (opt : Options) (s : Pool κ) : Prop where
  host : ∀ k, (s.buckets k).idle.length + (s.buckets k).busy.length + (s.buckets k).opening ≤
    opt.maxConnsPerHost
  idle : ∀ k, (s.buckets k).idle.length ≤ opt.maxIdlePerHost
  total : s.total = s.buckets.sum fun b => b.idle.length + b.busy.length
  /-- a connection that was opened and not closed is in exactly one list, once -/
  once : ∀ c ∈ s.opened, c ∉ s.closed → s.buckets.sum (fun b => b.idle.count c + b.busy.count c) = 1
  /-- and no other is in a list -/
  listed : ∀ k c, c ∈ (s.buckets k).idle ∨ c ∈ (s.buckets k).busy → c ∈ s.opened ∧ c ∉ s.closed
  /-- a waiter is scheduled at most once, for one reason -/
  scheduled : ∀ t k v, s.task t = .waiting k v → v.wakes ≤ 1 ∧
    (v.granted = none ∨ v.expired = false)
  /-- until then, and only until then, it is in its queue, and a timer is armed for nobody else -/
  queued : ∀ t k v, s.task t = .waiting k v → (t ∈ (s.buckets k).waiters ↔ v.wakes = 0)
  armed : ∀ p ∈ s.timers, ∃ k, p.1 ∈ (s.buckets k).waiters

/-- **The accounts hold in every state of every interleaving.** -/
theorem run_accounted (h : Run (step opt) (fun _ _ => True) {} as s) : s.Accounted opt := by
  obtain ⟨hl, hr⟩ := run_books h
  refine ⟨hl.host, hl.idle, hl.total, ?_, ?_, ?_, ?_, ?_⟩
  · intro c hc hnot
    have hone := count_eq_one_of_mem hl.nodup hc
    have hplace := hl.place c
    rw [hone, count_eq_zero.mpr hnot, Nat.zero_add] at hplace
    exact hplace.symm
  · intro k c hc
    have hpos : 0 < (s.buckets k).has c := by
      rcases hc with hc | hc
      · exact Nat.add_pos_left (count_pos_iff.mpr hc) _
      · exact Nat.add_pos_right _ (count_pos_iff.mpr hc)
    have hle := Family.le_sum (f := Bucket.has c) rfl s.buckets k
    have hone := nodup_iff_count_le_one.mp hl.nodup c
    have hplace := hl.place c
    exact ⟨count_pos_iff.mp (by omega), count_eq_zero.mp (by omega)⟩
  · intro t k v ht
    have hsound := hr.waiter t
    rw [ht] at hsound
    rcases hsound with rfl | ⟨hone, hreason⟩
    · exact ⟨Nat.zero_le _, .inl rfl⟩
    · exact ⟨hone.le, hreason⟩
  · intro t k v ht
    rw [hr.queue, ht, Acquire.parked]
    split
    · rename_i hv
      exact iff_of_true rfl hv
    · rename_i hv
      exact iff_of_false (by rintro ⟨⟩) hv
  · intro p hp
    obtain ⟨k, hk⟩ := Option.ne_none_iff_exists'.mp (hr.timer p hp)
    exact ⟨k, (hr.queue p.1 k).mpr hk⟩

/-- Two connections to one host at most, one of them idle, three in all. -/
def smallPool : Options := ⟨2, 1, 3, 5⟩

/-- Two calls open connections, a third parks and is granted the one handed back. -/
def grantedOnce : List (Event Bool) :=
  [.acquire 0 true fun _ => true, .acquire 1 true fun _ => true, .resolved 0 true,
    .connected 0 true,
   .resolved 1 true, .connected 1 true, .acquire 2 true fun _ => true, .release 0 true true]

theorem run_accounted_grantedOnce : ∃ s, Run (step smallPool) (fun _ _ => True) {} grantedOnce s ∧
    s.task 2 = .waiting true ⟨some ⟨true, 0⟩, false, 1⟩ ∧ s.Accounted smallPool := by
  obtain ⟨s, hs, htask⟩ : ∃ s, Run (step smallPool) (fun _ _ => True) {} grantedOnce s ∧
      s.task 2 = .waiting true ⟨some ⟨true, 0⟩, false, 1⟩ := Run.exists_of_mem (by decide +kernel)
  exact ⟨s, hs, htask, run_accounted hs⟩

/-! ## The cap on all connections -/

/-- How many openings are under way. -/
def openings (s : Pool κ) : ℕ := s.buckets.sum Bucket.opening

/-- What a step leaves, if it is enabled. -/
def after (opt : Options) (s : Pool κ) (a : Event κ) : Pool κ := (step opt s a).getD s

/-- If the step starts an opening, the connections open and under way are below the cap. -/
def Reserved (opt : Options) (s : Pool κ) (a : Event κ) : Prop :=
  s.openings < (s.after opt a).openings → (s.after opt a).total + s.openings < opt.maxTotalConns

instance (opt : Options) (s : Pool κ) (a : Event κ) : Decidable (s.Reserved opt a) :=
  inferInstanceAs (Decidable (_ → _))

/-- A write that leaves the counter of its bucket leaves the head count. -/
theorem openings_of_eq {k : κ} {b : Bucket κ} (hb : s'.buckets = s.buckets.set k b)
    (ho : b.opening = (s.buckets k).opening) : s'.openings = s.openings := by
  rw [openings, hb]
  exact Family.sum_set_of_eq rfl ho

/-- A step starts one opening, or what is open and under way does not grow. -/
theorem Move.openings_or (h : Roster s) (hm : Move opt s a s') :
    s'.openings = s.openings + 1 ∨ s'.total + s'.openings ≤ s.total + s.openings := by
  cases hm with
  | reuse | park | close | pass | evict =>
    exact .inr (Nat.add_le_add (Nat.sub_le _ _) (openings_of_eq rfl (by rfl)).le)
  | @opening a t k T he hhost htotal =>
    have hsum := Family.sum_set (f := Bucket.opening) rfl s.buckets k
      { s.buckets k with idle := [], opening := (s.buckets k).opening + 1 }
    left
    simp only [openings] at hsum ⊢
    omega
  | resolve | stray | fail | receive | tick => exact .inr le_rfl
  | @drop a t k x ha ht hx =>
    have hsum := Family.sum_set (f := Bucket.opening) rfl s.buckets k
      { s.buckets k with opening := (s.buckets k).opening - 1 }
    right
    simp only [openings] at hsum ⊢
    omega
  | @adopt t k c ht hc =>
    have hpos := h.opening_pos (congrArg Acquire.opens ht)
    have hsum := Family.sum_set (f := Bucket.opening) rfl s.buckets k
      { s.buckets k with busy := (s.buckets k).busy ++ [c], opening := (s.buckets k).opening - 1 }
    right
    simp only [openings] at hsum ⊢
    omega
  | grant | shelve | expire | leave =>
    exact .inr (Nat.add_le_add le_rfl (openings_of_eq rfl (by rfl)).le)

/-- **The cap holds when openings are reserved.**  In a run in which every opening starts below the
cap, openings under way included, no state has more than `max_total_conns` connections. -/
theorem capped_of_reserved (h : Run (step opt) (Reserved opt) {} as s) :
    s.buckets.sum (fun b => b.idle.length + b.busy.length) ≤ opt.maxTotalConns := by
  obtain ⟨-, hl, hcap⟩ := h.invariant
    (I := fun s => Roster s ∧ Ledger opt s ∧ s.total + s.openings ≤ opt.maxTotalConns)
    ⟨Roster.init, Ledger.init, Nat.zero_le _⟩ fun {s a t} ⟨hr, hl, hcap⟩ hok hstep => by
      have hm := step_move hstep
      refine ⟨hr.move hl hm, hl.move (fun _ _ => hr.opening_pos) hm, ?_⟩
      have hafter : s.after opt a = t := by rw [after, hstep, Option.getD_some]
      rw [Reserved, hafter] at hok
      rcases hm.openings_or hr with hone | hle
      · have := hok (by omega)
        omega
      · omega
  calc s.buckets.sum Bucket.size = s.total := hl.total.symm
    _ ≤ s.total + s.openings := Nat.le_add_right _ _
    _ ≤ opt.maxTotalConns := hcap

/-- One connection in all. -/
def onePool : Options := ⟨1, 1, 1, 5⟩

/-- One call opens a connection and hands it back, a second reuses it. -/
def oneAtATime : List (Event Bool) :=
  [.acquire 0 true fun _ => true, .resolved 0 true, .connected 0 true, .release 0 true true,
   .acquire 1 true fun _ => true]

theorem capped_of_reserved_oneAtATime : ∃ s, Run (step onePool) (Reserved onePool) {} oneAtATime s ∧
    s.total = 1 ∧ s.buckets.sum (fun b => b.idle.length + b.busy.length) ≤
      onePool.maxTotalConns := by
  obtain ⟨s, hs, htotal⟩ : ∃ s, Run (step onePool) (Reserved onePool) {} oneAtATime s ∧
    s.total = 1 :=
    Run.exists_of_mem (by decide +kernel)
  exact ⟨s, hs, htotal, capped_of_reserved hs⟩

/-- Two calls for two origins: both pass the test before either connection is counted. -/
def twoOrigins : List (Event Bool) :=
  [.acquire 0 true fun _ => true, .acquire 1 false fun _ => true, .resolved 0 true,
    .resolved 1 true,
   .connected 0 true, .connected 1 true]

/-- **The cap is exceeded**: two connections are open where one is allowed. -/
theorem twoOrigins_exceed : ∃ s, Run (step onePool) (fun _ _ => True) {} twoOrigins s ∧
    ¬ s.buckets.sum (fun b => b.idle.length + b.busy.length) ≤ onePool.maxTotalConns :=
  Run.exists_of_mem (by decide +kernel)

end Cornet.Http.Client.Pool
