import Cornet.Http.Client.Pool

/-!
# Http/Client/PoolMoves — what one step of the pool can do

    turn:     reuse │ open │ park                guard:    drop │ adopt
    release:  close │ pass │ grant │ shelve       wheel:    evict │ expire │ tick

The step function calls through six functions of the source; `Move` is its inversion, one
constructor for each way a step can end, with the whole state it ends in (`step_move`).  Every
invariant of the pool is read off the moves.  The moves of `turn` are shared by a call that starts
and by a call that was woken with a slot (`Enters`).

A call is seen from outside through four questions: whose budget it holds a guard on (`opens`),
whose queue it is in (`parked`), whose slot it was woken with (`slot`), which connection it owns
(`owns`).
-/

namespace Cornet.Http.Client

variable {κ : Type*}

namespace Acquire

/-- The bucket whose `opening` counts this call. -/
def opens : Acquire κ → Option κ
  | .resolving k => some k
  | .connecting k => some k
  | _ => none

/-- The bucket in whose queue this call waits, not yet chosen. -/
def parked : Acquire κ → Option κ
  | .waiting k w => if w.wakes = 0 then some k else none
  | _ => none

/-- The bucket for which this call was chosen and has not run yet. -/
def woken : Acquire κ → Option κ
  | .waiting k w => if w.wakes = 0 then none else some k
  | _ => none

/-- The bucket of which this call was given a slot, not yet used. -/
def slot : Acquire κ → Option κ
  | .waiting k w => if w.wakes = 0 ∨ w.granted.isSome ∨ w.expired then none else some k
  | _ => none

/-- The connection lent to this call, or granted to it. -/
def owns : Acquire κ → Option (Conn κ)
  | .holding c _ => some c
  | .waiting _ w => w.granted
  | _ => none

/-- The only bucket this call can be queued at or be opening for is `k`. -/
def On (k : κ) (x : Acquire κ) : Prop := ∀ j ≠ k, x.opens ≠ some j ∧ x.parked ≠ some j

/-- The call is over. -/
def ended : Acquire κ → Bool
  | .failed _ => true
  | .released => true
  | .destroyed => true
  | _ => false

variable {k : κ} {x : Acquire κ}

theorem on_iff : x.On k ↔ (x.opens = none ∨ x.opens = some k) ∧
    (x.parked = none ∨ x.parked = some k) := by
  constructor
  · intro h
    constructor
    · cases ho : x.opens with
      | none => exact .inl rfl
      | some j => exact .inr (congrArg some (by_contra fun hne => (h j hne).1 ho))
    · cases hp : x.parked with
      | none => exact .inl rfl
      | some j => exact .inr (congrArg some (by_contra fun hne => (h j hne).2 hp))
  · rintro ⟨ho, hp⟩ j hne
    constructor
    · rcases ho with ho | ho <;> simp [ho, hne.symm]
    · rcases hp with hp | hp <;> simp [hp, hne.symm]

theorem parked_of_opens (h : x.opens = some k) : x.parked = none := by
  cases x <;> simp_all [opens, parked]

theorem owns_of_opens (h : x.opens = some k) : x.owns = none := by
  cases x <;> simp_all [opens, owns]

theorem slot_of_opens (h : x.opens = some k) : x.slot = none := by
  cases x <;> simp_all [opens, slot]

theorem slot_of_parked (h : x.parked = some k) : x.slot = none := by
  cases x <;> simp_all [parked, slot]

theorem woken_of_slot (h : x.slot = some k) : x.woken = some k := by
  cases x with
  | waiting j v =>
    simp only [slot] at h
    split at h
    · cases h
    · rename_i hv
      rw [woken, if_neg (not_or.mp hv).1, h]
  | _ => cases h

/-- A call that is over is nowhere. -/
theorem of_ended (h : x.ended) : x.opens = none ∧ x.parked = none ∧ x.slot = none ∧
    x.owns = none := by
  cases x <;> simp_all [ended, opens, parked, slot, owns]

end Acquire

namespace Pool

theorem foldl_close (l : List (Conn κ)) (s : Pool κ) :
    l.foldl close s = { s with total := s.total - l.length, closed := l.reverse ++ s.closed } := by
  induction l generalizing s with
  | nil => rfl
  | cons c l ih =>
    rw [List.foldl_cons, ih]
    simp [close, Nat.sub_sub, Nat.add_comm]

/-- The call `t` begins a turn of the loop on bucket `k`, with the timers `T`. -/
inductive Enters (s : Pool κ) : Event κ → ℕ → κ → List (ℕ × ℕ) → Prop
  | start {t : ℕ} {k : κ} {alive : Conn κ → Bool} (ht : s.task t = .fresh) :
      Enters s (.acquire t k alive) t k s.timers
  | again {t : ℕ} {k : κ} {v : Waiter κ} {alive : Conn κ → Bool} (ht : s.task t = .waiting k v)
      (hv : v.wakes ≠ 0) (hg : v.granted = none) (he : v.expired = false) :
      Enters s (.resume t alive) t k (s.timers.filter (·.1 ≠ t))

theorem Enters.nowhere {s : Pool κ} {a : Event κ} {t : ℕ} {k : κ} {T : List (ℕ × ℕ)}
    (he : Enters s a t k T) :
    (s.task t).opens = none ∧ (s.task t).parked = none ∧ (s.task t).owns = none := by
  cases he with
  | start ht => simp [ht, Acquire.opens, Acquire.parked, Acquire.owns]
  | again ht hv hg he => simp [ht, Acquire.opens, Acquire.parked, Acquire.owns, hv, hg]

variable [DecidableEq κ]

/-- The ways a step can end. -/
inductive Move (opt : Options) (s : Pool κ) : Event κ → Pool κ → Prop
  | reuse {a : Event κ} {t : ℕ} {k : κ} {T : List (ℕ × ℕ)} {c : Conn κ} {stale rest : List (Conn κ)}
      (he : Enters s a t k T) (hidle : (s.buckets k).idle = stale ++ c :: rest) :
      Move opt s a { s with
        buckets := s.buckets.set k
          { s.buckets k with idle := rest, busy := (s.buckets k).busy ++ [c] }
        total := s.total - stale.length
        closed := stale.reverse ++ s.closed
        timers := T
        task := Function.update s.task t (.holding c true) }
  | opening {a : Event κ} {t : ℕ} {k : κ} {T : List (ℕ × ℕ)} (he : Enters s a t k T)
      (hhost : (s.buckets k).busy.length + (s.buckets k).opening < opt.maxConnsPerHost)
      (htotal : s.total - (s.buckets k).idle.length < opt.maxTotalConns) :
      Move opt s a { s with
        buckets := s.buckets.set k
          { s.buckets k with idle := [], opening := (s.buckets k).opening + 1 }
        total := s.total - (s.buckets k).idle.length
        closed := (s.buckets k).idle.reverse ++ s.closed
        timers := T
        task := Function.update s.task t (.resolving k) }
  | park {a : Event κ} {t : ℕ} {k : κ} {T : List (ℕ × ℕ)} (he : Enters s a t k T)
      (hfull : opt.maxConnsPerHost ≤ (s.buckets k).busy.length + (s.buckets k).opening ∨
        opt.maxTotalConns ≤ s.total - (s.buckets k).idle.length) :
      Move opt s a { s with
        buckets := s.buckets.set k
          { s.buckets k with idle := [], waiters := (s.buckets k).waiters ++ [t] }
        total := s.total - (s.buckets k).idle.length
        closed := (s.buckets k).idle.reverse ++ s.closed
        timers := if 0 < opt.poolWaitTimeout then (t, s.now + opt.poolWaitTimeout) :: T else T
        task := Function.update s.task t (.waiting k {}) }
  | resolve {t : ℕ} {k : κ} (ht : s.task t = .resolving k) :
      Move opt s (.resolved t true) { s with task := Function.update s.task t (.connecting k) }
  | drop {a : Event κ} {t : ℕ} {k : κ} {x : Acquire κ}
      (ha : a = .resolved t false ∨ a = .connected t false ∨ a = .destroy t)
      (ht : (s.task t).opens = some k) (hx : x.ended) :
      Move opt s a { s with
        buckets := s.buckets.set k { s.buckets k with opening := (s.buckets k).opening - 1 }
        task := Function.update s.task t x }
  | adopt {t : ℕ} {k : κ} {c : Conn κ} (ht : s.task t = .connecting k)
    (hc : c = ⟨k, s.opened.length⟩) :
      Move opt s (.connected t true) { s with
        buckets := s.buckets.set k { s.buckets k with
          busy := (s.buckets k).busy ++ [c], opening := (s.buckets k).opening - 1 }
        total := s.total + 1
        opened := c :: s.opened
        task := Function.update s.task t (.holding c false) }
  | stray {t : ℕ} {c : Conn κ} {r reusable alive : Bool} (ht : s.task t = .holding c r)
      (hc : c ∉ (s.buckets c.key).busy) :
      Move opt s (.release t reusable alive) { s with task := Function.update s.task t .released }
  | close {t : ℕ} {c : Conn κ} {r reusable alive : Bool} (ht : s.task t = .holding c r)
      (hc : c ∈ (s.buckets c.key).busy) (hw : (s.buckets c.key).waiters = []) :
      Move opt s (.release t reusable alive) { s with
        buckets := s.buckets.set c.key
          { s.buckets c.key with busy := (s.buckets c.key).busy.erase c }
        total := s.total - 1
        closed := c :: s.closed
        task := Function.update s.task t .released }
  | pass {t : ℕ} {c : Conn κ} {r reusable alive : Bool} {w : ℕ} {ws : List ℕ}
      (ht : s.task t = .holding c r) (hc : c ∈ (s.buckets c.key).busy)
      (hw : (s.buckets c.key).waiters = w :: ws) :
      Move opt s (.release t reusable alive) { s with
        buckets := s.buckets.set c.key { s.buckets c.key with
          busy := (s.buckets c.key).busy.erase c, waiters := ws }
        total := s.total - 1
        closed := c :: s.closed
        timers := s.timers.filter (·.1 ≠ w)
        task := Function.update (Function.update s.task w ((s.task w).wake none)) t .released }
  | grant {t : ℕ} {c : Conn κ} {r reusable alive : Bool} {w : ℕ} {ws : List ℕ}
      (ht : s.task t = .holding c r) (hc : c ∈ (s.buckets c.key).busy)
      (hw : (s.buckets c.key).waiters = w :: ws) :
      Move opt s (.release t reusable alive) { s with
        buckets := s.buckets.set c.key { s.buckets c.key with
          busy := (s.buckets c.key).busy.erase c ++ [c], waiters := ws }
        timers := s.timers.filter (·.1 ≠ w)
        task := Function.update (Function.update s.task w ((s.task w).wake (some c))) t .released }
  | shelve {t : ℕ} {c : Conn κ} {r reusable alive : Bool} (ht : s.task t = .holding c r)
      (hc : c ∈ (s.buckets c.key).busy) (hw : (s.buckets c.key).waiters = [])
      (hroom : (s.buckets c.key).idle.length < opt.maxIdlePerHost) :
      Move opt s (.release t reusable alive) { s with
        buckets := s.buckets.set c.key { s.buckets c.key with
          idle := c :: (s.buckets c.key).idle, busy := (s.buckets c.key).busy.erase c }
        task := Function.update s.task t .released }
  | evict {c : Conn κ} (hc : c ∈ (s.buckets c.key).idle) :
      Move opt s (.idleExpired c) { s with
        buckets := s.buckets.set c.key
          { s.buckets c.key with idle := (s.buckets c.key).idle.erase c }
        total := s.total - 1
        closed := c :: s.closed }
  | expire {t d : ℕ} {k : κ} {v : Waiter κ} (ht : s.task t = .waiting k v)
    (hd : (t, d) ∈ s.timers) :
      Move opt s (.waitExpired t) { s with
        buckets := s.buckets.set k { s.buckets k with
          waiters := (s.buckets k).waiters.filter (· ≠ t) }
        timers := s.timers.filter (·.1 ≠ t)
        task := Function.update s.task t
          (.waiting k { v with expired := true, wakes := v.wakes + 1 }) }
  | fail {t : ℕ} {k : κ} {v : Waiter κ} {alive : Conn κ → Bool} (ht : s.task t = .waiting k v)
      (hv : v.wakes ≠ 0) (he : v.expired) :
      Move opt s (.resume t alive) { s with
        timers := s.timers.filter (·.1 ≠ t)
        task := Function.update s.task t (.failed .poolExhausted) }
  | receive {t : ℕ} {k : κ} {v : Waiter κ} {c : Conn κ} {alive : Conn κ → Bool}
      (ht : s.task t = .waiting k v) (hv : v.wakes ≠ 0)
      (he : v.expired = false) (hg : v.granted = some c) :
      Move opt s (.resume t alive) { s with
        timers := s.timers.filter (·.1 ≠ t)
        task := Function.update s.task t (.holding c true) }
  | leave {t : ℕ} {k : κ} {v : Waiter κ} (ht : s.task t = .waiting k v) :
      Move opt s (.destroy t) { s with
        buckets := s.buckets.set k { s.buckets k with
          waiters := (s.buckets k).waiters.filter (· ≠ t) }
        timers := s.timers.filter (·.1 ≠ t)
        task := Function.update s.task t .destroyed }
  | tick (hd : ∀ p ∈ s.timers, s.now < p.2) : Move opt s .tick { s with now := s.now + 1 }

variable {opt : Options} {s s' : Pool κ} {a : Event κ} {t : ℕ} {k : κ} {c : Conn κ} {r : Bool}
  {T : List (ℕ × ℕ)}

/-- What the loop over the idle list leaves. -/
theorem sweep_eq (s : Pool κ) (k : κ) (alive : Conn κ → Bool) :
    s.sweep k alive = { s with
      buckets := s.buckets.set k
        { s.buckets k with idle := (s.buckets k).idle.dropWhile (!alive ·) }
      total := s.total - ((s.buckets k).idle.takeWhile (!alive ·)).length
      closed := ((s.buckets k).idle.takeWhile (!alive ·)).reverse ++ s.closed } := by
  rw [sweep, foldl_close]
  rfl

/-- A turn reuses, opens or parks. -/
theorem turn_move {alive : Conn κ → Bool} (he : Enters s a t k T) :
    Move opt s a (turn opt { s with timers := T } t k alive) := by
  have hsplit := List.takeWhile_append_dropWhile (p := (!alive ·)) (l := (s.buckets k).idle)
  rw [turn, sweep_eq]
  simp only [Family.set_self]
  cases hrest : (s.buckets k).idle.dropWhile (!alive ·) with
  | cons c rest =>
    rw [hrest] at hsplit
    simpa [setBucket, setTask] using (Move.reuse he hsplit.symm : Move opt s a _)
  | nil =>
    rw [hrest, List.append_nil] at hsplit
    simp only [hsplit]
    split
    · rename_i hroom
      simp only [Room, Family.set_self] at hroom
      simpa [setBucket, setTask] using Move.opening he hroom.1 hroom.2
    · rename_i hfull
      simp only [Room, Family.set_self, not_and_or, not_lt] at hfull
      have hmove := Move.park he hfull
      by_cases htimeout : 0 < opt.poolWaitTimeout
      · simpa [setBucket, setTask, arm, htimeout] using hmove
      · simpa [setBucket, setTask, arm, htimeout] using hmove

/-- A release closes, passes a slot on, grants or shelves. -/
theorem release_move {reusable alive : Bool} (ht : s.task t = .holding c r) :
    Move opt s (.release t reusable alive)
      ((s.release opt c reusable alive).setTask t .released) := by
  rw [release]
  split
  · rename_i hc
    cases hw : (s.buckets c.key).waiters with
    | nil =>
      have hclose : Move opt s (.release t reusable alive) _ := .close ht hc hw
      cases reusable with
      | false => simpa [wakeFront, close, setBucket, setTask, hw] using hclose
      | true =>
        by_cases hidle : opt.maxIdlePerHost ≤ (s.buckets c.key).idle.length
        · simpa [grantOrPark, close, setBucket, setTask, hw, hidle] using hclose
        · have hmove : Move opt s (.release t true alive) _ := .shelve ht hc hw (not_le.mp hidle)
          simpa [grantOrPark, setBucket, setTask, hw, hidle] using hmove
    | cons w ws =>
      have hpass : Move opt s (.release t reusable alive) _ := .pass ht hc hw
      cases reusable with
      | false => simpa [wakeFront, close, setBucket, setTask, wake, cancel, hw] using hpass
      | true =>
        cases alive with
        | false =>
          simpa [grantOrPark, wakeFront, close, setBucket, setTask, wake, cancel, hw] using hpass
        | true =>
          have hmove : Move opt s (.release t true true) _ := .grant ht hc hw
          simpa [grantOrPark, setBucket, setTask, wake, cancel, hw] using hmove
  · rename_i hc
    exact Move.stray ht hc

/-- **Inversion.**  Every step of the pool is a move. -/
theorem step_move (h : step opt s a = some s') : Move opt s a s' := by
  cases a with
  | acquire t k alive =>
    cases ht : s.task t <;> simp only [step, ht, reduceCtorEq, Option.some.injEq] at h
    obtain rfl := h
    exact turn_move (.start ht)
  | resolved t ok =>
    cases ht : s.task t <;> simp only [step, ht, reduceCtorEq, Option.some.injEq] at h
    obtain rfl := h
    cases ok with
    | true => exact .resolve ht
    | false => exact .drop (.inl rfl) (congrArg Acquire.opens ht) rfl
  | connected t ok =>
    cases ht : s.task t <;> simp only [step, ht, reduceCtorEq, Option.some.injEq] at h
    obtain rfl := h
    cases ok with
    | true => simpa [Pool.adopt, dropGuard, setBucket, setTask] using
        (Move.adopt ht rfl : Move opt s (.connected t true) _)
    | false => exact .drop (.inr (.inl rfl)) (congrArg Acquire.opens ht) rfl
  | release t reusable alive =>
    cases ht : s.task t <;> simp only [step, ht, reduceCtorEq, Option.some.injEq] at h
    obtain rfl := h
    exact release_move ht
  | idleExpired c =>
    simp only [step] at h
    split at h
    · rename_i hc
      obtain rfl := Option.some.inj h
      rw [dropIdle, if_pos hc]
      exact .evict hc
    · cases h
  | waitExpired t =>
    cases ht : s.task t <;> simp only [step, ht, reduceCtorEq] at h
    split at h
    · rename_i hany
      obtain rfl := Option.some.inj h
      obtain ⟨⟨t', d⟩, hmem, hp⟩ := List.any_eq_true.mp hany
      obtain ⟨rfl, -⟩ := of_decide_eq_true hp
      exact .expire ht hmem
    · cases h
  | resume t alive =>
    cases ht : s.task t <;> simp only [step, ht, reduceCtorEq] at h
    rename_i k v
    split_ifs at h with hv he
    · obtain rfl := Option.some.inj h
      exact .fail ht hv he
    · have he' : v.expired = false := Bool.not_eq_true _ ▸ he
      cases hg : v.granted <;> simp only [hg, Option.some.injEq] at h
      · obtain rfl := h
        exact turn_move (.again ht hv hg he')
      · obtain rfl := h
        exact .receive ht hv he' hg
  | destroy t =>
    cases ht : s.task t <;> simp only [step, ht, reduceCtorEq, Option.some.injEq] at h
    · obtain rfl := h
      exact .drop (.inr (.inr rfl)) (congrArg Acquire.opens ht) rfl
    · obtain rfl := h
      exact .drop (.inr (.inr rfl)) (congrArg Acquire.opens ht) rfl
    · obtain rfl := h
      exact .leave ht
  | tick =>
    simp only [step] at h
    split at h
    · rename_i hall
      obtain rfl := Option.some.inj h
      exact .tick fun p hp => of_decide_eq_true (List.all_eq_true.mp hall p hp)
    · cases h

end Pool

end Cornet.Http.Client
