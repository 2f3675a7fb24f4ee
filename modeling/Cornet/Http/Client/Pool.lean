import Cornet.Machinery.Run
import Cornet.Machinery.Family

/-!
# Http/Client/Pool — the keep-alive pool of a client, between suspension points
(`include/cornet/http/client/pool.h`, `src/http/client/pool.cc`)

    acquire:  idle? ──▸ reuse          room? ──▸ resolve ─▸ connect ─▸ busy          else ──▸ park
    release:  a waiter ──▸ grant, or close and wake it with a slot          none ──▸ idle, or close

One thread runs many coroutines, so what a coroutine does between two suspension points is one step,
and an interleaving is a word of such steps.  `Acquire` says where one call of `acquire` stands.
The answers of the outside world are part of the label: whether a lookup or a connect succeeds,
which connections pass `reusable()` and `alive_hint()` when they are looked at.

`κ` is the key of a bucket (host, port and scheme); a waiter is named by its call.  A parked waiter
sits in the queue of its bucket **and** in the timer wheel.  Time is counted in ticks of the wheel.
`opened`, `closed` and `wakes` are history: nothing in the source reads them.
-/

namespace Cornet.Http.Client

/-- What the pool reads of `client_options_t`; the timeout in ticks of the wheel. -/
structure Options where
  maxConnsPerHost : ℕ
  maxIdlePerHost : ℕ
  maxTotalConns : ℕ
  poolWaitTimeout : ℕ

/-- A connection knows the origin it was opened for. -/
structure Conn (κ : Type*) where
  key : κ
  id : ℕ
  deriving DecidableEq, Repr

/-- `bucket_t`.  The front of `idle` is `idle.back()`, the connection parked last. -/
structure Bucket (κ : Type*) where
  idle : List (Conn κ) := []
  busy : List (Conn κ) := []
  waiters : List ℕ := []
  opening : ℕ := 0
  deriving Repr

instance {κ : Type*} : Inhabited (Bucket κ) := ⟨{}⟩

/-- How many connections of a bucket are open. -/
def Bucket.size {κ : Type*} (b : Bucket κ) : ℕ := b.idle.length + b.busy.length

/-- `waiter_t`; `wakes` counts the calls of `ctx_.spawn(handle)`. -/
structure Waiter (κ : Type*) where
  granted : Option (Conn κ) := none
  expired : Bool := false
  wakes : ℕ := 0
  deriving DecidableEq, Repr

/-- The error an `acquire` ends with. -/
inductive Fault
  | resolve
  | connect
  | poolExhausted
  deriving DecidableEq, Repr

/-- Where one call of `acquire` stands. -/
inductive Acquire (κ : Type*)
  | fresh
  /-- suspended in `dns_.resolve`, the guard on `opening` held -/
  | resolving (k : κ)
  /-- suspended in `client_connection_t::open`, the guard held -/
  | connecting (k : κ)
  /-- suspended in `wait_awaiter` -/
  | waiting (k : κ) (w : Waiter κ)
  /-- returned; the caller holds the pointer and the flag `reused` -/
  | holding (c : Conn κ) (reused : Bool)
  | failed (e : Fault)
  /-- the caller has handed its connection back -/
  | released
  /-- the frame was destroyed while suspended -/
  | destroyed
  deriving DecidableEq, Repr

/-- The waiter of a suspended call gets what it waited for, or `none` for a slot, and is
scheduled. -/
def Acquire.wake {κ : Type*} (g : Option (Conn κ)) : Acquire κ → Acquire κ
  | .waiting k w => .waiting k { w with granted := g, wakes := w.wakes + 1 }
  | x => x

/-- `client_pool_t`, the calls that use it, and the armed timers of waiters (call, tick due). -/
structure Pool (κ : Type*) where
  buckets : Family κ (Bucket κ) := {}
  total : ℕ := 0
  task : ℕ → Acquire κ := fun _ => .fresh
  timers : List (ℕ × ℕ) := []
  now : ℕ := 0
  opened : List (Conn κ) := []
  closed : List (Conn κ) := []

/-- One step of a coroutine, of the wheel or of the clock. -/
inductive Event (κ : Type*)
  | acquire (t : ℕ) (k : κ) (alive : Conn κ → Bool)
  | resolved (t : ℕ) (ok : Bool)
  | connected (t : ℕ) (ok : Bool)
  | release (t : ℕ) (reusable alive : Bool)
  | idleExpired (c : Conn κ)
  | waitExpired (t : ℕ)
  | resume (t : ℕ) (alive : Conn κ → Bool)
  | destroy (t : ℕ)
  | tick

variable {κ : Type*} [DecidableEq κ]

namespace Pool

/-! ## The functions of the source -/

def setTask (s : Pool κ) (t : ℕ) (x : Acquire κ) : Pool κ :=
  { s with task := Function.update s.task t x }

/-- `client_pool_t::bucket_for`. -/
def setBucket (s : Pool κ) (k : κ) (b : Bucket κ) : Pool κ :=
  { s with buckets := s.buckets.set k b }

/-- `conn->close()`, then `if (total_ > 0) --total_`. -/
def close (s : Pool κ) (c : Conn κ) : Pool κ :=
  { s with total := s.total - 1, closed := c :: s.closed }

/-- `wheel_->cancel(waiter->timer)`. -/
def cancel (s : Pool κ) (t : ℕ) : Pool κ := { s with timers := s.timers.filter (·.1 ≠ t) }

/-- `wheel_->arm(waiter.timer, pool_wait_timeout)`, when there is a timeout. -/
def arm (opt : Options) (s : Pool κ) (t : ℕ) : Pool κ :=
  if 0 < opt.poolWaitTimeout then { s with timers := (t, s.now + opt.poolWaitTimeout) :: s.timers }
    else s

/-- `wheel_->cancel(waiter->timer); waiter->granted = g; ctx_.spawn(waiter->handle)`. -/
def wake (s : Pool κ) (t : ℕ) (g : Option (Conn κ)) : Pool κ :=
  (s.cancel t).setTask t ((s.task t).wake g)

/-- The front waiter of a bucket, if there is one, gets a slot. -/
def wakeFront (s : Pool κ) (k : κ) : Pool κ :=
  match (s.buckets k).waiters with
  | [] => s
  | w :: ws => (s.setBucket k { s.buckets k with waiters := ws }).wake w none

/-- `grant_or_park`; `alive` is what `alive_hint()` answers. -/
def grantOrPark (opt : Options) (s : Pool κ) (c : Conn κ) (alive : Bool) : Pool κ :=
  let b := s.buckets c.key
  match b.waiters with
  | w :: ws =>
      if alive then
        (s.setBucket c.key { b with waiters := ws, busy := b.busy ++ [c] }).wake w (some c)
      else (s.close c).wakeFront c.key
  | [] =>
      if opt.maxIdlePerHost ≤ b.idle.length then s.close c
      else s.setBucket c.key { b with idle := c :: b.idle }

/-- `release`; a connection that is not in `busy` is none of ours. -/
def release (opt : Options) (s : Pool κ) (c : Conn κ) (reusable alive : Bool) : Pool κ :=
  let b := s.buckets c.key
  if c ∈ b.busy then
    let s := s.setBucket c.key { b with busy := b.busy.erase c }
    if reusable then s.grantOrPark opt c alive else (s.close c).wakeFront c.key
  else s

/-- `drop_idle`. -/
def dropIdle (s : Pool κ) (c : Conn κ) : Pool κ :=
  let b := s.buckets c.key
  if c ∈ b.idle then (s.setBucket c.key { b with idle := b.idle.erase c }).close c else s

/-- The loop of `acquire` over the idle list: stale connections go, the first good one stops it. -/
def sweep (s : Pool κ) (k : κ) (alive : Conn κ → Bool) : Pool κ :=
  let b := s.buckets k
  (b.idle.takeWhile (!alive ·)).foldl close
    (s.setBucket k { b with idle := b.idle.dropWhile (!alive ·) })

/-- The test of `acquire` before it opens a connection. -/
def Room (opt : Options) (s : Pool κ) (k : κ) : Prop :=
  (s.buckets k).busy.length + (s.buckets k).opening < opt.maxConnsPerHost ∧
    s.total < opt.maxTotalConns

instance (opt : Options) (s : Pool κ) (k : κ) : Decidable (s.Room opt k) :=
  inferInstanceAs (Decidable (_ ∧ _))

/-- One turn of the `for (;;)` of `acquire`, up to its next suspension or its return. -/
def turn (opt : Options) (s : Pool κ) (t : ℕ) (k : κ) (alive : Conn κ → Bool) : Pool κ :=
  let s := s.sweep k alive
  let b := s.buckets k
  match b.idle with
  | c :: rest =>
    (s.setBucket k { b with idle := rest, busy := b.busy ++ [c] }).setTask t (.holding c true)
  | [] =>
      if s.Room opt k then
        (s.setBucket k { b with opening := b.opening + 1 }).setTask t (.resolving k)
      else ((s.setBucket k { b with waiters := b.waiters ++ [t] }).arm opt t).setTask t
        (.waiting k {})

/-- The destructor of `opening_guard_t`, and where the call goes from there. -/
def dropGuard (s : Pool κ) (t : ℕ) (k : κ) (x : Acquire κ) : Pool κ :=
  (s.setBucket k { s.buckets k with opening := (s.buckets k).opening - 1 }).setTask t x

/-- The connection is open: it joins `busy` and is counted, then the guard is dropped. -/
def adopt (s : Pool κ) (t : ℕ) (k : κ) : Pool κ :=
  let c : Conn κ := ⟨k, s.opened.length⟩
  let b := s.buckets k
  dropGuard { s.setBucket k { b with busy := b.busy ++ [c] } with
    total := s.total + 1, opened := c :: s.opened } t k (.holding c false)

/-- The waiter leaves the queue of its bucket (`std::remove`). -/
def leaveQueue (s : Pool κ) (t : ℕ) (k : κ) : Pool κ :=
  s.setBucket k { s.buckets k with waiters := (s.buckets k).waiters.filter (· ≠ t) }

/-- The pool as a step function; `none` where the step is not enabled. -/
def step (opt : Options) (s : Pool κ) : Event κ → Option (Pool κ)
  | .acquire t k alive =>
      match s.task t with
      | .fresh => some (s.turn opt t k alive)
      | _ => none
  | .resolved t ok =>
      match s.task t with
      | .resolving k =>
          some (if ok then s.setTask t (.connecting k) else s.dropGuard t k (.failed .resolve))
      | _ => none
  | .connected t ok =>
      match s.task t with
      | .connecting k => some (if ok then s.adopt t k else s.dropGuard t k (.failed .connect))
      | _ => none
  | .release t reusable alive =>
      match s.task t with
      | .holding c _ => some ((s.release opt c reusable alive).setTask t .released)
      | _ => none
  | .idleExpired c => if c ∈ (s.buckets c.key).idle then some (s.dropIdle c) else none
  | .waitExpired t =>
      -- `advance` fires what is due; `on_wait_expired`
      match s.task t with
      | .waiting k w =>
          if s.timers.any fun p => p.1 = t ∧ p.2 ≤ s.now then
            some (((s.cancel t).leaveQueue t k).setTask t
              (.waiting k { w with expired := true, wakes := w.wakes + 1 }))
          else none
      | _ => none
  | .resume t alive =>
      -- `await_resume`, then the rest of the turn
      match s.task t with
      | .waiting k w =>
          if w.wakes = 0 then none
          else if w.expired then some ((s.cancel t).setTask t (.failed .poolExhausted))
          else match w.granted with
            | some c => some ((s.cancel t).setTask t (.holding c true))
            | none => some ((s.cancel t).turn opt t k alive)
      | _ => none
  | .destroy t =>
      match s.task t with
      | .resolving k => some (s.dropGuard t k .destroyed)
      | .connecting k => some (s.dropGuard t k .destroyed)
      | .waiting k _ => some (((s.cancel t).leaveQueue t k).setTask t .destroyed)
      | _ => none
  | .tick =>
      -- the wheel does not turn past a timer that is due
      if s.timers.all fun p => s.now < p.2 then some { s with now := s.now + 1 } else none

end Pool

end Cornet.Http.Client
