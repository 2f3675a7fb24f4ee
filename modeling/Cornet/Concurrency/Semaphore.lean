import Cornet.Machinery.Run
import Cornet.Machinery.Dll
import Cornet.Machinery.Family
import Cornet.Concurrency.Expected

/-!
# Concurrency/Semaphore — the counting semaphore (`src/semaphore.cc`)

    head ──▸ w₁ ⇄ w₂ ⇄ ⋯ ⇄ wₙ ◂── tail        every waiter a node in its own coroutine frame

`acquire(n)` takes what is there or queues up, `release(n)` hands out from the head.  A waiter that
was granted its permits runs later, when the scheduler comes to it, and its frame may be destroyed
before that: then the permits go back.  Waiters and guards are names; the fields of an
`acquire_awaiter` are a record, which a name that was never used has in its initial state.  Permits
are 32 bits wide.

`taken`, `released` and `log` are for the reader only: no operation reads them.
-/

namespace Cornet.Semaphore

/-- Where an awaiter is: not made yet, in a suspended frame, or resumed and destroyed. -/
inductive Stage
  | unborn | suspended | gone
  deriving DecidableEq, Repr

/-- `acquire_awaiter`. -/
structure Waiter (ν : Type*) where
  need : ℕ := 0
  next : Option ν := none
  prev : Option ν := none
  err : Error := {}
  queued : Bool := false
  granted : Bool := false
  consumed : Bool := false
  stage : Stage := .unborn

instance {ν : Type*} : Inhabited (Waiter ν) := ⟨{}⟩

/-- What happens to the waiters: one joins the queue, one is given its permits, one leaves
without. -/
inductive Event (ν : Type*)
  | queue (w : ν)
  | grant (w : ν)
  | leave (w : ν)
  deriving DecidableEq, Repr

/-- `semaphore_t`, with every awaiter and every guard on it. -/
structure Sem (ν γ : Type*) where
  count : ℕ
  head : Option ν := none
  tail : Option ν := none
  aborted : Bool := false
  abortErr : Error := {}
  waiters : Family ν (Waiter ν) := {}
  /-- What a guard will release; an inert one is `none`. -/
  guards : Family γ (Option ℕ) := {}
  /-- The calls of `schedule` so far. -/
  ready : List ν := []
  /-- Permits that callers of `acquire` and `try_acquire` were given. -/
  taken : ℕ := 0
  /-- Permits that were given to `release`, guards apart. -/
  released : ℕ := 0
  log : List (Event ν) := []

/-- Permits wrap around. -/
def kPermits : ℕ := 2 ^ 32

namespace Sem

variable {ν γ : Type*} [DecidableEq ν] [DecidableEq γ] (s : Sem ν γ)

/-- A write to one awaiter. -/
def put (w : ν) (f : Waiter ν → Waiter ν) : Sem ν γ :=
  { s with waiters := s.waiters.set w (f (s.waiters w)) }

def record (e : Event ν) : Sem ν γ := { s with log := s.log ++ [e] }

/-- `(p ? p->next_ : head_) = x`. -/
def setNext (p x : Option ν) : Sem ν γ :=
  match p with
  | some p => s.put p fun e => { e with next := x }
  | none => { s with head := x }

/-- `(x ? x->prev_ : tail_) = p`. -/
def setPrev (x p : Option ν) : Sem ν γ :=
  match x with
  | some x => s.put x fun e => { e with prev := p }
  | none => { s with tail := p }

/-- `semaphore_t::unlink`. -/
def unlink (w : ν) : Sem ν γ :=
  let e := s.waiters w
  ((s.setNext e.prev e.next).setPrev e.next e.prev).put w fun e =>
    { e with next := none, prev := none, queued := false }

/-- The head gets its permits and is scheduled. -/
def grant (w : ν) : Sem ν γ :=
  let s := (s.unlink w).put w fun e => { e with granted := true }
  { s with count := s.count - (s.waiters w).need, ready := s.ready ++ [w] }.record (.grant w)

/-- `wake_ready`, for at most so many turns. -/
def wakeReady : ℕ → Sem ν γ → Sem ν γ
  | 0, s => s
  | k + 1, s =>
    match s.head with
    | some w => if (s.waiters w).need ≤ s.count then wakeReady k (s.grant w) else s
    | none => s

/-- More turns than there are waiters. -/
def turns : ℕ := s.waiters.keys.card + 1

/-- `count_ += n`. -/
def add (n : ℕ) : Sem ν γ := { s with count := (s.count + n) % kPermits }

/-- `if (!aborted_) wake_ready()`. -/
def wake : Sem ν γ := if s.aborted then s else wakeReady s.turns s

/-- `semaphore_t::release`. -/
def release (n : ℕ) : Sem ν γ := if n = 0 then s else (s.add n).wake

/-- A caller of `release` that is not a guard. -/
def releaseBy (n : ℕ) : Sem ν γ := { s.release n with released := s.released + n }

/-- The caller, or its guard, has the permits now. -/
def pay (n : ℕ) : Option γ → Sem ν γ
  | none => { s with taken := s.taken + n }
  | some g => { s with guards := s.guards.set g (some n) }

/-- `await_suspend`. -/
def suspend (w : ν) (n : ℕ) : Sem ν γ :=
  let t := s.put w fun _ => { need := n, queued := true, prev := s.tail, stage := .suspended }
  { t.setNext s.tail (some w) with tail := some w }.record (.queue w)

/-- The fast path of `await_ready`.  It does not look at the queue. -/
def serve (w : ν) (n : ℕ) : Sem ν γ :=
  let t := s.put w fun _ => { need := n, granted := true, consumed := true, stage := .gone }
  { t with count := t.count - n }.record (.grant w)

/-- `co_await acquire(n)`, on behalf of a caller or of a guard. -/
def acquire (w : ν) (n : ℕ) (g : Option γ) : Sem ν γ :=
  if s.aborted then s.put w fun _ => { need := n, err := s.abortErr, consumed := true, stage := .gone }
  else if n ≤ s.count then (s.serve w n).pay n g
  else s.suspend w n

/-- `await_resume`: the awaiter's work is done. -/
def resume (w : ν) (g : Option γ) : Sem ν γ :=
  let t := s.put w fun e => { e with consumed := true, stage := .gone }
  if (s.waiters w).granted then t.pay (s.waiters w).need g else t

/-- `~acquire_awaiter`, in a frame that is destroyed while it is suspended. -/
def destroy (w : ν) : Sem ν γ :=
  let s := if (s.waiters w).queued then (s.unlink w).record (.leave w) else s
  let t := s.put w fun e => { e with stage := .gone }
  if (s.waiters w).granted && !(s.waiters w).consumed then (t.add (s.waiters w).need).wake else t

/-- `semaphore_t::try_acquire`. -/
def tryAcquire (n : ℕ) : Sem ν γ :=
  if s.aborted || s.count < n then s else { s with count := s.count - n, taken := s.taken + n }

/-- A waiter is turned away. -/
def refuse (err : Error) (w : ν) : Sem ν γ :=
  let s := (s.unlink w).put w fun e => { e with err := err }
  { s with ready := s.ready ++ [w] }.record (.leave w)

/-- The loop of `abort`. -/
def refuseAll (err : Error) : ℕ → Sem ν γ → Sem ν γ
  | 0, s => s
  | k + 1, s =>
    match s.head with
    | some w => refuseAll err k (s.refuse err w)
    | none => s

/-- `semaphore_t::abort`. -/
def abort (err : Error) : Sem ν γ :=
  if s.aborted then s else refuseAll err s.turns { s with aborted := true, abortErr := err }

/-- `guard_t::reset`, also what its destructor does. -/
def resetGuard (g : γ) : Sem ν γ :=
  match s.guards g with
  | some n => { s.release n with guards := s.guards.set g none }
  | none => s

/-- The move constructor. -/
def moveGuard (g h : γ) : Sem ν γ := { s with guards := (s.guards.set h (s.guards g)).set g none }

/-- The move assignment to `g`. -/
def assignGuard (g h : γ) : Sem ν γ := if g = h then s else (s.resetGuard g).moveGuard h g

end Sem

/-- What can happen to a semaphore. -/
inductive Act (ν γ : Type*)
  | acquire (w : ν) (n : ℕ) (g : Option γ)
  | resume (w : ν) (g : Option γ)
  | destroy (w : ν)
  | tryAcquire (n : ℕ)
  | release (n : ℕ)
  | resetGuard (g : γ)
  | moveGuard (g h : γ)
  | assignGuard (g h : γ)
  | abort (err : Error)
  deriving DecidableEq, Repr

section

variable {ν γ : Type*} [DecidableEq ν] [DecidableEq γ]

/-- There is no guard of that name. -/
def Sem.Free (s : Sem ν γ) (g : Option γ) : Prop := ∀ h ∈ g, s.guards h = none

instance (s : Sem ν γ) (g : Option γ) : Decidable (s.Free g) :=
  inferInstanceAs (Decidable (∀ h ∈ g, _))

/-- One step.  A name stands for one awaiter; an awaiter is resumed once it was scheduled, and
destroyed while its frame is suspended. -/
def step (s : Sem ν γ) : Act ν γ → Option (Sem ν γ)
  | .acquire w n g =>
    if (s.waiters w).stage = .unborn ∧ s.Free g then some (s.acquire w n g) else none
  | .resume w g =>
    if (s.waiters w).stage = .suspended ∧ w ∈ s.ready ∧ s.Free g then some (s.resume w g) else none
  | .destroy w => if (s.waiters w).stage = .suspended then some (s.destroy w) else none
  | .tryAcquire n => some (s.tryAcquire n)
  | .release n => some (s.releaseBy n)
  | .resetGuard g => some (s.resetGuard g)
  | .moveGuard g h => if s.guards h = none then some (s.moveGuard g h) else none
  | .assignGuard g h => some (s.assignGuard g h)
  | .abort err => some (s.abort err)

/-- `semaphore_t(ctx, initial)`. -/
def make (initial : ℕ) : Sem ν γ := { count := initial }

end

end Cornet.Semaphore
