import Cornet.Machinery.Run
import Cornet.Machinery.Family
import Cornet.Concurrency.Expected

/-!
# Concurrency/Singleflight — one execution for many callers (`include/cornet/concurrency/singleflight.h`)

    run(k) ──▸ in_flight_[k] ?   yes: follow that flight      no: lead a new one
    leader ends ──▸ key out of the map ──▸ followers scheduled ──▸ each reads the flight and lets go of it

The map knows the flight of a key while its leader executes.  A flight is freed by whoever comes
last: the leader, if nobody follows, or the last follower after the leader is done.  Calls of `run`,
flights and keys are names; a call that leads is given a name for the flight it makes.  A result is
a `shared_ptr`, which may be null.

`outcome`, `joined` and `frees` are for the reader only.
-/

namespace Cornet.Singleflight

/-- What `fn()` returns and `run()` passes on; `none` is a null pointer. -/
abbrev Result (ρ : Type*) := Except Error (Option ρ)

/-- `EOWNERDEAD`. -/
def ownerDead : Error := ⟨eOwnerDead, .system⟩

/-- `flight_t`. -/
structure Flight (κ ω ρ : Type*) where
  key : Option κ := none
  result : Option ρ := none
  err : Error := {}
  /-- the chain at `waiters`, first come last -/
  waiters : List ω := []
  waiterN : ℕ := 0
  done : Bool := false
  frees : ℕ := 0
  /-- How the leader ended. -/
  outcome : Option (Result ρ) := none

instance {κ ω ρ : Type*} : Inhabited (Flight κ ω ρ) := ⟨{}⟩

/-- Where a call of `run` is. -/
inductive Role (φ : Type*)
  | fresh
  | leading (f : φ)
  | waiting (f : φ)
  | woken (f : φ)
  | over
  deriving DecidableEq, Repr

structure Caller (φ ρ : Type*) where
  role : Role φ := .fresh
  got : Option (Result ρ) := none
  joined : Option φ := none

instance {φ ρ : Type*} : Inhabited (Caller φ ρ) := ⟨{}⟩

/-- `singleflight_t`, with its flights and callers. -/
structure Group (κ φ ω ρ : Type*) where
  inFlight : Family κ (Option φ) := {}
  flights : Family φ (Flight κ ω ρ) := {}
  callers : Family ω (Caller φ ρ) := {}
  /-- The calls of `schedule` so far. -/
  ready : List ω := []

/-- `await_resume` of a follower: it looks at the **code** of the error. -/
def Flight.awaitResume {κ ω ρ : Type*} (e : Flight κ ω ρ) : Result ρ :=
  if e.err.code ≠ 0 then .error ⟨e.err.code, e.err.domain⟩ else .ok e.result

variable {κ φ ω ρ : Type*} [DecidableEq κ] [DecidableEq φ] [DecidableEq ω]

namespace Group

section

variable (s : Group κ φ ω ρ)

omit [DecidableEq κ] [DecidableEq ω] in
def putFlight (f : φ) (g : Flight κ ω ρ → Flight κ ω ρ) : Group κ φ ω ρ :=
  { s with flights := s.flights.set f (g (s.flights f)) }

omit [DecidableEq κ] [DecidableEq φ] in
def putCaller (w : ω) (g : Caller φ ρ → Caller φ ρ) : Group κ φ ω ρ :=
  { s with callers := s.callers.set w (g (s.callers w)) }

omit [DecidableEq κ] in
/-- `await_suspend` of a follower. -/
def follow (w : ω) (f : φ) : Group κ φ ω ρ :=
  (s.putFlight f fun e => { e with waiters := w :: e.waiters, waiterN := e.waiterN + 1 }).putCaller
    w
    fun _ => { role := .waiting f, joined := some f }

/-- A new flight. -/
def lead (w : ω) (k : κ) (f : φ) : Group κ φ ω ρ :=
  { (s.putFlight f fun _ => { key := some k }).putCaller w fun _ => { role := .leading f } with
    inFlight := s.inFlight.set k (some f) }

/-- `run`, up to where it suspends. -/
def run (w : ω) (k : κ) (f : φ) : Group κ φ ω ρ :=
  match s.inFlight k with
  | some f' => s.follow w f'
  | none => s.lead w k f

omit [DecidableEq κ] [DecidableEq φ] in
/-- One turn of the loop of `leader_finish`. -/
def wakeOne (f : φ) (s : Group κ φ ω ρ) (w : ω) : Group κ φ ω ρ :=
  { s.putCaller w fun e => { e with role := .woken f } with ready := s.ready ++ [w] }

/-- `leader_finish`. -/
def leaderFinish (f : φ) : Group κ φ ω ρ :=
  let t := match (s.flights f).key with
    | some k => { s with inFlight := s.inFlight.set k none }
    | none => s
  ((s.flights f).waiters.foldl (wakeOne f) t).putFlight f fun e =>
    { e with done := true, waiters := [], frees := if e.waiterN = 0 then e.frees + 1 else e.frees }

/-- `fn()` has returned. -/
def complete (w : ω) (f : φ) (r : Result ρ) : Group κ φ ω ρ :=
  let t := s.putFlight f fun e =>
    match r with
    | .ok v => { e with result := v, outcome := some r }
    | .error err => { e with err := err, outcome := some r }
  (t.leaderFinish f).putCaller w fun e => { e with role := .over, got := some r }

/-- `~leader_guard_t`: the leader is destroyed, or `fn()` throws. -/
def kill (w : ω) (f : φ) : Group κ φ ω ρ :=
  let t := s.putFlight f fun e => { e with err := ownerDead, outcome := some (.error ownerDead) }
  (t.leaderFinish f).putCaller w fun e => { e with role := .over }

omit [DecidableEq κ] [DecidableEq ω] in
/-- `release_waiter`. -/
def releaseWaiter (f : φ) : Group κ φ ω ρ :=
  s.putFlight f fun e =>
    { e with
      waiterN := e.waiterN - 1
      frees := if e.waiterN - 1 = 0 ∧ e.done then e.frees + 1 else e.frees }

/-- A follower runs again, and its awaiter goes. -/
def resume (w : ω) (f : φ) : Group κ φ ω ρ :=
  (s.putCaller w fun e =>
    { e with role := .over, got := some (s.flights f).awaitResume }).releaseWaiter f

/-- `~follower_awaiter` in a frame that is destroyed: still on the chain, or scheduled already. -/
def drop (w : ω) (f : φ) : Group κ φ ω ρ :=
  ((s.putFlight f fun e => { e with waiters := e.waiters.erase w }).putCaller w fun e =>
    { e with role := .over }).releaseWaiter f

end

end Group

inductive Act (κ φ ω ρ : Type*)
  | run (w : ω) (k : κ) (f : φ)
  | complete (w : ω) (r : Result ρ)
  | kill (w : ω)
  | resume (w : ω)
  | drop (w : ω)

/-- One step. -/
def step (s : Group κ φ ω ρ) : Act κ φ ω ρ → Option (Group κ φ ω ρ)
  | .run w k f =>
    if (s.callers w).role = .fresh ∧ (s.flights f).key = none then some (s.run w k f) else none
  | .complete w r =>
    match (s.callers w).role with
    | .leading f => some (s.complete w f r)
    | _ => none
  | .kill w =>
    match (s.callers w).role with
    | .leading f => some (s.kill w f)
    | _ => none
  | .resume w =>
    match (s.callers w).role with
    | .woken f => some (s.resume w f)
    | _ => none
  | .drop w =>
    match (s.callers w).role with
    | .waiting f | .woken f => some (s.drop w f)
    | _ => none

end Cornet.Singleflight
