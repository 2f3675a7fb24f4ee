import Cornet.Runtime.TimerWheel
import Cornet.Concurrency.Expected

/-!
# Concurrency/Deadline — one shared end for many operations (`include/cornet/concurrency/deadline.h`)

    era  ──cap──▸  capped  ──op completes──▸  era            node on the wheel
     └──────────────── the wheel expires ───────────────▸  fired  ──reset──▸  new

A deadline has one node on a timer wheel, a latch and a canceler.  Time is up when the wheel expires
the node; but `cap` and the completion of an operation also compare the clock with the end of the
era, and **fire inline**.  The wheel is the one of `TimerWheel`, shared with other nodes, and moves
a step at a time; every call that reads the clock is given a reading.

`log` is for the reader only.
-/

namespace Cornet

/-- What an observer sees of a deadline. -/
inductive Deadline.Event
  | arm | fire | reset
  deriving DecidableEq, Repr

/-- `deadline_t`, with the wheel its node is on and what it uses of its canceler. -/
structure Deadline (ν K : Type*) where
  node : ν
  wheel : TimerWheel.Wheel ν K
  budgetNs : ℕ := 0
  fired : Bool := false
  /-- the canceler's latch -/
  cancelled : Bool := false
  /-- `tracked_ops_` of the canceler -/
  tracked : ℕ := 0
  /-- what the counter it was given reads -/
  timeouts : ℕ := 0
  log : List Deadline.Event := []

namespace Deadline

variable {ν K : Type*} [DecidableEq ν]

/-- A millisecond, in nanoseconds. -/
def kMs : ℕ := 1000000

section

variable (s : Deadline ν K)

/-- `wheel_->arm(node_, delay)`. -/
def arm (delay : ℤ) : Deadline ν K :=
  { s with wheel := s.wheel.arm s.node delay, log := s.log ++ [.arm] }

/-- `wheel_->cancel(node_)`. -/
def disarm : Deadline ν K := { s with wheel := s.wheel.cancel s.node }

omit [DecidableEq ν] in
/-- The latch, the counter and the canceler; the node stays where it is. -/
def fire : Deadline ν K :=
  { s with fired := true, cancelled := true, timeouts := s.timeouts + 1, log := s.log ++ [.fire] }

/-- The end of an era of `d` milliseconds from now; none is 0, as is one that wraps around to it. -/
def ending (now : ℕ) (d : ℤ) : ℕ := if 0 < d then (now + d.toNat * kMs) % 2 ^ 64 else 0

/-- `deadline_t::set_budget`. -/
def setBudget (now : ℕ) (d : ℤ) : Deadline ν K :=
  if s.fired then s
  else if ending now d ≠ 0 then { s with budgetNs := ending now d }.arm d
  else { s with budgetNs := 0 }.disarm

omit [DecidableEq ν] in
/-- What is left of the era, in milliseconds, rounded up. -/
def left (now : ℕ) : ℤ := ((s.budgetNs - now) / kMs + 1 : ℕ)

/-- `deadline_t::cap`. -/
def cap (now : ℕ) (d : ℤ) : Deadline ν K :=
  if s.fired then s
  else if s.budgetNs ≠ 0 ∧ s.budgetNs ≤ now then s.fire
  else
    let d := if s.budgetNs ≠ 0 ∧ s.left now < d then s.left now else d
    s.arm (if d ≤ 0 then 1 else d)

/-- `deadline_t::restore_after_op`. -/
def restoreAfterOp (now : ℕ) : Deadline ν K :=
  if s.fired then s
  else if s.budgetNs = 0 then s.disarm
  else if s.budgetNs ≤ now then s.fire
  else s.arm (s.left now)

/-- `deadline_t::reset`. -/
def reset : Except Error (Deadline ν K) :=
  if s.tracked ≠ 0 then .error ⟨eBusy, .system⟩
  else
    .ok { s.disarm with cancelled := false, budgetNs := 0, fired := false, log := s.log ++
                          [.reset] }

/-- `link_node`: an operation is in flight. -/
def start : Deadline ν K := { s with tracked := s.tracked + 1 }

/-- `op_resolved`. -/
def resolve : Deadline ν K := { s with tracked := s.tracked - 1 }

/-- An operation under `with_deadline` ends; one that was never submitted was not tracked. -/
def complete (now : ℕ) (submitted : Bool) : Deadline ν K :=
  if submitted then (s.restoreAfterOp now).resolve else s.restoreAfterOp now

end

/-- What can happen to a deadline. -/
inductive Act (ν : Type*)
  | setBudget (now : ℕ) (d : ℤ)
  | cap (now : ℕ) (d : ℤ)
  | start
  | complete (now : ℕ) (submitted : Bool)
  | resolve
  | reset
  | wheel (a : TimerWheel.Act ν)
  deriving DecidableEq, Repr

section

variable (s : Deadline ν K)

/-- Users run outside of `advance()` and in the callbacks of other nodes; this node's callback is
`fire()`. -/
def free : Bool :=
  match s.wheel.phase with
  | .idle => true
  | .loop _ => false
  | .callback n _ => n ≠ s.node

/-- The callback of this node was just entered. -/
def rings (w : TimerWheel.Wheel ν K) : TimerWheel.Act ν → Bool
  | .visit =>
    match w.phase with
    | .callback n _ => n = s.node
    | _ => false
  | _ => false

/-- The wheel's own moves, and the calls of other users on nodes of their own. -/
def turn (a : TimerWheel.Act ν) : Option (Deadline ν K) :=
  match a with
  | .call o => if s.free ∧ o.node ≠ s.node then some { s with wheel := s.wheel.call o } else none
  | a => (TimerWheel.step s.wheel a).map fun w =>
    if s.rings w a then { s with wheel := w }.fire else { s with wheel := w }

/-- One step. -/
def step : Act ν → Option (Deadline ν K)
  | .setBudget now d => if s.free then some (s.setBudget now d) else none
  | .cap now d => if s.free then some (s.cap now d) else none
  | .start => if s.free ∧ s.cancelled = false then some s.start else none
  | .complete now submitted =>
    if s.free ∧ (submitted → 0 < s.tracked) then some (s.complete now submitted) else none
  | .resolve => if s.free ∧ 0 < s.tracked then some s.resolve else none
  | .reset =>
    if s.free then
      match s.reset with
      | .ok t => some t
      | .error _ => some s
    else none
  | .wheel a => s.turn a

end

/-- The constructor; a budget it is given is a first `set_budget`. -/
def make (node : ν) (tick : ℤ) (onExpire : ν → Bool) (clock : K) : Deadline ν K where
  node := node
  wheel := TimerWheel.make tick (Function.update onExpire node true) clock

/-! ## What a deadline promises -/

section

omit [DecidableEq ν]

/-- What happened since the last reset. -/
def era (log : List Event) : List Event := (log.reverse.takeWhile (· ≠ .reset)).reverse

/-- **Between two resets**: nothing fires twice, and nothing is armed once it has fired. -/
def Clean (before : List Event) : Event → Prop
  | .arm | .fire => .fire ∉ era before
  | .reset => True

/-- A deadline fires once, and then its canceler is cancelled and its node is off the wheel. -/
structure Sound (s : Deadline ν K) : Prop where
  clean : Throughout Clean s.log
  counted : s.timeouts = s.log.count .fire
  latched : s.fired = true → s.cancelled = true ∧ s.wheel.slot s.node = none

end

end Deadline

end Cornet
