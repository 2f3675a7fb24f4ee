import Mathlib.Algebra.Order.Floor.Div
import Cornet.Machinery.Run
import Cornet.Machinery.Dll

/-!
# Runtime/TimerWheel — the hashed timing wheel (`src/timer_wheel.cc`)

    slots:  0   1   ⋯   cursor  cursor+1  ⋯   511          each slot heads a doubly linked list
                          ▴        └──── where `advance()` looks next

A node armed for `ticks` advances goes to the slot the cursor reaches `ticks` advances on, and waits
there for `rounds` more visits.  `advance()` walks one slot with a saved `next` pointer and calls
back into its users, who may arm and cancel whatever they like before the walk goes on: the walk is
a state machine whose `Phase` carries the local variables of the loop.  Nodes are names `ν`; a field
of `timer_node_t` is a function on them.

`log` and `clock` are for the reader only: no operation reads them.
-/

namespace Cornet.TimerWheel

def kSlots : ℕ := 512

/-- `kDefaultTick`, in milliseconds. -/
def kDefaultTick : ℕ := 500

variable {ν K : Type*}

/-- What an observer sees of a wheel: calls, the two ends of an `advance()`, and expiries. -/
inductive Event (ν : Type*)
  | arm (node : ν) (delay : ℤ)
  | cancel (node : ν)
  | tick
  | fire (node : ν)
  | tock
  deriving DecidableEq, Repr

/-- The calls a user may make, from outside or from a callback. -/
inductive Op (ν : Type*)
  | arm (node : ν) (delay : ℤ)
  | cancel (node : ν)
  deriving DecidableEq, Repr

def Op.node : Op ν → ν
  | .arm n _ => n
  | .cancel n => n

/-- Where the owning thread stands: outside `advance()`, at its loop test, or inside the callback of
`node` with `next` saved on the stack. -/
inductive Phase (ν : Type*)
  | idle
  | loop (node : Option ν)
  | callback (node : ν) (next : Option ν)
  deriving DecidableEq, Repr

/-- `timer_wheel_t`, with the fields of every `timer_node_t`. -/
structure Wheel (ν K : Type*) where
  tick : ℕ
  tick_pos : 0 < tick
  prev : ν → Option ν := fun _ => none
  next : ν → Option ν := fun _ => none
  rounds : ν → ℕ := fun _ => 0
  /-- `none` is the source's `-1` -/
  slot : ν → Option ℕ := fun _ => none
  /-- whether `on_expire` is set -/
  onExpire : ν → Bool
  slots : ℕ → Option ν := fun _ => none
  cursor : ℕ := 0
  armed : ℕ := 0
  ticks : ℕ := 0
  phase : Phase ν := .idle
  clock : K
  log : List (K × Event ν) := []

/-- The constructor: a tick that is not positive falls back to the default. -/
def make (tick : ℤ) (onExpire : ν → Bool) (clock : K) : Wheel ν K where
  tick := if 0 < tick then tick.toNat else kDefaultTick
  tick_pos := by split <;> simp_all [kDefaultTick]
  onExpire := onExpire
  clock := clock

/-- The advances after which a timer of this delay is to fire. -/
def due (tick : ℕ) (delay : ℤ) : ℕ := max 1 (delay.toNat ⌈/⌉ tick)

namespace Wheel

variable [DecidableEq ν] (w : Wheel ν K) (n : ν)

def record (e : Event ν) : Wheel ν K := { w with log := w.log ++ [(w.clock, e)] }

/-- `p->field = v`, where `p` may be null. -/
def store (f : ν → Option ν) : Option ν → Option ν → ν → Option ν
  | none, _ => f
  | some m, v => Function.update f m v

/-- `timer_wheel_t::link`. -/
def link (s : ℕ) : Wheel ν K :=
  { w with
    slot := Function.update w.slot n (some s)
    prev := store (Function.update w.prev n none) (w.slots s) (some n)
    next := Function.update w.next n (w.slots s)
    slots := Function.update w.slots s (some n)
    armed := w.armed + 1 }

/-- `timer_wheel_t::unlink`. -/
def unlink : Wheel ν K :=
  match w.slot n with
  | none => w
  | some s =>
    { w with
      next := Function.update (store w.next (w.prev n) (w.next n)) n none
      prev := Function.update (store w.prev (w.next n) (w.prev n)) n none
      slots := if w.prev n = none then Function.update w.slots s (w.next n) else w.slots
      slot := Function.update w.slot n none
      armed := w.armed - 1 }

/-- `uint64_t((delay + tick_ - 1ms) / tick_)`, at least one.  The sum is one of 64-bit milliseconds,
and the quotient truncates towards zero. -/
def ticksFor (tick : ℕ) (delay : ℤ) : ℕ :=
  let ticks := (((delay + tick - 1).bmod (2 ^ 64)).tdiv tick % 2 ^ 64).toNat
  if ticks = 0 then 1 else ticks

/-- The part of `arm` behind its `unlink`; `rounds` is 32 bits wide. -/
def place (delay : ℤ) : Wheel ν K :=
  let ticks := ticksFor w.tick delay
  { w with rounds := Function.update w.rounds n ((ticks - 1) / kSlots % 2 ^ 32) }.link n
    ((w.cursor + ticks) % kSlots)

/-- `timer_wheel_t::arm`. -/
def arm (delay : ℤ) : Wheel ν K := ((w.unlink n).place n delay).record (.arm n delay)

/-- `timer_wheel_t::cancel`. -/
def cancel : Wheel ν K := (w.unlink n).record (.cancel n)

def call : Op ν → Wheel ν K
  | .arm n delay => w.arm n delay
  | .cancel n => w.cancel n

/-- The head of `advance()`: the cursor moves, and the walk starts at the slot it reaches. -/
def advance : Wheel ν K :=
  { w with
    cursor := (w.cursor + 1) % kSlots
    ticks := w.ticks + 1
    phase := .loop (w.slots ((w.cursor + 1) % kSlots)) }.record .tick

/-- A node that still has laps to wait. -/
def skip : Wheel ν K :=
  { w with rounds := Function.update w.rounds n (w.rounds n - 1), phase := .loop (w.next n) }

/-- A node that is due: `next` is saved, the node leaves the wheel, and its callback is entered. -/
def expire : Wheel ν K :=
  { w.unlink n with phase := if w.onExpire n then .callback n (w.next n)
                      else .loop (w.next n) }.record
    (.fire n)

/-- `node = next`. -/
def goOn (next : Option ν) : Wheel ν K := { w with phase := .loop next }

/-- The return from `advance()`. -/
def finish : Wheel ν K := { w with phase := .idle }.record .tock

end Wheel

/-- Who moves: a user calls, the runner enters `advance()`, the loop takes a turn, a callback
returns, the loop ends. -/
inductive Act (ν : Type*)
  | call (o : Op ν)
  | advance
  | visit
  | ret
  | done
  deriving DecidableEq, Repr

/-- One step of the wheel.  Users run outside `advance()` and inside its callbacks, never in
between. -/
def step [DecidableEq ν] (w : Wheel ν K) : Act ν → Option (Wheel ν K)
  | .call o =>
    match w.phase with
    | .loop _ => none
    | _ => some (w.call o)
  | .advance => if w.phase = .idle then some w.advance else none
  | .visit =>
    match w.phase with
    | .loop (some n) => if 0 < w.rounds n then some (w.skip n) else some (w.expire n)
    | _ => none
  | .ret =>
    match w.phase with
    | .callback _ next => some (w.goOn next)
    | _ => none
  | .done => if w.phase = .loop none then some w.finish else none

/-- What a step can be, one constructor per way through the code. -/
inductive Move [DecidableEq ν] (w : Wheel ν K) : Act ν → Wheel ν K → Prop
  | call (o : Op ν) (hphase : ∀ x, w.phase ≠ .loop x) : Move w (.call o) (w.call o)
  | advance (hphase : w.phase = .idle) : Move w .advance w.advance
  | skip (n : ν) (hphase : w.phase = .loop (some n)) (hr : 0 < w.rounds n) : Move w .visit
    (w.skip n)
  | expire (n : ν) (hphase : w.phase = .loop (some n)) (hr : w.rounds n = 0) : Move w .visit
    (w.expire n)
  | ret (n : ν) (x : Option ν) (hphase : w.phase = .callback n x) : Move w .ret (w.goOn x)
  | done (hphase : w.phase = .loop none) : Move w .done w.finish

theorem move_of_step [DecidableEq ν] {w w' : Wheel ν K} {a : Act ν} (hst : step w a = some w') :
    Move w a w' := by
  cases a with
  | call o =>
    obtain ⟨hphase, rfl⟩ : (∀ x, w.phase ≠ .loop x) ∧ w.call o = w' := by
      cases hp : w.phase <;> simp_all [step]
    exact .call o hphase
  | advance =>
    obtain ⟨hphase, rfl⟩ : w.phase = .idle ∧ w.advance = w' := by simpa [step] using hst
    exact .advance hphase
  | visit =>
    obtain ⟨n, hphase⟩ : ∃ n, w.phase = .loop (some n) := by
      cases hp : w.phase with
      | loop x => cases x <;> simp_all [step]
      | _ => simp_all [step]
    simp only [step, hphase] at hst
    split at hst
    · obtain rfl := Option.some.inj hst
      exact .skip n hphase ‹_›
    · obtain rfl := Option.some.inj hst
      exact .expire n hphase (Nat.eq_zero_of_not_pos ‹_›)
  | ret =>
    obtain ⟨n, x, hphase⟩ : ∃ n x, w.phase = .callback n x := by
      cases hp : w.phase <;> simp_all [step]
    obtain rfl : w.goOn x = w' := by simpa [step, hphase] using hst
    exact .ret n x hphase
  | done =>
    obtain ⟨hphase, rfl⟩ : w.phase = .loop none ∧ w.finish = w' := by simpa [step] using hst
    exact .done hphase

/-! ## What the log says a node is waiting for -/

/-- An arming that has neither fired nor been called off: when it was made, for how long, and how
many times the wheel has advanced since. -/
structure Arming (K : Type*) where
  since : K
  delay : ℤ
  elapsed : ℕ
  deriving DecidableEq, Repr

section

variable [DecidableEq ν]

def observe (n : ν) (o : Option (Arming K)) : K × Event ν → Option (Arming K)
  | (t, .arm m delay) => if m = n then some ⟨t, delay, 0⟩ else o
  | (_, .cancel m) => if m = n then none else o
  | (_, .tick) => o.map fun a => { a with elapsed := a.elapsed + 1 }
  | (_, .fire m) => if m = n then none else o
  | (_, .tock) => o

/-- The arming of a node that stands at the end of a log. -/
def pending (log : List (K × Event ν)) (n : ν) : Option (Arming K) := log.foldl (observe n) none

/-- **What an entry of the log owes the ones before it.**  A node fires in the very advance its
latest arming asked for, and an advance leaves behind no node that should have fired. -/
def OnTime (tick : ℕ) (before : List (K × Event ν)) : K × Event ν → Prop
  | (_, .fire n) => ∃ a, pending before n = some a ∧ a.elapsed = due tick a.delay
  | (_, .tock) => ∀ n a, pending before n = some a → a.elapsed < due tick a.delay
  | _ => True

theorem pending_snoc (log : List (K × Event ν)) (e : K × Event ν) (n : ν) :
    pending (log ++ [e]) n = observe n (pending log n) e := by
  rw [pending, pending, List.foldl_append]
  rfl

end

end Cornet.TimerWheel
