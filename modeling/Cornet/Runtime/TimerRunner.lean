import Cornet.Runtime.TimerWheelRuns
import Mathlib.Algebra.Order.Field.Basic

/-!
# Runtime/TimerRunner — when, on the clock, a timer fires (`timer_wheel_t::run`)

    arm at t        first advance after it           the advance it fires in
    ───┼───────────────────┼────── tick ──────┼ ⋯ ──────┼────▸
       t                   f               f + tick     f + (k - 1)·tick

The wheel counts advances, not time.  A runner started by the arming sleeps a whole tick first, so
`f = t + tick`; a runner that is already asleep wakes at **its** next instant, which may be much
sooner, and that partial tick counts as a whole one.  `punctual_of_phased` says which armings are on
time all the same, and `live_runner_fires_early` shows one that is not.
-/

namespace Cornet.TimerWheel

variable {ν K : Type*}

section

variable {w w' : Wheel ν K} {L : ℕ → List ν} {rest : List ν}

/-- Time passes. -/
def Wheel.setClock (w : Wheel ν K) (t : K) : Wheel ν K := { w with clock := t }

@[simp] theorem setClock_tick (t : K) : (w.setClock t).tick = w.tick := rfl
@[simp] theorem setClock_clock (t : K) : (w.setClock t).clock = t := rfl
@[simp] theorem setClock_log (t : K) : (w.setClock t).log = w.log := rfl

variable [DecidableEq ν]

theorem Sim.setClock (h : Sim w L rest) (t : K) : Sim (w.setClock t) L rest :=
  ⟨h.toShape.congr rfl rfl rfl rfl rfl h.cursor_lt, h.suffix, h.walks, h.sched⟩

/-- A node never waits past the advance it is due in. -/
theorem Sim.elapsed_le {n : ν} {a : Arming K} (h : Sim w L rest) (ha : pending w.log n = some a) :
    a.elapsed ≤ due w.tick a.delay := by
  have hs := h.sched n
  cases hslot : w.slot n with
  | none => simp [ha, hslot] at hs
  | some s =>
    simp only [ha, hslot, Option.rel_some_some] at hs
    omega

theorem clock_of_step {a : Act ν} (hst : step w a = some w') : w'.clock = w.clock := by
  cases move_of_step hst with
  | call o =>
    cases o with
    | arm n delay => exact arm_clock w n delay
    | cancel n => exact cancel_clock w n
  | expire n => exact unlink_clock w n
  | _ => rfl

/-- Between the two ends of an `advance()` the wheel is not idle. -/
theorem phase_of_step {a : Act ν} (hst : step w a = some w') (hcall : ∀ o, a ≠ .call o)
    (hadv : a ≠ .advance) : w.phase ≠ .idle := by
  cases move_of_step hst with
  | call o => exact absurd rfl (hcall o)
  | advance => exact absurd rfl hadv
  | skip n hphase | expire n hphase | ret n x hphase | done hphase =>
    rw [hphase]
    simp

/-- What a step that is neither a call nor the start of an advance logs leaves every other arming
alone. -/
theorem pending_of_step {a : Act ν} {n : ν} {x : Arming K} (hst : step w a = some w')
    (hcall : ∀ o, a ≠ .call o) (hadv : a ≠ .advance) (hp : pending w'.log n = some x) :
    pending w.log n = some x := by
  cases move_of_step hst with
  | call o => exact absurd rfl (hcall o)
  | advance => exact absurd rfl hadv
  | skip | ret => exact hp
  | expire m =>
    rw [expire_log, pending_snoc, observe] at hp
    split at hp
    · cases hp
    · exact hp
  | done =>
    rw [Wheel.finish, Wheel.record, pending_snoc] at hp
    exact hp

end

variable [DecidableEq ν] [Field K] [LinearOrder K]

/-- A wheel and its runner.  `wake` is when the runner calls `advance()` next; while it is `none` no
runner lives. -/
structure Runner (ν K : Type*) where
  wheel : Wheel ν K
  wake : Option K

namespace Runner

variable (r : Runner ν K) (t : K)

/-- When a step can be taken: `advance()` starts when the runner wakes, users call at any instant
until then, and what happens inside `advance()` takes no time. -/
def Enabled (a : Act ν) : Prop :=
  if a = .advance then r.wake = some t
  else if r.wheel.phase = .idle then r.wheel.clock ≤ t ∧ ∀ u ∈ r.wake, t ≤ u
  else t = r.wheel.clock

/-- `ensure_runner` and the loop of `run`: an arm on an idle wheel starts a runner, a runner sleeps
one tick between two advances, and it leaves when an advance ends with nothing armed. -/
def wakeAfter (w : Wheel ν K) : Act ν → Option K
  | .call (.arm _ _) => some (r.wake.getD (t + w.tick))
  | .advance => some (t + w.tick)
  | .done => if w.armed = 0 then none else r.wake
  | _ => r.wake

instance (a : Act ν) : Decidable (r.Enabled t a) := by
  unfold Enabled
  infer_instance

/-- One step, at an instant. -/
def step (r : Runner ν K) (p : K × Act ν) : Option (Runner ν K) :=
  if r.Enabled p.1 p.2 then
    (TimerWheel.step (r.wheel.setClock p.1) p.2).map fun w => ⟨w, r.wakeAfter p.1 w p.2⟩
  else none

end Runner

/-- What is left of a delay behind its last whole tick: between one millisecond and a tick. -/
def lastPart (tick : ℕ) (delay : ℤ) : ℕ := (delay.toNat - 1) % tick + 1

/-- Calls that spare the walk and arm for a positive delay. -/
def Careful (r : Runner ν K) (p : K × Act ν) : Prop :=
  Sparing r.wheel p.2 ∧
    match p.2 with
    | .call (.arm _ delay) => 0 < delay
    | _ => True

/-- The call leaves the last part of its delay before the instant the sleeping runner wakes at.  A
call that starts the runner, or that is made from a callback, always does. -/
def Runner.InStep (r : Runner ν K) (p : K × Act ν) : Prop :=
  match p.2 with
  | .call (.arm _ delay) =>
    r.wheel.phase = .idle → ∀ u ∈ r.wake, p.1 + lastPart r.wheel.tick delay ≤ u
  | _ => True

/-- **The armings that are on time.** -/
def Phased (r : Runner ν K) (p : K × Act ν) : Prop := Careful r p ∧ r.InStep p

/-- A timer armed at `since` for `delay` fires within a tick from then on. -/
def Punctual (tick : ℕ) (before : List (K × Event ν)) : K × Event ν → Prop
  | (u, .fire n) => ∃ a, pending before n = some a ∧
      a.since + a.delay ≤ u ∧ u < a.since + a.delay + tick
  | _ => True

/-! ## The invariant -/

variable {r r' : Runner ν K}

theorem due_mul {tick : ℕ} {delay : ℤ} (htick : 0 < tick) (h : 0 < delay) :
    delay + tick = due tick delay * tick + lastPart tick delay := by
  obtain ⟨d, rfl⟩ := Int.eq_ofNat_of_zero_le h.le
  have hd : 0 < d := by omega
  have hq : (d + tick - 1) / tick = (d - 1) / tick + 1 := by
    rw [show d + tick - 1 = d - 1 + tick by omega, Nat.add_div_right _ htick]
  have hdm := Nat.div_add_mod (d - 1) tick
  simp only [due, lastPart, Int.toNat_natCast, Nat.ceilDiv_eq_add_pred_div, hq,
    Nat.max_eq_right (Nat.le_add_left 1 _)]
  generalize (d - 1) / tick = q at hdm ⊢
  generalize (d - 1) % tick = m at hdm ⊢
  obtain rfl : d = tick * q + m + 1 := by omega
  push_cast
  ring

theorem lastPart_le {tick : ℕ} (htick : 0 < tick) (delay : ℤ) : lastPart tick delay ≤ tick :=
  Nat.mod_lt _ htick

/-- An arming that stands was made far enough before the instant it counts from, which its runner
has kept to. -/
structure Timed (r : Runner ν K) : Prop where
  sim : ∃ L rest, Sim r.wheel L rest
  onTime : Throughout (OnTime r.wheel.tick) r.wheel.log
  busy : r.wheel.phase ≠ .idle → r.wake = some (r.wheel.clock + r.wheel.tick)
  waits : ∀ u ∈ r.wake, r.wheel.clock ≤ u ∧ u ≤ r.wheel.clock + r.wheel.tick
  start : ∀ n a, pending r.wheel.log n = some a → 0 < a.delay ∧
    ∃ f : K, r.wake = some (f + a.elapsed * r.wheel.tick) ∧
      a.since + lastPart r.wheel.tick a.delay ≤ f ∧ f ≤ a.since + r.wheel.tick

/-- A runner's step is a step of its wheel, at an instant it is enabled at. -/
theorem Runner.step_eq {t : K} {a : Act ν} (hst : r.step (t, a) = some r') :
    r.Enabled t a ∧ TimerWheel.step (r.wheel.setClock t) a = some r'.wheel ∧
      r'.wake = r.wakeAfter t r'.wheel a := by
  unfold Runner.step at hst
  split at hst
  · obtain ⟨w, hw, rfl⟩ := Option.map_eq_some_iff.mp hst
    exact ⟨‹_›, hw, rfl⟩
  · cases hst

/-- A step is taken no earlier than the last one, and before the runner's next instant is over. -/
theorem Timed.enabled_le {t : K} {a : Act ν} (h : Timed r) (hen : r.Enabled t a) :
    (∀ u ∈ r.wake, t ≤ u) ∧ r.wheel.clock ≤ t := by
  unfold Runner.Enabled at hen
  split at hen
  · refine ⟨fun u hu => ?_, (h.waits t hen).1⟩
    rw [hen] at hu
    exact (Option.some.inj hu).le
  · split at hen
    · exact ⟨hen.2, hen.1⟩
    · exact ⟨fun u hu => hen ▸ (h.waits u hu).1, hen.ge⟩

variable [IsStrictOrderedRing K]

theorem due_mul_cast {tick : ℕ} {delay : ℤ} (htick : 0 < tick) (h : 0 < delay) :
    (delay : K) + tick = due tick delay * tick + lastPart tick delay := by
  exact_mod_cast due_mul htick h

/-- An instant that is no further than the advance an arming fires in is in time. -/
theorem lt_of_start {tick : ℕ} {a : Arming K} {f u : K} (htick : 0 < tick) (hd : 0 < a.delay)
    (hhigh : f ≤ a.since + tick) (hu : u + tick ≤ f + due tick a.delay * tick) :
    u < a.since + a.delay + tick := by
  have hmul := due_mul_cast (K := K) htick hd
  have hpos : (1 : K) ≤ lastPart tick a.delay := by exact_mod_cast Nat.le_add_left 1 _
  linarith

/-- Where the instant of a new arming comes from. -/
theorem Timed.start_arm {t : K} {n : ν} {delay : ℤ} (h : Timed r)
    (hok : Phased r (t, .call (.arm n delay)))
    (hen : r.Enabled t (.call (.arm n delay))) :
    t + lastPart r.wheel.tick delay ≤ r.wake.getD (t + r.wheel.tick) ∧
      r.wake.getD (t + r.wheel.tick) ≤ t + r.wheel.tick := by
  have hlast : (lastPart r.wheel.tick delay : K) ≤ r.wheel.tick := by
    exact_mod_cast lastPart_le r.wheel.tick_pos delay
  cases hwake : r.wake with
  | none => simpa using hlast
  | some u =>
    simp only [Option.getD_some]
    by_cases hphase : r.wheel.phase = .idle
    · have hle := (h.waits u hwake).2
      have hclock := (h.enabled_le hen).2
      exact ⟨hok.2 hphase u hwake, by linarith⟩
    · have hbusy := h.busy hphase
      rw [hwake] at hbusy
      obtain rfl := Option.some.inj hbusy
      obtain rfl : t = r.wheel.clock := by simpa [Runner.Enabled, hphase] using hen
      exact ⟨by linarith, le_rfl⟩

theorem Timed.arm {t : K} {n : ν} {delay : ℤ} (h : Timed r)
    (hok : Phased r (t, .call (.arm n delay)))
    (hen : r.Enabled t (.call (.arm n delay)))
    (hsim : ∃ L rest, Sim ((r.wheel.setClock t).arm n delay) L rest)
    (honTime : Throughout (OnTime r.wheel.tick) ((r.wheel.setClock t).arm n delay).log) :
    Timed ⟨(r.wheel.setClock t).arm n delay, some (r.wake.getD (t + r.wheel.tick))⟩ where
  sim := hsim
  onTime := by simpa using honTime
  busy hphase := by
    rw [arm_phase] at hphase
    have ht : t = r.wheel.clock :=
      by simpa [Runner.Enabled, show r.wheel.phase ≠ .idle from hphase] using hen
    simp [h.busy hphase, ht, Wheel.setClock]
  waits u hu := by
    obtain rfl := Option.some.inj hu
    rw [arm_clock, arm_tick]
    refine ⟨?_, (h.start_arm hok hen).2⟩
    cases hwake : r.wake with
    | none => simp [Wheel.setClock]
    | some u => exact (h.enabled_le hen).1 u hwake
  start m a ha := by
    rw [arm_tick]
    rw [arm_log, pending_snoc, observe] at ha
    split at ha
    · obtain rfl := Option.some.inj ha
      have hstart := h.start_arm hok hen
      exact ⟨hok.1.2, _, by simp [Wheel.setClock], hstart.1, hstart.2⟩
    · obtain ⟨hpos, f, hwake, hf⟩ := h.start m a ha
      exact ⟨hpos, f, by simp [hwake, Wheel.setClock], hf⟩

theorem Timed.cancel {t : K} {n : ν} (h : Timed r) (hen : r.Enabled t (.call (.cancel n)))
    (hsim : ∃ L rest, Sim ((r.wheel.setClock t).cancel n) L rest)
    (honTime : Throughout (OnTime r.wheel.tick) ((r.wheel.setClock t).cancel n).log) :
    Timed ⟨(r.wheel.setClock t).cancel n, r.wake⟩ where
  sim := hsim
  onTime := by simpa using honTime
  busy hphase := by
    rw [cancel_phase] at hphase
    have ht : t = r.wheel.clock :=
      by simpa [Runner.Enabled, show r.wheel.phase ≠ .idle from hphase] using hen
    simp [h.busy hphase, ht, Wheel.setClock]
  waits u hu := by
    rw [cancel_clock, cancel_tick]
    obtain ⟨hle, hclock⟩ := h.enabled_le hen
    refine ⟨hle u hu, ?_⟩
    have hhigh := (h.waits u hu).2
    simp only [Wheel.setClock]
    linarith
  start m a ha := by
    rw [cancel_tick]
    rw [cancel_log, pending_snoc, observe] at ha
    split at ha
    · cases ha
    · exact h.start m a ha

theorem Timed.advance {t : K} (h : Timed r) (hen : r.Enabled t .advance)
    (hsim : ∃ L rest, Sim (r.wheel.setClock t).advance L rest)
    (honTime : Throughout (OnTime r.wheel.tick) (r.wheel.setClock t).advance.log) :
    Timed ⟨(r.wheel.setClock t).advance, some (t + r.wheel.tick)⟩ where
  sim := hsim
  onTime := honTime
  busy _ := rfl
  waits u hu := by
    obtain rfl := Option.some.inj hu
    exact ⟨by simp [Wheel.advance, Wheel.record, Wheel.setClock], le_rfl⟩
  start m a ha := by
    rw [Wheel.advance, Wheel.record, pending_snoc, observe] at ha
    obtain ⟨b, hb, rfl⟩ := Option.map_eq_some_iff.mp ha
    obtain ⟨hpos, f, hwake, hf⟩ := h.start m b hb
    have ht : r.wake = some t := by simpa [Runner.Enabled] using hen
    obtain rfl : t = f + b.elapsed * r.wheel.tick := Option.some.inj (ht.symm.trans hwake)
    refine ⟨hpos, f, ?_, hf⟩
    simp only [Wheel.advance, Wheel.record, Wheel.setClock]
    push_cast
    ring_nf

omit [IsStrictOrderedRing K] in
/-- Inside `advance()` the clock stands still, and so does the runner. -/
theorem Timed.inside {a : Act ν} {w : Wheel ν K} (h : Timed r) (hcall : ∀ o, a ≠ .call o)
    (hadv : a ≠ .advance)
    (hst : step r.wheel a = some w) (htick : w.tick = r.wheel.tick) (hsim : ∃ L rest, Sim w L rest)
    (honTime : Throughout (OnTime w.tick) w.log) : Timed ⟨w, r.wake⟩ where
  sim := hsim
  onTime := honTime
  busy _ := by rw [h.busy (phase_of_step hst hcall hadv), clock_of_step hst, htick]
  waits u hu := by
    rw [clock_of_step hst, htick]
    exact h.waits u hu
  start m a ha := by
    rw [htick]
    exact h.start m a (pending_of_step hst hcall hadv ha)

/-- **What fires is punctual**: it counted its advances from an instant early enough. -/
theorem Timed.punctual {n : ν} {a : Arming K} (h : Timed r) (hphase : r.wheel.phase ≠ .idle)
    (ha : pending r.wheel.log n = some a) (hdue : a.elapsed = due r.wheel.tick a.delay) :
    a.since + a.delay ≤ r.wheel.clock ∧ r.wheel.clock < a.since + a.delay + r.wheel.tick := by
  obtain ⟨hpos, f, hwake, hlow, hhigh⟩ := h.start n a ha
  have hu : r.wheel.clock + r.wheel.tick = f + due r.wheel.tick a.delay * r.wheel.tick := by
    rw [← hdue]
    exact Option.some.inj ((h.busy hphase).symm.trans hwake)
  have hmul := due_mul_cast (K := K) r.wheel.tick_pos hpos
  exact ⟨by linarith, lt_of_start r.wheel.tick_pos hpos hhigh hu.le⟩

/-- The clock has not passed the advance an arming fires in. -/
theorem Timed.clock_le {n : ν} {a : Arming K} {f : K} (h : Timed r)
    (ha : pending r.wheel.log n = some a)
    (hwake : r.wake = some (f + a.elapsed * r.wheel.tick)) :
    r.wheel.clock + r.wheel.tick ≤ f + due r.wheel.tick a.delay * r.wheel.tick := by
  obtain ⟨L, rest, hsim⟩ := h.sim
  have htick : (0 : K) ≤ r.wheel.tick := Nat.cast_nonneg _
  by_cases hphase : r.wheel.phase = .idle
  · have hwalks := hsim.walks
    rw [hphase] at hwalks
    obtain rfl : rest = [] := hwalks
    have hlt : (a.elapsed : K) + 1 ≤ due r.wheel.tick a.delay := by exact_mod_cast hsim.done n a ha
    have hclock := (h.waits _ hwake).1
    nlinarith
  · have hle : (a.elapsed : K) ≤ due r.wheel.tick a.delay := by exact_mod_cast hsim.elapsed_le ha
    have hbusy := Option.some.inj ((h.busy hphase).symm.trans hwake)
    nlinarith

omit [IsStrictOrderedRing K] in
/-- A runner leaves only when nothing is pending. -/
theorem Timed.leave (h : Timed r) (hphase : r.wheel.phase = .idle) (harmed : r.wheel.armed = 0) :
    Timed { r with wake := none } where
  sim := h.sim
  onTime := h.onTime
  busy hne := absurd hphase hne
  waits u hu := by cases hu
  start n a ha := by
    obtain ⟨L, rest, hsim⟩ := h.sim
    obtain ⟨F, hF, hmem⟩ := hsim.counted
    have hsched := hsim.sched n
    rw [Finset.card_eq_zero.mp (hF.trans harmed)] at hmem
    have hslot : r.wheel.slot n = none := by simpa using hmem n
    simp [ha, hslot] at hsched

/-- **One step.**  The armings keep to their instants, and what fires is punctual. -/
theorem timed_step {t : K} {a : Act ν} (h : Timed r) (hok : Phased r (t, a))
    (hlog : Throughout (Punctual r.wheel.tick) r.wheel.log) (hst : r.step (t, a) = some r') :
    Timed r' ∧ r'.wheel.tick = r.wheel.tick ∧ Throughout (Punctual r.wheel.tick) r'.wheel.log := by
  obtain ⟨hen, hw, hwake⟩ := Runner.step_eq hst
  obtain ⟨L, rest, hsim⟩ := h.sim
  obtain ⟨htick, honTime, hsim'⟩ := sim_step (hsim.setClock t) hok.1.1 h.onTime hw
  replace hsim' : ∃ L rest, Sim r'.wheel L rest := hsim'.imp fun L ⟨rest, hs, _⟩ => ⟨rest, hs⟩
  obtain ⟨w, wake⟩ := r'
  dsimp only at *
  subst hwake
  by_cases hcall : ∃ o, a = .call o
  · obtain ⟨o, rfl⟩ := hcall
    cases move_of_step hw with
    | call o hphase =>
      cases o with
      | arm n delay =>
        have harm := h.arm hok hen hsim' honTime
        refine ⟨by simpa [Wheel.call, Runner.wakeAfter] using harm, htick, ?_⟩
        rw [Wheel.call, arm_log]
        exact hlog.snoc trivial
      | cancel n =>
        refine ⟨h.cancel hen hsim' honTime, htick, ?_⟩
        rw [Wheel.call, cancel_log]
        exact hlog.snoc trivial
  by_cases hadv : a = .advance
  · subst hadv
    cases move_of_step hw with
    | advance => exact ⟨h.advance hen hsim' honTime, htick, hlog.snoc trivial⟩
  -- the clock has not moved since the advance began
  have hcall' : ∀ o, a ≠ .call o := fun o ho => hcall ⟨o, ho⟩
  have hphase : (r.wheel.setClock t).phase ≠ .idle := phase_of_step hw hcall' hadv
  obtain rfl : t = r.wheel.clock := by
    simpa [Runner.Enabled, show r.wheel.phase ≠ .idle from hphase, hadv] using hen
  replace hw : step r.wheel a = some w := hw
  have hin := h.inside hcall' hadv hw htick hsim' (htick ▸ honTime)
  cases move_of_step hw with
  | call o => exact absurd rfl (hcall' o)
  | advance => exact absurd rfl hadv
  | skip | ret => exact ⟨hin, htick, hlog⟩
  | expire n _ hr =>
    refine ⟨hin, htick, ?_⟩
    rw [expire_log] at honTime ⊢
    obtain ⟨a, ha, hdue⟩ := honTime _ _ [] rfl
    exact hlog.snoc ⟨a, ha, h.punctual hphase ha hdue⟩
  | done =>
    refine ⟨?_, htick, hlog.snoc trivial⟩
    by_cases harmed : r.wheel.armed = 0
    · have hleave := hin.leave rfl harmed
      simpa [Runner.wakeAfter, harmed, Wheel.finish, Wheel.record, Wheel.setClock] using hleave
    · simpa [Runner.wakeAfter, harmed, Wheel.finish, Wheel.record, Wheel.setClock] using hin

/-- A wheel nobody has armed yet. -/
def Runner.start (tick : ℤ) (onExpire : ν → Bool) (clock : K) : Runner ν K :=
  ⟨make tick onExpire clock, none⟩

omit [IsStrictOrderedRing K] in
theorem timed_start (tick : ℤ) (onExpire : ν → Bool) (clock : K) :
    Timed (Runner.start tick onExpire clock) where
  sim := ⟨_, _, sim_make tick onExpire clock⟩
  onTime := throughout_nil
  busy h := absurd rfl h
  waits u hu := by cases hu
  start n a ha := by simp [Runner.start, make, pending] at ha

theorem timed_run {tick : ℤ} {onExpire : ν → Bool} {clock : K} {as : List (K × Act ν)}
    (hrun : Run Runner.step Phased (Runner.start tick onExpire clock) as r) :
    Timed r ∧ Throughout (Punctual r.wheel.tick) r.wheel.log := by
  refine hrun.invariant (I := fun r => Timed r ∧ Throughout (Punctual r.wheel.tick) r.wheel.log)
    ⟨timed_start tick onExpire clock, throughout_nil⟩ fun {s} {a} {s'} hI hok hst => ?_
  obtain ⟨hT, htick, hlog⟩ := timed_step hI.1 hok hI.2 hst
  exact ⟨hT, htick ▸ hlog⟩

/-- **Timers that are armed in step with the runner fire on time.**  In every run whose armings
leave the last part of their delay before the runner's next instant, what fires does so at an
instant in `[since + delay, since + delay + tick)`; and while an arming stands its runner lives, and
the clock has not passed that interval. -/
theorem punctual_of_phased {tick : ℤ} {onExpire : ν → Bool} {clock : K} {as : List (K × Act ν)}
    (hrun : Run Runner.step Phased (Runner.start tick onExpire clock) as r) :
    Throughout (Punctual r.wheel.tick) r.wheel.log ∧ ∀ n a, pending r.wheel.log n = some a →
      r.wake.isSome ∧ r.wheel.clock < a.since + a.delay + r.wheel.tick := by
  obtain ⟨hT, hlog⟩ := timed_run hrun
  refine ⟨hlog, fun n a ha => ?_⟩
  obtain ⟨hpos, f, hwake, hlow, hhigh⟩ := hT.start n a ha
  exact ⟨by simp [hwake], lt_of_start r.wheel.tick_pos hpos hhigh (hT.clock_le ha hwake)⟩

instance (r : Runner ν K) : ∀ p, Decidable (Careful r p)
  | (_, .call (.arm n delay)) =>
    inferInstanceAs (Decidable (Sparing r.wheel (.call (.arm n delay)) ∧ 0 < delay))
  | (_, .call (.cancel n)) =>
    inferInstanceAs (Decidable (Sparing r.wheel (.call (.cancel n)) ∧ True))
  | (_, .advance) | (_, .visit) | (_, .ret) | (_, .done) =>
    inferInstanceAs (Decidable (True ∧ True))

instance (r : Runner ν K) : ∀ p, Decidable (r.InStep p)
  | (t, .call (.arm _ delay)) => inferInstanceAs
      (Decidable (r.wheel.phase = .idle → ∀ u ∈ r.wake, t + lastPart r.wheel.tick delay ≤ u))
  | (_, .call (.cancel _)) | (_, .advance) | (_, .visit) | (_, .ret) | (_, .done) =>
      inferInstanceAs (Decidable True)

instance (r : Runner ν K) (p : K × Act ν) : Decidable (Phased r p) :=
  inferInstanceAs (Decidable (Careful r p ∧ r.InStep p))

/-- On a 10 ms wheel, a timer of 14 ms is armed 5 ms after the runner was started and fires 15 ms
later. -/
theorem punctual_of_phased_midway : ∃ as, ∃ r : Runner ℕ ℚ,
    Run Runner.step Phased (Runner.start 10 (fun _ => true) 0) as r ∧
      Throughout (Punctual r.wheel.tick) r.wheel.log ∧
      r.wheel.log = [(0, .arm 0 30), (5, .arm 1 14), (10, .tick), (10, .tock), (20, .tick),
        (20, .fire 1)] :=
  ⟨[(0, .call (.arm 0 30)), (5, .call (.arm 1 14)), (10, .advance), (10, .done), (20, .advance),
    (20, .visit)],
    Run.exists_and_of_mem (fun h => (punctual_of_phased h).1) (by decide +kernel)⟩

/-- **A timer fires early.**  The runner was started at 0 and wakes at 10; a timer of 10 ms armed at
9 fires with it, 1 ms later. -/
theorem live_runner_fires_early : ∃ as, ∃ r : Runner ℕ ℚ,
    Run Runner.step Careful (Runner.start 10 (fun _ => true) 0) as r ∧
      ¬ Throughout (Punctual r.wheel.tick) r.wheel.log := by
  have hend : ∃ r ∈ exec Runner.step Careful (Runner.start 10 (fun _ => true) 0 : Runner ℕ ℚ) [(0,
    .call (.arm 0 10)),
      (9, .call (.arm 1 10)), (10, .advance), (10, .visit)],
      r.wheel.log = [(0, .arm 0 10), (9, .arm 1 10), (10, .tick), (10, .fire 1)] := by
    decide +kernel
  obtain ⟨r, hr, hlog⟩ := hend
  refine ⟨_, r, .of_exec hr, fun htime => ?_⟩
  obtain ⟨a, ha, hlow, -⟩ := htime [(0, .arm 0 10), (9, .arm 1 10), (10, .tick)] (10, .fire 1)
    [] hlog
  obtain rfl : (⟨9, 10, 1⟩ : Arming ℚ) = a := by simpa [pending, observe] using ha
  norm_num at hlow

end Cornet.TimerWheel
