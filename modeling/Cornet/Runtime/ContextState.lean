import Cornet.Machinery.Run

/-!
# Runtime/ContextState — stopping a context while it starts (`src/context.cc`)

    run():       ── CAS Terminated → Running ──▸  loop  ── store Canceling ──▸ ⋯ ── store Terminated ──▸
    stop():      ── CAS Running → Canceling ──┐ failed, saw `seen`
                                              └── CAS seen → Canceling ──▸ return
    shutdown():  ── CAS Running → Draining ───┐ failed
                                              └── CAS Terminated → Canceling ──▸ return

Each request is **two** compare-exchanges, each aimed at one value.  If `run()` moves from
`Terminated` to `Running` between the two, both miss: `startup_loses_stop`.  That is the only way to
lose one (`not_running_of_unsplit`).
-/

namespace Cornet.Context

/-- `context_t::state_t`. -/
inductive Phase
  | running
  | draining
  | canceling
  | terminated
  deriving DecidableEq, Repr

/-- The two ways to ask a context to end. -/
inductive Request
  | stop
  | shutdown
  deriving DecidableEq, Repr

/-- Where a requesting thread stands: before its first compare-exchange, between the two with the
value the first one found, or about to return. -/
inductive Pc
  | idle
  | first (r : Request)
  | second (r : Request) (seen : Phase)
  | leave
  deriving DecidableEq, Repr

/-- The thread has made one compare-exchange of two. -/
def Pc.between : Pc → Bool
  | .second _ _ => true
  | _ => false

/-- Where `run()` stands. -/
inductive Loop
  | before
  | inside
  | after
  deriving DecidableEq, Repr

variable {τ : Type*}

/-- The context and the threads around it.  `timers` counts the drain coroutines that have not
fired; `returned` remembers that some request has come back to its caller. -/
structure State (τ : Type*) where
  state : Phase := .terminated
  keepAlive : Bool
  loop : Loop := .before
  timers : ℕ := 0
  pc : τ → Pc := fun _ => .idle
  returned : Bool := false

namespace State

variable (s : State τ) (t : τ)

/-- `context_t::switch_to`. -/
def switchTo (p : Phase) : State τ := { s with state := p }

/-- `compare_exchange_strong`: store `desired` where `expected` stands. -/
def exchange (expected desired : Phase) : State τ :=
  if s.state = expected then s.switchTo desired else s

/-- The startup compare-exchange of `run()`. -/
def startup : State τ := { s.exchange .terminated .running with loop := .inside }

variable [DecidableEq τ]

def goto (pc : Pc) : State τ := { s with pc := Function.update s.pc t pc }

/-- The first compare-exchange of a request. -/
def attempt (r : Request) : State τ :=
  if s.state = .running then
    match r with
    | .stop => (s.switchTo .canceling).goto t .leave
    | .shutdown => { s.switchTo .draining with timers := s.timers + 1 }.goto t .leave
  else s.goto t (.second r s.state)

/-- The second one: `stop` aims at what it saw, if that was not `Canceling`; `shutdown` at
`Terminated`. -/
def retry (r : Request) (seen : Phase) : State τ :=
  match r with
  | .stop =>
    (if seen = .draining ∨ seen = .terminated then s.exchange seen .canceling else s).goto t .leave
  | .shutdown => (s.exchange .terminated .canceling).goto t .leave

end State

/-- Who moves.  `quiet` is the loop finding no user work left, `drained` a drain timer firing. -/
inductive Act (τ : Type*)
  | call (t : τ) (r : Request)
  | go (t : τ)
  | start
  | quiet
  | exit
  | drained
  deriving DecidableEq, Repr

/-- One atomic step.  The loop ends its work only with `keep_alive_` off, which every request clears
first. -/
def step [DecidableEq τ] (s : State τ) : Act τ → Option (State τ)
  | .call t r =>
    if s.pc t = .idle then some ({ s with keepAlive := false }.goto t (.first r)) else none
  | .go t =>
    match s.pc t with
    | .idle => none
    | .first r => some (s.attempt t r)
    | .second r seen => some (s.retry t r seen)
    | .leave => some ({ s with returned := true }.goto t .idle)
  | .start => if s.loop = .before then some s.startup else none
  | .quiet => if s.loop = .inside ∧ s.keepAlive = false then some (s.switchTo .canceling) else none
  | .exit =>
    if s.loop = .inside ∧ s.keepAlive = false then
      some { s.switchTo .terminated with loop := .after }
    else none
  | .drained =>
    if 0 < s.timers then some ({ s with timers := s.timers - 1 }.exchange .draining .canceling)
      else none

/-! ## What a request that is done has achieved -/

/-- Past this point the context cannot be `Running` any more: it is not now, and the startup
compare-exchange, if it is still to come, will miss. -/
def State.Sealed (s : State τ) : Prop :=
  s.state ≠ .running ∧ (s.loop = .before → s.state = .canceling)

/-- The invariant. -/
structure Inv (s : State τ) : Prop where
  fresh : s.loop = .before → s.state = .terminated ∨ s.state = .canceling
  /-- a request between its exchanges has seen what it has to end, or the context has ended by
  itself -/
  between : ∀ t r seen, s.pc t = .second r seen →
    (s.loop ≠ .before → s.state ≠ .running) ∧
      (s.loop = .before → seen = .terminated ∨ seen = .canceling ∧ s.state = .canceling)
  leaving : ∀ t, s.pc t = .leave → s.Sealed
  returned : s.returned = true → s.Sealed

/-- **The startup compare-exchange does not fall between the two of a request.** -/
def Unsplit (s : State τ) : Act τ → Prop
  | .start => s.state = .terminated → ∀ t, (s.pc t).between = false
  | _ => True

variable {s s' : State τ} {t u : τ} {a : Act τ} {as : List (Act τ)} {p q : Phase}

theorem inv_init (keepAlive : Bool) : Inv ({ keepAlive := keepAlive } : State τ) where
  fresh _ := .inl rfl
  between t r seen h := by simp at h
  leaving t h := by simp at h
  returned h := by simp at h

/-! ## Moves that cannot hurt -/

/-- A store that ends something keeps every promise. -/
theorem Inv.switchTo (h : Inv s) (hq : q ≠ .running) (hbefore : s.loop = .before → q = .canceling) :
    Inv (s.switchTo q) where
  fresh hl := .inr (hbefore hl)
  between t r seen hpc := by
    refine ⟨fun _ => hq, fun hl => ?_⟩
    rcases (h.between t r seen hpc).2 hl with hT | ⟨hC, -⟩
    · exact .inl hT
    · exact .inr ⟨hC, hbefore hl⟩
  leaving _ _ := ⟨hq, hbefore⟩
  returned _ := ⟨hq, hbefore⟩

theorem Inv.exchange (h : Inv s) (hq : q ≠ .running) (hbefore : s.loop = .before → q = .canceling) :
    Inv (s.exchange p q) := by
  unfold State.exchange
  split
  · exact h.switchTo hq hbefore
  · exact h

/-- A running context is inside its loop. -/
theorem Inv.started (h : Inv s) (hs : s.state = .running) : s.loop ≠ .before := by
  intro hl
  rcases h.fresh hl with hT | hC
  · rw [hs] at hT
    cases hT
  · rw [hs] at hC
    cases hC

/-- The startup exchange finds `Canceling` once a request is through. -/
theorem Inv.startup (h : Inv s) (hl : s.loop = .before)
    (hok : s.state = .terminated → ∀ t, (s.pc t).between = false) : Inv s.startup := by
  unfold State.startup State.exchange
  by_cases hT : s.state = .terminated
  · have hsealed : ¬ s.Sealed := fun hs => by simp [hs.2 hl] at hT
    rw [if_pos hT]
    refine ⟨fun hb => by simp at hb, fun t r seen hpc => ?_,
      fun t hpc => absurd (h.leaving t hpc) hsealed, fun hr => absurd (h.returned hr) hsealed⟩
    have hbetween : (Pc.second r seen).between = false :=
      (show s.pc t = .second r seen from hpc) ▸ hok hT t
    cases hbetween
  · have hC : s.state = .canceling := (h.fresh hl).resolve_left hT
    have hs : s.state ≠ .running := by simp [hC]
    rw [if_neg hT]
    exact ⟨fun hb => by simp at hb, fun t r seen _ => ⟨fun _ => hs, fun hb => by simp at hb⟩,
      fun t _ => ⟨hs, fun hb => by simp at hb⟩, fun _ => ⟨hs, fun hb => by simp at hb⟩⟩

/-- An exchange that hits, or that is not needed, seals. -/
theorem sealed_exchange (hs : s.state ≠ .running)
    (hbefore : s.loop = .before → s.state = p ∨ s.state = .canceling) : (s.exchange p
      .canceling).Sealed := by
  unfold State.exchange
  split
  · exact ⟨by simp [State.switchTo], fun _ => rfl⟩
  · exact ⟨hs, fun hl => (hbefore hl).resolve_left ‹_›⟩

variable [DecidableEq τ]

/-- A thread that moves answers for itself only. -/
theorem Inv.goto {pc : Pc} (h : Inv s)
    (hsecond : ∀ r seen, pc = .second r seen → (s.loop ≠ .before → s.state ≠ .running) ∧
      (s.loop = .before → seen = .terminated ∨ seen = .canceling ∧ s.state = .canceling))
    (hleave : pc = .leave → s.Sealed) : Inv (s.goto t pc) where
  fresh := h.fresh
  between u r seen hpc := by
    by_cases hu : u = t
    · subst hu
      exact hsecond r seen (by simpa [State.goto] using hpc)
    · exact h.between u r seen (by simpa [State.goto, hu] using hpc)
  leaving u hpc := by
    by_cases hu : u = t
    · subst hu
      exact hleave (by simpa [State.goto] using hpc)
    · exact h.leaving u (by simpa [State.goto, hu] using hpc)
  returned := h.returned

/-! ## The steps of a request -/

theorem Inv.attempt (h : Inv s) (r : Request) : Inv (s.attempt t r) := by
  unfold State.attempt
  split
  · rename_i hs
    have hl := h.started hs
    cases r with
    | stop =>
      refine (h.switchTo (by simp) fun hb => absurd hb hl).goto (by simp) fun _ => ?_
      exact ⟨by simp [State.switchTo], fun hb => absurd hb hl⟩
    | shutdown =>
      have hd := h.switchTo (q := .draining) (by simp) fun hb => absurd hb hl
      have hd' : Inv { s.switchTo .draining with timers := s.timers + 1 } :=
        ⟨hd.fresh, hd.between, hd.leaving, hd.returned⟩
      refine hd'.goto (by simp) fun _ => ?_
      exact ⟨by simp [State.switchTo], fun hb => absurd hb hl⟩
  · rename_i hs
    refine h.goto (fun r' seen hpc => ?_) (by simp)
    obtain ⟨rfl, rfl⟩ : r = r' ∧ s.state = seen := by simpa using hpc
    exact ⟨fun _ => hs, fun hl => (h.fresh hl).imp_right fun hC => ⟨hC, hC⟩⟩

theorem Inv.retry {r : Request} {seen : Phase} (h : Inv s) (hpc : s.pc t = .second r seen) :
    Inv (s.retry t r seen) := by
  obtain ⟨hin, hbefore⟩ := h.between t r seen hpc
  have hs : s.state ≠ .running := by
    intro hs
    exact hin (h.started hs) hs
  have hx : ∀ p, Inv (s.exchange p .canceling) := fun p => h.exchange (by simp) fun _ => rfl
  cases r with
  | shutdown => exact (hx _).goto (by simp) fun _ => sealed_exchange hs h.fresh
  | stop =>
    simp only [State.retry]
    split
    · refine (hx _).goto (by simp) fun _ => sealed_exchange hs fun hl => ?_
      rcases hbefore hl with rfl | ⟨-, hC⟩
      · exact h.fresh hl
      · exact .inr hC
    · rename_i hseen
      refine h.goto (by simp) fun _ => ⟨hs, fun hl => ?_⟩
      rcases hbefore hl with rfl | ⟨-, hC⟩
      · exact absurd (.inr rfl) hseen
      · exact hC

/-- **One step.** -/
theorem inv_step (h : Inv s) (hok : Unsplit s a) (hst : step s a = some s') : Inv s' := by
  cases a with
  | call t r =>
    obtain ⟨-, rfl⟩ : s.pc t = .idle ∧ { s with keepAlive := false }.goto t (.first r) = s' := by
      simpa [step] using hst
    have hk : Inv { s with keepAlive := false } := ⟨h.fresh, h.between, h.leaving, h.returned⟩
    exact hk.goto (by simp) (by simp)
  | go t =>
    cases hpc : s.pc t with
    | idle => simp [step, hpc] at hst
    | first r =>
      obtain rfl : s.attempt t r = s' := by simpa [step, hpc] using hst
      exact h.attempt r
    | second r seen =>
      obtain rfl : s.retry t r seen = s' := by simpa [step, hpc] using hst
      exact h.retry hpc
    | leave =>
      obtain rfl : { s with returned := true }.goto t .idle = s' := by simpa [step, hpc] using hst
      have hr : Inv { s with returned := true } :=
        ⟨h.fresh, h.between, h.leaving, fun _ => h.leaving t hpc⟩
      exact hr.goto (by simp) (by simp)
  | start =>
    obtain ⟨hl, rfl⟩ : s.loop = .before ∧ s.startup = s' := by simpa [step] using hst
    exact h.startup hl hok
  | quiet =>
    obtain ⟨⟨hl, -⟩, rfl⟩ : (s.loop = .inside ∧ s.keepAlive = false) ∧
      s.switchTo .canceling = s' := by
      simpa [step] using hst
    exact h.switchTo (by simp) fun _ => rfl
  | exit =>
    obtain ⟨⟨hl, -⟩, rfl⟩ : (s.loop = .inside ∧ s.keepAlive = false) ∧
        { s.switchTo .terminated with loop := .after } = s' := by
      simpa [step] using hst
    refine ⟨fun hb => by
      simp at hb, fun t r seen _ => ⟨fun _ => by simp [State.switchTo], fun hb => by simp at hb⟩,
      fun t _ => ⟨by simp [State.switchTo], fun hb => by simp at hb⟩,
      fun _ => ⟨by simp [State.switchTo], fun hb => by simp at hb⟩⟩
  | drained =>
    obtain ⟨-, rfl⟩ : 0 < s.timers ∧ { s with timers := s.timers - 1 }.exchange .draining
      .canceling = s' := by
      simpa [step] using hst
    have ht : Inv { s with timers := s.timers - 1 } := ⟨h.fresh, h.between, h.leaving, h.returned⟩
    exact ht.exchange (by simp) fun _ => rfl

/-- **A request that has returned is not lost**, unless `run()` started between its two
compare-exchanges: at no later moment is the context `Running`. -/
theorem not_running_of_unsplit {keepAlive : Bool}
    (hrun : Run step Unsplit { keepAlive := keepAlive } as s)
    (hret : s.returned = true) : s.state ≠ .running :=
  ((hrun.invariant (inv_init keepAlive) inv_step).returned hret).1

instance [Fintype τ] (s : State τ) : ∀ a, Decidable (Unsplit s a)
  | .start => inferInstanceAs (Decidable (s.state = .terminated → ∀ t, (s.pc t).between = false))
  | .call _ _ | .go _ | .quiet | .exit | .drained => inferInstanceAs (Decidable True)

/-- A stop that is through before `run()` starts, next to a shutdown that has not begun. -/
theorem not_running_of_unsplit_early : ∃ as, ∃ s : State (Fin 2),
    Run step Unsplit { keepAlive := true } as s ∧ s.loop = .inside ∧ s.returned = true ∧
      s.state ≠ .running := by
  have hend : ∃ s ∈ exec step Unsplit ({ keepAlive := true } : State (Fin 2)) [.call 0 .stop, .go 0,
    .go 0,
      .call 1 .shutdown, .go 0, .start], s.loop = .inside ∧ s.returned = true := by
    decide +kernel
  obtain ⟨s, hs, hloop, hret⟩ := hend
  exact ⟨_, s, .of_exec hs, hloop, hret, not_running_of_unsplit (.of_exec hs) hret⟩

/-- **A stop is lost.**  `stop()` fails to find `Running`, `run()` moves `Terminated` to `Running`,
and `stop()` fails to find `Terminated`: it returns, and the context runs. -/
theorem startup_loses_stop : ∃ as, ∃ s : State (Fin 1),
    Run step (fun _ _ => True) { keepAlive := true } as s ∧ s.returned = true ∧
      s.state = .running :=
  ⟨[.call 0 .stop, .go 0, .start, .go 0, .go 0], Run.exists_of_mem (by decide +kernel)⟩

end Cornet.Context
