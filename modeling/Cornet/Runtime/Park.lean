import Cornet.Machinery.Run

/-!
# Runtime/Park — parking the owner and waking it up (`scheduler_t::sched`, `context_t::wakeup`)

    owner:     harvest ─▸ work ─▸ parked := true ─▸ harvest again ─▸ wait ─▸ parked := false ─▸ ⋯
    producer:  enqueue ─▸ exchange(parked, false) ─▸ write the eventfd, if it took the token

The store of the token and the second harvest face the enqueue and the exchange: either the owner
sees the item or the producer sees the token.  Queues are linearizable and the token is sequentially
consistent, so threads interleave at these accesses.  What the owner does between two harvests
(resuming coroutines, submitting, reaping completions) is left open.
-/

namespace Cornet.Park

/-- The two queues producers feed. -/
inductive Queue
  | remote
  | completed
  deriving DecidableEq, Repr

/-- A producer: outside, between its enqueue of `n` items and the exchange, or holding the token.
`exchange 0` is a `wakeup()` without an enqueue, as `stop()` makes it. -/
inductive Pc
  | idle
  | exchange (n : ℕ)
  | write
  deriving DecidableEq, Repr

/-- The owner in `sched()`.  A re-check counts what it harvested. -/
inductive Owner
  | harvestRemote
  | harvestAsync
  | work
  | recheckRemote (n : ℕ)
  | recheckAsync (n : ℕ)
  | wait
  | unpark
  deriving DecidableEq, Repr

/-- The token, the queues, and the eventfd notifications written and not yet reaped by the owner. -/
structure State (π : Type*) where
  parked : Bool := false
  queue : Queue → ℕ := fun _ => 0
  signals : ℕ := 0
  owner : Owner := .harvestRemote
  pc : π → Pc := fun _ => .idle

variable {π : Type*}

/-- Who moves.  The owner takes an item, finds a queue empty, reaps completions, finds work left,
parks, is woken, or drops its token. -/
inductive Act (π : Type*)
  | enqueue (p : π) (q : Queue) (n : ℕ)
  | go (p : π)
  | take
  | empty
  | reap
  | busy
  | park
  | wake
  | unpark
  deriving DecidableEq, Repr

namespace State

variable (s : State π)

def setQueue (q : Queue) (n : ℕ) : State π := { s with queue := Function.update s.queue q n }

def goto [DecidableEq π] (p : π) (pc : Pc) : State π := { s with pc := Function.update s.pc p pc }

/-- `wakeup()` from its exchange on. -/
def exchange [DecidableEq π] (p : π) : State π :=
  if s.parked then { s with parked := false }.goto p .write else s.goto p .idle

/-- One turn of a harvest that finds an item. -/
def take : Option (State π) :=
  match s.owner with
  | .harvestRemote =>
    if 0 < s.queue .remote then some (s.setQueue .remote (s.queue .remote - 1)) else none
  | .harvestAsync =>
    if 0 < s.queue .completed then some (s.setQueue .completed (s.queue .completed - 1)) else none
  | .recheckRemote n =>
    if 0 < s.queue .remote then
      some { s.setQueue .remote (s.queue .remote - 1) with owner := .recheckRemote (n + 1) }
    else none
  | .recheckAsync n =>
    if 0 < s.queue .completed then
      some { s.setQueue .completed (s.queue .completed - 1) with owner := .recheckAsync (n + 1) }
    else none
  | _ => none

/-- The turn that finds none.  After a re-check the owner blocks only if both came back with
nothing. -/
def empty : Option (State π) :=
  match s.owner with
  | .harvestRemote => if s.queue .remote = 0 then some { s with owner := .harvestAsync } else none
  | .harvestAsync => if s.queue .completed = 0 then some { s with owner := .work } else none
  | .recheckRemote n =>
    if s.queue .remote = 0 then some { s with owner := if n = 0 then .recheckAsync 0 else .unpark }
      else none
  | .recheckAsync n =>
    if s.queue .completed = 0 then some { s with owner := if n = 0 then .wait else .unpark }
      else none
  | _ => none

end State

/-- One atomic step. -/
def step [DecidableEq π] (s : State π) : Act π → Option (State π)
  | .enqueue p q n =>
    if s.pc p = .idle then some ((s.setQueue q (s.queue q + n)).goto p (.exchange n)) else none
  | .go p =>
    match s.pc p with
    | .idle => none
    | .exchange _ => some (s.exchange p)
    | .write => some ({ s with signals := s.signals + 1 }.goto p .idle)
  | .take => s.take
  | .empty => s.empty
  | .reap => if s.owner = .work ∨ s.owner = .unpark then some { s with signals := 0 } else none
  | .busy => if s.owner = .work then some { s with owner := .harvestRemote } else none
  | .park =>
    if s.owner = .work then some { s with parked := true, owner := .recheckRemote 0 } else none
  | .wake => if s.owner = .wait then some { s with owner := .unpark } else none
  | .unpark =>
    if s.owner = .unpark then some { s with parked := false, owner := .harvestRemote } else none

/-! ## The handshake -/

/-- The owner has stored its token and not yet dropped it. -/
def Owner.parking : Owner → Bool
  | .recheckRemote _ | .recheckAsync _ | .wait => true
  | _ => false

/-- The owner has found this queue empty since it stored its token. -/
def Owner.passed : Owner → Queue → Bool
  | .recheckAsync _, .remote => true
  | .wait, _ => true
  | _, _ => false

/-- A notification is there or on its way. -/
def State.Signalled (s : State π) : Prop := 0 < s.signals ∨ ∃ p, s.pc p = .write

/-- A producer has enqueued and not yet looked for the token. -/
def State.Arriving (s : State π) : Prop := ∃ p n, s.pc p = .exchange n ∧ 0 < n

/-- A token that is gone was taken by a producer; one that stands waits for whoever enqueued since
the re-check. -/
structure Inv (s : State π) : Prop where
  token : s.owner.parking = true → s.parked = true ∨ s.Signalled
  item : ∀ q, s.owner.passed q = true → s.parked = true → 0 < s.queue q → s.Arriving

variable {s s' : State π} {p : π} {a : Act π} {as : List (Act π)} {o : Owner}

theorem Owner.parking_of_passed {q : Queue} (h : o.passed q = true) : o.parking = true := by
  cases o <;> cases q <;> simp_all [Owner.passed, Owner.parking]

/-- An owner that is not parking owes nothing. -/
theorem inv_of_not_parking (h : s.owner.parking = false) : Inv s :=
  ⟨fun hp => by simp [h] at hp, fun q hq => by simp [Owner.parking_of_passed hq] at h⟩

/-- The owner harvests on, or goes on to its next queue. -/
theorem Inv.move {o : Owner} (h : Inv s) (hpark : s.owner.parking = true)
    (hpassed : ∀ q, o.passed q = true → s.owner.passed q = true ∨ s.queue q = 0) :
    Inv { s with owner := o } where
  token _ := h.token hpark
  item q hq hparked hpos := by
    rcases hpassed q hq with hq' | hzero
    · exact h.item q hq' hparked hpos
    · simp [hzero] at hpos

/-- Taking an item from a queue the owner has not passed. -/
theorem Inv.setQueue {q : Queue} {n : ℕ} (h : Inv s) (hq : s.owner.passed q = false) : Inv
    (s.setQueue q n) where
  token := h.token
  item q' hq' hparked hpos := by
    rcases eq_or_ne q' q with rfl | hne
    · simp [State.setQueue, hq] at hq'
    · exact h.item q' hq' hparked (by simpa [State.setQueue, hne] using hpos)

theorem Inv.take (h : Inv s) (hst : s.take = some s') : Inv s' := by
  cases ho : s.owner with
  | harvestRemote =>
    obtain ⟨-, rfl⟩ : 0 < s.queue .remote ∧ s.setQueue .remote (s.queue .remote - 1) = s' := by
      simpa [State.take, ho] using hst
    exact inv_of_not_parking (by simp [State.setQueue, ho, Owner.parking])
  | harvestAsync =>
    obtain ⟨-, rfl⟩ : 0 < s.queue .completed ∧ s.setQueue .completed
      (s.queue .completed - 1) = s' := by
      simpa [State.take, ho] using hst
    exact inv_of_not_parking (by simp [State.setQueue, ho, Owner.parking])
  | recheckRemote n =>
    obtain ⟨-, rfl⟩ : 0 < s.queue .remote ∧
        { s.setQueue .remote (s.queue .remote - 1) with owner := .recheckRemote (n + 1) } = s' := by
      simpa [State.take, ho] using hst
    exact (h.setQueue (by simp [ho, Owner.passed])).move
      (by simp [State.setQueue, ho, Owner.parking])
      fun q hq => by simp [Owner.passed] at hq
  | recheckAsync n =>
    obtain ⟨-, rfl⟩ : 0 < s.queue .completed ∧
        { s.setQueue .completed (s.queue .completed - 1) with owner := .recheckAsync
                                                                (n + 1) } = s' := by
      simpa [State.take, ho] using hst
    refine (h.setQueue (by simp [ho, Owner.passed])).move
      (by simp [State.setQueue, ho, Owner.parking])
      fun q hq => .inl ?_
    cases q with
    | remote => simp [State.setQueue, ho, Owner.passed]
    | completed => simp [Owner.passed] at hq
  | _ => simp [State.take, ho] at hst

theorem Inv.empty (h : Inv s) (hst : s.empty = some s') : Inv s' := by
  cases ho : s.owner with
  | harvestRemote =>
    obtain ⟨-, rfl⟩ : s.queue .remote = 0 ∧ { s with owner := .harvestAsync } = s' := by
      simpa [State.empty, ho] using hst
    exact inv_of_not_parking rfl
  | harvestAsync =>
    obtain ⟨-, rfl⟩ : s.queue .completed = 0 ∧ { s with owner := .work } = s' := by
      simpa [State.empty, ho] using hst
    exact inv_of_not_parking rfl
  | recheckRemote n =>
    obtain ⟨hzero, rfl⟩ : s.queue .remote = 0 ∧
        { s with owner := if n = 0 then .recheckAsync 0 else .unpark } = s' := by
      simpa [State.empty, ho] using hst
    split
    · refine h.move (by simp [ho, Owner.parking]) fun q hq => .inr ?_
      cases q with
      | remote => exact hzero
      | completed => simp [Owner.passed] at hq
    · exact inv_of_not_parking rfl
  | recheckAsync n =>
    obtain ⟨hzero, rfl⟩ : s.queue .completed = 0 ∧
        { s with owner := if n = 0 then .wait else .unpark } = s' := by
      simpa [State.empty, ho] using hst
    split
    · refine h.move (by simp [ho, Owner.parking]) fun q _ => ?_
      cases q with
      | remote => exact .inl (by simp [ho, Owner.passed])
      | completed => exact .inr hzero
    · exact inv_of_not_parking rfl
  | _ => simp [State.empty, ho] at hst

variable [DecidableEq π]

/-- What another thread stands at is not changed by a move of `p`. -/
theorem goto_of_ne {x : Pc} {r : π} (hr : r ≠ p) : (s.goto p x).pc r = s.pc r := by
  simp [State.goto, hr]

theorem Inv.enqueue {q : Queue} {n : ℕ} (h : Inv s) (hp : s.pc p = .idle) :
    Inv ((s.setQueue q (s.queue q + n)).goto p (.exchange n)) where
  token hpark := by
    refine (h.token hpark).imp_right fun hs => hs.imp_right ?_
    rintro ⟨r, hr⟩
    have hne : r ≠ p := fun e => by simp [e, hp] at hr
    exact ⟨r, by rw [goto_of_ne hne]; exact hr⟩
  item q' hq' hparked hpos := by
    rcases Nat.eq_zero_or_pos n with rfl | hn
    · have hpos' : 0 < s.queue q' := by simpa [State.goto, State.setQueue] using hpos
      obtain ⟨r, m, hr, hm⟩ := h.item q' hq' hparked hpos'
      have hne : r ≠ p := fun e => by simp [e, hp] at hr
      exact ⟨r, m, by rw [goto_of_ne hne]; exact hr, hm⟩
    · exact ⟨p, n, by simp [State.goto], hn⟩

theorem Inv.exchange {n : ℕ} (h : Inv s) (hp : s.pc p = .exchange n) : Inv (s.exchange p) := by
  unfold State.exchange
  split
  · exact ⟨fun _ => .inr (.inr ⟨p, by simp [State.goto]⟩), fun q _ hparked =>
      by simp [State.goto] at hparked⟩
  · rename_i hparked
    refine ⟨fun hpark => .inr ?_, fun q _ hparked' => absurd hparked' hparked⟩
    refine ((h.token hpark).resolve_left hparked).imp_right ?_
    rintro ⟨r, hr⟩
    have hne : r ≠ p := fun e => by simp [e, hp] at hr
    exact ⟨r, by rw [goto_of_ne hne]; exact hr⟩

theorem Inv.write (h : Inv s) (hp : s.pc p = .write) :
    Inv ({ s with signals := s.signals + 1 }.goto p .idle) where
  token _ := .inr (.inl (Nat.succ_pos _))
  item q hq hparked hpos := by
    obtain ⟨r, m, hr, hm⟩ := h.item q hq hparked hpos
    have hne : r ≠ p := fun e => by simp [e, hp] at hr
    exact ⟨r, m, by rw [goto_of_ne hne]; exact hr, hm⟩

/-- **One step.** -/
theorem inv_step (h : Inv s) (hst : step s a = some s') : Inv s' := by
  cases a with
  | enqueue p q n =>
    obtain ⟨hp, rfl⟩ : s.pc p = .idle ∧ (s.setQueue q (s.queue q + n)).goto p
      (.exchange n) = s' := by
      simpa [step] using hst
    exact h.enqueue hp
  | go p =>
    cases hp : s.pc p with
    | idle => simp [step, hp] at hst
    | exchange n =>
      obtain rfl : s.exchange p = s' := by simpa [step, hp] using hst
      exact h.exchange hp
    | write =>
      obtain rfl : { s with signals := s.signals + 1 }.goto p .idle = s' :=
        by simpa [step, hp] using hst
      exact h.write hp
  | take => exact h.take hst
  | empty => exact h.empty hst
  | reap =>
    obtain ⟨ho, rfl⟩ : (s.owner = .work ∨ s.owner = .unpark) ∧ { s with signals := 0 } = s' := by
      simpa [step] using hst
    refine inv_of_not_parking ?_
    rcases ho with ho | ho <;> simp [ho, Owner.parking]
  | busy =>
    obtain ⟨-, rfl⟩ : s.owner = .work ∧ { s with owner := .harvestRemote } = s' :=
      by simpa [step] using hst
    exact inv_of_not_parking rfl
  | park =>
    obtain ⟨-, rfl⟩ : s.owner = .work ∧
      { s with parked := true, owner := .recheckRemote 0 } = s' := by
      simpa [step] using hst
    exact ⟨fun _ => .inl rfl, fun q hq => by simp [Owner.passed] at hq⟩
  | wake =>
    obtain ⟨-, rfl⟩ : s.owner = .wait ∧ { s with owner := .unpark } = s' :=
      by simpa [step] using hst
    exact inv_of_not_parking rfl
  | unpark =>
    obtain ⟨-, rfl⟩ : s.owner = .unpark ∧
      { s with parked := false, owner := .harvestRemote } = s' := by
      simpa [step] using hst
    exact inv_of_not_parking rfl

/-- **No wakeup is lost.**  Whenever the owner is blocked while a queue holds an item, the eventfd
has been signalled, or a producer has taken the token and is about to signal it, or the token still
stands and a producer that has enqueued is about to take it. -/
theorem wait_covered (hrun : Run step (fun _ _ => True) ({} : State π) as s) {q : Queue}
    (hwait : s.owner = .wait) (hq : 0 < s.queue q) :
    0 < s.signals ∨ (∃ p, s.pc p = .write) ∨ s.parked = true ∧ ∃ p n, s.pc p = .exchange n ∧
      0 < n := by
  have h : Inv s := hrun.invariant (inv_of_not_parking rfl) fun hI _ hst => inv_step hI hst
  by_cases hparked : s.parked = true
  · exact .inr (.inr ⟨hparked, h.item q (by simp [hwait, Owner.passed]) hparked hq⟩)
  · rcases (h.token (by simp [hwait, Owner.parking])).resolve_left hparked with hs | hp
    · exact .inl hs
    · exact .inr (.inl hp)

/-- Two producers: the one the token went to has still to write, the other one came second. -/
theorem wait_covered_twoProducers : ∃ as, ∃ s : State (Fin 2), Run step (fun _ _ => True) {} as s ∧
    s.owner = .wait ∧ 0 < s.queue .remote ∧
      (0 < s.signals ∨ (∃ p, s.pc p = .write) ∨ s.parked = true ∧ ∃ p n, s.pc p = .exchange n ∧
        0 < n) := by
  have hend : ∃ s ∈ exec step (fun _ _ => True) ({} : State (Fin 2)) [.empty, .empty, .park, .empty,
    .empty,
      .enqueue 0 .completed 1, .go 0, .enqueue 1 .remote 1, .go 1], s.owner = .wait ∧
        0 < s.queue .remote := by
    decide +kernel
  obtain ⟨s, hs, hwait, hpos⟩ := hend
  exact ⟨_, s, .of_exec hs, hwait, hpos, wait_covered (.of_exec hs) hwait hpos⟩

/-- **Between its enqueue and its exchange a producer has not taken the token yet**: the owner is
blocked on a queue that holds an item, nothing is signalled, and nobody is about to signal. -/
theorem wait_before_exchange : ∃ as, ∃ s : State (Fin 1), Run step (fun _ _ => True) {} as s ∧
    s.owner = .wait ∧ 0 < s.queue .remote ∧ s.signals = 0 ∧ ∀ p, s.pc p ≠ .write :=
  ⟨[.empty, .empty, .park, .empty, .empty, .enqueue 0 .remote 1], Run.exists_of_mem
    (by decide +kernel)⟩

end Cornet.Park
