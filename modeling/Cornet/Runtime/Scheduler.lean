import Cornet.Runtime.RingQueue

/-!
# Runtime/Scheduler — cycle after cycle (`scheduler_t::sched` in `src/scheduler.cc`)

    harvest ─▸ resume ─▸ reap ─▸ resume ─┬─ handles left ───────────────▸ resume ─▸ adapt
                                         └─ harvest ─┬─ something came ─▸
                                                     └─ wait, reap ─────▸

Other threads enqueue handles, worker threads hand jobs back, and a coroutine that is resumed may do
anything a coroutine can.  The queues between threads keep no order across producers, so a harvest
takes any entry.  What the pressure of a cycle makes of `cpu_batch_` is left open, up to the bounds
it is kept in.
-/

namespace Cornet.Runtime

open List

variable {η : Type*}

namespace Scheduler

/-- Where the owner is in `sched()`.  Both harvests are made a second time before the owner blocks;
they count, the first in 32 bits. -/
inductive Pc
  | outside
  | harvestRemote (again : Bool) (n : ℕ)
  | harvestAsync (again : Bool) (n : ℕ)
  | resume
  | peek
  | resumeReaped
  | wait
  | reap
  | resumeLast
  | adapt
  deriving DecidableEq

/-- Inside `resume_ready`. -/
def Pc.resumes : Pc → Bool
  | resume | resumeReaped | resumeLast => true
  | _ => false

/-- Coroutines run, completions are reaped, or the loop of the context has its turn. -/
def Pc.runs (pc : Pc) : Bool := pc.resumes || pc matches outside | peek | reap

end Scheduler

/-- `scheduler_t` with its executor and the counters of `task_tracker_t` that they keep.  A job is
known by the coroutine that awaits it, none once that is destroyed.  The last fields record what was
scheduled, what was taken to be resumed, and how often `sched()` has returned. -/
structure Scheduler (η : Type*) where
  ready : RingQueue η := {}
  remote : List η := []
  pending : List (Option η) := []
  completed : List (Option η) := []
  /-- `ready_` and `cpu_`, of type `uint32_t` -/
  readyCount : ℕ := 0
  cpuCount : ℕ := 0
  cpuBatch : ℕ := 64
  tasksResumed : ℕ := 0
  pc : Scheduler.Pc := .outside
  scheduled : List η := []
  resumed : List η := []
  cycles : ℕ := 0

namespace Scheduler

section

variable (s : Scheduler η)

/-- `scheduler_t::schedule`, `context_t::spawn`. -/
def schedule (h : η) : Option (Scheduler η) :=
  (s.ready.push h).map fun ready =>
    { s with ready := ready, readyCount := (s.readyCount + 1) % 2 ^ 32, scheduled := s.scheduled ++
               [h] }

/-- One turn of `harvest_remote`. -/
def harvestRemote (i : ℕ) : Option (Scheduler η) :=
  s.remote[i]?.bind fun h => { s with remote := s.remote.eraseIdx i }.schedule h

/-- One job of `harvest_async`. -/
def harvestAsync (i : ℕ) : Option (Scheduler η) :=
  s.completed[i]?.bind fun job =>
    let s := { s with completed := s.completed.eraseIdx i, cpuCount := (s.cpuCount + (2 ^ 32 - 1)) %
                        2 ^ 32 }
    job.elim (some s) s.schedule

/-- One turn of `resume_ready`, with its `resume_task`. -/
def resumeTask : Scheduler η :=
  { s with
    ready := s.ready.pop
    readyCount := (s.readyCount + (2 ^ 32 - 1)) % 2 ^ 32
    tasksResumed := (s.tasksResumed + 1) % 2 ^ 32
    resumed := s.resumed ++ s.ready.front.toList }

/-- The batch at the end of `adapt()`. -/
def adapt (delta : ℤ) : ℕ := min (max (s.cpuBatch + delta).toNat 32) 2048

/-- `resume_ready` has come to its end. -/
def exhausted : Bool := s.ready.empty || !decide (s.tasksResumed < s.cpuBatch)

/-- What follows a loop that has come to its end. -/
def next : Option Pc :=
  match s.pc with
  | .harvestRemote again n =>
    if s.remote.isEmpty then some (if again && n != 0 then .resumeLast else .harvestAsync again 0)
      else none
  | .harvestAsync again n =>
    if s.completed.isEmpty then some (if !again then .resume else if n = 0 then .wait
      else .resumeLast) else none
  | .resume => if s.exhausted then some .peek else none
  | .peek => some .resumeReaped
  | .resumeReaped =>
    if s.exhausted then some (if s.ready.empty then .harvestRemote true 0 else .resumeLast)
      else none
  | .wait => some .reap
  | .reap => some .resumeLast
  | .resumeLast => if s.exhausted then some .adapt else none
  | .outside | .adapt => none

end

/-- What happens, on whatever thread. -/
inductive Act (η : Type*)
  | schedule (h : η)
  | enqueue (h : η)
  /-- `ctx.async`, and the executor has room -/
  | async (h : η)
  /-- a worker hands a job back -/
  | work (i : ℕ)
  /-- a coroutine that awaits a job is destroyed -/
  | destroy (h : η)
  | sched
  | take (i : ℕ)
  | resume
  | next
  | adapt (delta : ℤ)

/-- When it can happen. -/
def enabled (s : Scheduler η) : Act η → Bool
  | .schedule _ | .async _ | .destroy _ => s.pc.runs
  | .sched => s.pc == .outside
  | .resume => s.pc.resumes && !s.exhausted
  | .adapt _ => s.pc == .adapt
  | _ => true

/-- `scheduler_t::schedule_remote`, `executor_t::add`. -/
def perform [DecidableEq η] (s : Scheduler η) : Act η → Option (Scheduler η)
  | .schedule h => s.schedule h
  | .enqueue h => some { s with remote := s.remote ++ [h] }
  | .async h =>
    some { s with pending := s.pending ++ [some h], cpuCount := (s.cpuCount + 1) % 2 ^ 32 }
  | .work i =>
    s.pending[i]?.map fun job =>
      { s with pending := s.pending.eraseIdx i, completed := s.completed ++ [job] }
  | .destroy h =>
    some { s with
      pending := s.pending.map fun job => if job = some h then none else job
      completed := s.completed.map fun job => if job = some h then none else job }
  | .sched => some { s with tasksResumed := 0, pc := .harvestRemote false 0 }
  | .take i =>
    match s.pc with
    | .harvestRemote again n =>
      (s.harvestRemote i).map fun s => { s with pc := .harvestRemote again ((n + 1) % 2 ^ 32) }
    | .harvestAsync again n =>
      (s.harvestAsync i).map fun s => { s with pc := .harvestAsync again (n + 1) }
    | _ => none
  | .resume => some s.resumeTask
  | .next => s.next.map fun pc => { s with pc := pc }
  | .adapt delta =>
    some { s with cpuBatch := s.adapt delta, pc := .outside, cycles := s.cycles + 1 }

def step [DecidableEq η] (s : Scheduler η) (a : Act η) : Option (Scheduler η) :=
  if s.enabled a then s.perform a else none

/-! ## What every step keeps -/

variable {s t : Scheduler η} {l : List η} {h : η}

/-- The ring holds `l`: what was scheduled and not resumed, in that order.  The counters count. -/
structure Books (s : Scheduler η) (l : List η) : Prop where
  holds : ∃ e, s.ready.Holds l e
  fifo : s.resumed ++ l = s.scheduled
  ready_eq : s.readyCount = l.length % 2 ^ 32
  cpu_eq : s.cpuCount = (s.pending.length + s.completed.length) % 2 ^ 32

/-- The second harvest starts with nothing ready, and a cycle ends so or with its batch used up. -/
def Knows (s : Scheduler η) (l : List η) : Prop :=
  match s.pc with
  | .harvestRemote again n => again = true → l.length % 2 ^ 32 = n
  | .harvestAsync again n => again = true → n = 0 → l.length % 2 ^ 32 = 0
  | .wait => l.length % 2 ^ 32 = 0
  | .adapt => l = [] ∨ s.cpuBatch ≤ s.tasksResumed
  | _ => True

/-- What this cycle has resumed. -/
def turn (s : Scheduler η) : ℕ := if s.pc = .outside then 0 else s.tasksResumed

abbrev Sized (s : Scheduler η) : Prop := 32 ≤ s.cpuBatch ∧ s.cpuBatch < 2 ^ 32

/-- What a step does to the counts of a cycle; the last of a cycle is with nothing ready or a whole
batch resumed. -/
structure Progress (s t : Scheduler η) : Prop where
  scheduled : s.scheduled.length ≤ t.scheduled.length
  sized : s.Sized → t.Sized
  count : s.Sized → t.cycles = s.cycles ∧
    (∃ n, t.resumed.length = s.resumed.length + n ∧ t.turn = s.turn + n) ∨
    t.cycles = s.cycles + 1 ∧ t.resumed.length = s.resumed.length ∧ t.turn = 0 ∧
      (s.resumed.length = s.scheduled.length ∨ 32 ≤ s.turn)

theorem Progress.goto {pc : Pc} (h : Progress s t) (ht : t.pc ≠ .outside) (hpc : pc ≠ .outside) :
    Progress s { t with pc := pc } := by
  have heq : turn { t with pc := pc } = t.turn := by simp [turn, ht, hpc]
  exact { h with count := fun hs => heq ▸ h.count hs }

theorem knows_of_runs (h : s.pc.runs = true) : s.Knows l := by
  rw [Knows]
  cases hpc : s.pc <;> simp_all [Pc.runs, Pc.resumes]

theorem Books.exhausted (hs : Books s l) (h : s.exhausted = true) : l = [] ∨
    s.cpuBatch ≤ s.tasksResumed := by
  obtain ⟨e, he⟩ := hs.holds
  simpa [Scheduler.exhausted, he.empty_iff] using h

theorem Books.schedule (hs : Books s l) (hst : s.schedule h = some t) :
    Books t (l ++ [h]) ∧ t.pc = s.pc ∧ Progress s t := by
  obtain ⟨e, he⟩ := hs.holds
  obtain ⟨r, hr, rfl⟩ := Option.map_eq_some_iff.mp hst
  refine ⟨⟨he.push hr, by rw [← append_assoc, hs.fifo], ?_, hs.cpu_eq⟩, rfl,
    by simp, id, fun _ => .inl ⟨rfl, 0, rfl, rfl⟩⟩
  rw [length_append, length_singleton, hs.ready_eq, Nat.mod_add_mod]

theorem Books.harvestRemote {i : ℕ} (hs : Books s l) (hst : s.harvestRemote i = some t) :
    ∃ h, Books t (l ++ [h]) ∧ t.pc = s.pc ∧ Progress s t := by
  obtain ⟨h, -, hst⟩ := Option.bind_eq_some_iff.mp hst
  have hs' : Books { s with remote := s.remote.eraseIdx i } l := { hs with }
  obtain ⟨hb, hpc, hp⟩ := hs'.schedule hst
  exact ⟨h, hb, hpc, { hp with }⟩

theorem Books.harvestAsync {i : ℕ} (hs : Books s l) (hst : s.harvestAsync i = some t) :
    ∃ l, Books t l ∧ t.pc = s.pc ∧ Progress s t := by
  obtain ⟨job, hjob, hst⟩ := Option.bind_eq_some_iff.mp hst
  have hlt := (List.getElem?_eq_some_iff.mp hjob).1
  have hs' : Books { s with
      completed := s.completed.eraseIdx i, cpuCount := (s.cpuCount + (2 ^ 32 - 1)) % 2 ^ 32 } l :=
    { hs with
      cpu_eq := by
        simp only [hs.cpu_eq, length_eraseIdx_of_lt hlt]
        omega }
  cases job with
  | none =>
    obtain rfl := Option.some.inj hst
    exact ⟨l, hs', rfl, le_rfl, id, fun _ => .inl ⟨rfl, 0, rfl, rfl⟩⟩
  | some h =>
    obtain ⟨hb, hpc, hp⟩ := hs'.schedule hst
    exact ⟨_, hb, hpc, { hp with }⟩

theorem Books.resumeTask (hs : Books s l) (hpc : s.pc.resumes = true) (hex : s.exhausted = false) :
    (∃ l, Books s.resumeTask l) ∧ Progress s s.resumeTask := by
  obtain ⟨e, he⟩ := hs.holds
  simp only [Scheduler.exhausted, Bool.or_eq_false_iff, Bool.not_eq_false',
    decide_eq_true_eq] at hex
  cases l with
  | nil =>
    rw [he.empty_iff.mpr rfl] at hex
    cases hex.1
  | cons x l =>
    have hfront : s.ready.front = some x := he.front
    refine ⟨⟨l, ⟨e, he.pop (cons_ne_nil x l)⟩, ?_, ?_, hs.cpu_eq⟩, le_rfl, id, fun hsized =>
      .inl ⟨rfl, 1, ?_, ?_⟩⟩
    · simpa [Scheduler.resumeTask, hfront] using hs.fifo
    · simp only [Scheduler.resumeTask, hs.ready_eq, length_cons]
      omega
    · simp [Scheduler.resumeTask, hfront]
    · have hout : s.pc ≠ .outside := fun h => by simp [h, Pc.resumes] at hpc
      have := hsized.2
      simp only [turn, Scheduler.resumeTask, hout, if_false]
      omega

theorem Books.next {pc : Pc} (hs : Books s l) (hk : s.Knows l) (hst : s.next = some pc) :
    Knows { s with pc := pc } l ∧ s.pc ≠ .outside ∧ pc ≠ .outside := by
  have hex := hs.exhausted
  have hempty : s.ready.empty = true → l = [] := hs.holds.elim fun _ he => he.empty_iff.mp
  rw [Scheduler.next] at hst
  rw [Knows] at hk
  cases hpc : s.pc with
  | outside | adapt => simp [hpc] at hst
  | peek | wait | reap =>
    rw [hpc] at hst
    cases hst
    exact ⟨trivial, by simp, by simp⟩
  | _ =>
    simp only [hpc] at hst hk
    split_ifs at hst
    all_goals
      cases hst
      simp_all [Knows]

/-- **One step.** -/
theorem Books.step [DecidableEq η] {a : Act η} (hs : Books s l) (hk : s.Knows l)
    (hst : s.step a = some t) :
    (∃ l, Books t l ∧ t.Knows l) ∧ Progress s t := by
  have hidle : Progress s s := ⟨le_rfl, id, fun _ => .inl ⟨rfl, 0, rfl, rfl⟩⟩
  obtain ⟨hen, hst⟩ := Option.ite_none_right_eq_some.mp hst
  cases a with
  | schedule h =>
    obtain ⟨hb, hpc, hp⟩ := hs.schedule hst
    exact ⟨⟨_, hb, knows_of_runs (hpc ▸ hen)⟩, hp⟩
  | enqueue h =>
    cases hst
    exact ⟨⟨l, { hs with }, hk⟩, { hidle with }⟩
  | async h =>
    cases hst
    refine ⟨⟨l, { hs with cpu_eq := ?_ }, hk⟩, { hidle with }⟩
    simp only [hs.cpu_eq, length_append, length_singleton]
    omega
  | work i =>
    obtain ⟨job, hjob, rfl⟩ := Option.map_eq_some_iff.mp hst
    refine ⟨⟨l, { hs with cpu_eq := ?_ }, hk⟩, { hidle with }⟩
    have hlt := (List.getElem?_eq_some_iff.mp hjob).1
    simp only [hs.cpu_eq, length_append, length_singleton, length_eraseIdx_of_lt hlt]
    omega
  | destroy h =>
    cases hst
    exact ⟨⟨l, { hs with cpu_eq := by simpa using hs.cpu_eq }, hk⟩, { hidle with }⟩
  | sched =>
    cases hst
    have hpc : s.pc = .outside := beq_iff_eq.mp hen
    exact ⟨⟨l, { hs with }, by simp [Knows]⟩, le_rfl, id, fun _ =>
      .inl ⟨rfl, 0, rfl, by simp [turn, hpc]⟩⟩
  | take i =>
    rw [perform] at hst
    cases hpc : s.pc with
    | harvestRemote again n =>
      rw [Knows, hpc] at hk
      rw [hpc] at hst
      obtain ⟨u, hu, rfl⟩ := Option.map_eq_some_iff.mp hst
      obtain ⟨h, hb, hpc', hp⟩ := hs.harvestRemote hu
      refine ⟨⟨_, { hb with }, fun hagain => ?_⟩, hp.goto (by simp [hpc', hpc]) (by simp)⟩
      rw [length_append, length_singleton, ← hk hagain, Nat.mod_add_mod]
    | harvestAsync again n =>
      rw [hpc] at hst
      obtain ⟨u, hu, rfl⟩ := Option.map_eq_some_iff.mp hst
      obtain ⟨l, hb, hpc', hp⟩ := hs.harvestAsync hu
      exact ⟨⟨l, { hb with }, by simp [Knows]⟩, hp.goto (by simp [hpc', hpc]) (by simp)⟩
    | _ => simp [hpc] at hst
  | resume =>
    cases hst
    obtain ⟨hpc, hex⟩ := Bool.and_eq_true_iff.mp hen
    obtain ⟨⟨l, hb⟩, hp⟩ := hs.resumeTask hpc (by simpa using hex)
    exact ⟨⟨l, hb, knows_of_runs (by simp [Pc.runs, Scheduler.resumeTask, hpc])⟩, hp⟩
  | next =>
    obtain ⟨pc, hpc, rfl⟩ := Option.map_eq_some_iff.mp hst
    obtain ⟨hk', hout, hout'⟩ := hs.next hk hpc
    exact ⟨⟨l, { hs with }, hk'⟩, hidle.goto hout hout'⟩
  | adapt delta =>
    cases hst
    have hpc : s.pc = .adapt := beq_iff_eq.mp hen
    rw [Knows, hpc] at hk
    refine ⟨⟨l, { hs with }, trivial⟩, le_rfl, fun _ => ?_, fun hsized => .inr ⟨rfl, rfl, rfl, ?_⟩⟩
    · simp only [Sized, Scheduler.adapt]
      omega
    · rw [← hs.fifo, turn, hpc, if_neg (by decide)]
      exact hk.imp (fun hl => by simp [hl]) hsized.1.trans

section Runs

variable [DecidableEq η] {as bs : List (Act η)} {batch : ℕ}

abbrev Runs (s₀ : Scheduler η) (as : List (Act η)) (s : Scheduler η) : Prop :=
  Run step (fun _ _ => True) s₀ as s

theorem books_run (h : Runs { cpuBatch := batch } as s) : ∃ l, Books s l ∧ s.Knows l :=
  h.invariant (I := fun s => ∃ l, Books s l ∧ s.Knows l)
    ⟨[], ⟨⟨10, RingQueue.holds_init⟩, rfl, rfl, rfl⟩, by trivial⟩
    fun ⟨_, hs, hk⟩ _ hst => (hs.step hk hst).1

/-- **Every handle once, in order.**  Whatever the threads do, `resume_task` takes the handles in
the order they were scheduled in, none of them twice and none left out; `ready_` and `cpu_` count
modulo 2³² what is ready and what the executor has; and the owner blocks only with nothing ready, as
far as 32 bits can tell. -/
theorem scheduled_in_order (h : Runs { cpuBatch := batch } as s) :
    ∃ l, s.resumed ++ l = s.scheduled ∧ s.ready.size.toNat = l.length ∧
      s.readyCount = l.length % 2 ^ 32 ∧
      s.cpuCount = (s.pending.length + s.completed.length) % 2 ^ 32 ∧
        (s.pc = .wait → 2 ^ 32 ∣ l.length) := by
  obtain ⟨l, hs, hk⟩ := books_run h
  obtain ⟨e, he⟩ := hs.holds
  refine ⟨l, hs.fifo, he.size.2, hs.ready_eq, hs.cpu_eq, fun hpc => ?_⟩
  rw [Knows, hpc] at hk
  exact Nat.dvd_of_mod_eq_zero hk

theorem scheduled_in_order_two : ∃ s : Scheduler ℕ,
    Runs { cpuBatch := 64 } [.schedule 1, .enqueue 2, .sched, .take 0, .next, .next, .resume] s ∧
      (∃ l, s.resumed ++ l = s.scheduled) ∧ s.resumed = [1] ∧ s.scheduled = [1, 2] :=
  Run.exists_and_of_mem (fun h => (scheduled_in_order h).imp fun _ hl => hl.1) (by decide +kernel)

/-- **No handle waits long.**  From the start of a cycle, each cycle resumes 32 of the handles that
were scheduled by then, or all that are left of them. -/
theorem resumed_within {s₀ : Scheduler η} (h₀ : Runs { cpuBatch := batch } as s₀)
    (hsized : s₀.Sized)
    (hpc : s₀.pc = .outside) (h : Runs s₀ bs s) :
    min s₀.scheduled.length (s₀.resumed.length + 32 * (s.cycles - s₀.cycles)) ≤
      s.resumed.length := by
  -- within a cycle, what it has resumed counts too
  have hI := h.invariant (I := fun s => (∃ l, Books s l ∧ s.Knows l) ∧ s.Sized ∧
    s₀.scheduled.length ≤ s.scheduled.length ∧ s₀.cycles ≤ s.cycles ∧
    min s₀.scheduled.length (s₀.resumed.length + 32 * (s.cycles - s₀.cycles) + s.turn) ≤
      s.resumed.length)
    ⟨books_run h₀, hsized, le_rfl, le_rfl, by simp [turn, hpc]⟩ ?_
  · exact le_trans (by omega) hI.2.2.2.2
  rintro s a t ⟨⟨l, hs, hk⟩, hsized, hsched, hcycles, hmin⟩ - hst
  obtain ⟨hbooks, hp⟩ := hs.step hk hst
  refine ⟨hbooks, hp.sized hsized, hsched.trans hp.scheduled, ?_⟩
  obtain ⟨hc, n, hn⟩ | hcount := hp.count hsized <;> omega

theorem resumed_within_one : ∃ s₀ s : Scheduler ℕ, Runs s₀
    ([.sched, .next, .next, .resume] ++ replicate 8 .next ++ [.adapt 0]) s ∧ s₀.resumed = [] ∧
      1 ≤ s.resumed.length := by
  obtain ⟨s₀, h₀, hsized, hpc, hlen, hres, hex⟩ : ∃ s₀ : Scheduler ℕ, Runs { cpuBatch := 64 }
    [.schedule 7] s₀ ∧
      s₀.Sized ∧ s₀.pc = .outside ∧ s₀.scheduled.length = 1 ∧ s₀.resumed = [] ∧
        ∃ s ∈ exec step (fun _ _ => True) s₀
        ([.sched, .next, .next, .resume] ++ replicate 8 .next ++ [.adapt 0]),
          s.cycles - s₀.cycles = 1 :=
    Run.exists_of_mem (by decide +kernel)
  obtain ⟨s, h, hc⟩ := Run.exists_of_mem hex
  have hmin := resumed_within h₀ hsized hpc h
  rw [hlen, hres, hc] at hmin
  exact ⟨s₀, s, h, hres, hmin⟩

end Runs

end Scheduler

end Cornet.Runtime
