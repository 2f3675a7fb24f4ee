import Cornet.Machinery.Run
import Cornet.Runtime.Uring

/-!
# Runtime/UringInflight — what `io_inflight_` counts

    tail ── acquired ─▸ head = consumed by the kernel ─▸ posted ─▸ reaped

                       └──────── io_inflight_ ───────┘ ?

`submit` and the acquire calls count what `io_uring_submit` says it submitted; the waiting calls
count whatever was ready before the call.  The second is right only if the kernel takes all of it:
an entry that stays behind is counted again by the next call, and the tracker never reads idle
again.
-/

namespace Cornet.Uring

/-! ## The tracker -/

/-- `task_tracker_t`: four 32-bit counters. -/
structure Tracker where
  ready : ℕ := 0
  cpu : ℕ := 0
  userIo : ℕ := 0
  ioInflight : ℕ := 0
  deriving DecidableEq, Repr

namespace Tracker

/-- `task_tracker_t::io_submit`. -/
def ioSubmit (tr : Tracker) (n : ℕ) : Tracker :=
  { tr with ioInflight := (tr.ioInflight + n) % 2 ^ 32 }

/-- `task_tracker_t::io_complete`. -/
def ioComplete (tr : Tracker) (n : ℕ) : Tracker :=
  { tr with ioInflight := (tr.ioInflight + (2 ^ 32 - n % 2 ^ 32)) % 2 ^ 32 }

/-- `task_tracker_t::user_idle`. -/
def userIdle (tr : Tracker) : Bool := (tr.ready + tr.cpu + tr.userIo) % 2 ^ 32 = 0

/-- `task_tracker_t::idle`, `context_t::user_idle`. -/
def idle (tr : Tracker) : Bool := tr.userIdle && tr.ioInflight = 0

end Tracker

/-! ## The calls

The kernel has consumed `ring.head` entries, answered `posted` of them and been heard on
`reaped`. -/

/-- `uring_t`, with its tracker. -/
structure Rings where
  ring : Ring
  tracker : Tracker := {}
  posted : ℕ := 0
  reaped : ℕ := 0

/-- How `io_uring_submit` goes: what the kernel consumes, and whether the call reports an error. -/
structure Answer where
  consumed : ℕ
  failed : Bool := false
  deriving DecidableEq, Repr

/-- What a waiting call returns. -/
inductive Waited
  | ok
  | etime
  | error
  deriving DecidableEq, Repr

namespace Rings

variable (u : Rings)

/-- `io_uring_submit` and the count of its result, as `submit`, `get_sqe` and `get_sqes` do it. -/
def submit (a : Answer) : Rings :=
  { u with
    ring := u.ring.submit a.consumed
    tracker := if a.failed then u.tracker
      else u.tracker.ioSubmit ((u.ring.submit a.consumed).head - u.ring.head) }

/-- `uring_t::get_sqe`. -/
def getSqe (a : Answer) : Except Errno ℕ × Rings :=
  match u.ring.getSqe with
  | some (p, r) => (.ok p, { u with ring := r })
  | none =>
    match (u.submit a).ring.getSqe with
    | some (p, r) => (.ok p, { u.submit a with ring := r })
    | none => (.error .ENOBUFS, u.submit a)

/-- The loop of `get_sqes`, with `m` entries to go at index `i`. -/
def getSqesFrom (answers : ℕ → Answer) : ℕ → ℕ → List ℕ → Rings → Except Errno (List ℕ) × Rings
  | 0, _, out, u => (.ok out, u)
  | m + 1, i, out, u =>
    match u.getSqe (answers i) with
    | (.ok p, u') => getSqesFrom answers m (i + 1) (out ++ [p]) u'
    | (.error e, u') => (.error e, { u' with ring := out.foldl Ring.prepNop u'.ring })

/-- `uring_t::get_sqes`. -/
def getSqes (answers : ℕ → Answer) (n : ℕ) : Except Errno (List ℕ) × Rings :=
  getSqesFrom answers n 0 [] u

/-- The kernel answers `j` more of the entries it has consumed, as far as there are any. -/
def post (j : ℕ) : Rings := { u with posted := min (u.posted + j) u.ring.head }

/-- `process_cqes`: everything posted is dispatched and counted. -/
def processCqes : Rings :=
  { u with tracker := u.tracker.ioComplete (u.posted - u.reaped), reaped := u.posted }

/-- A liburing call that flushes and waits: the kernel consumes `k` entries and answers `j`; what
counts as submitted is what was ready before. -/
def flush (k j : ℕ) : Rings :=
  post { u with ring := u.ring.submit k, tracker := u.tracker.ioSubmit (u.ring.tail - u.ring.head) }
    j

/-- The two waits with a timeout; only a timeout skips the completions. -/
def waitCqesFor (k j : ℕ) (ret : Waited) : Rings :=
  if ret = .etime then u.flush k j else (u.flush k j).processCqes

/-- `uring_t::submit_and_wait_cqes`. -/
def submitAndWaitCqes (k j : ℕ) (ret : Waited) : Rings := u.waitCqesFor k j ret

/-- The wait without a timeout: any error skips the completions. -/
def waitCqes (k j : ℕ) (ret : Waited) : Rings := if ret = .ok then (u.flush k j).processCqes
    else u.flush k j

/-- `uring_t::peek_cqes`. -/
def peekCqes : Rings := if u.posted - u.reaped = 0 then u else u.processCqes

end Rings

/-! ## The system -/

inductive Act
  | getSqe (a : Answer)
  | getSqes (n : ℕ) (answers : ℕ → Answer)
  | submit (a : Answer)
  | waitCqesFor (k j : ℕ) (ret : Waited)
  | submitAndWaitCqes (k j : ℕ) (ret : Waited)
  | waitCqes (k j : ℕ) (ret : Waited)
  | peekCqes
  /-- the kernel answers between calls -/
  | post (j : ℕ)
  /-- coroutines, tasks of the executor and operations of the user come and go -/
  | work (ready cpu userIo : ℕ)

def step (u : Rings) : Act → Option Rings
  | .getSqe a => some (u.getSqe a).2
  | .getSqes n answers => some (u.getSqes answers n).2
  | .submit a => some (u.submit a)
  | .waitCqesFor k j ret => some (u.waitCqesFor k j ret)
  | .submitAndWaitCqes k j ret => some (u.submitAndWaitCqes k j ret)
  | .waitCqes k j ret => some (u.waitCqes k j ret)
  | .peekCqes => some u.peekCqes
  | .post j => some (u.post j)
  | .work ready cpu userIo => some { u with tracker := { u.tracker with ready, cpu, userIo } }

/-- `io_inflight_` is the number of entries consumed and not yet reaped, as far as 32 bits can tell;
and once the kernel has answered everything, one `peek_cqes` makes the tracker idle unless user work
is left. -/
structure Rings.Exact (u : Rings) : Prop where
  inflight : u.ring.head - u.reaped < 2 ^ 32 → u.tracker.ioInflight = u.ring.head - u.reaped
  idle : u.posted = u.ring.head → u.peekCqes.tracker.idle = u.peekCqes.tracker.userIdle

/-- A call of `io_uring_submit` that fails consumes nothing, and a call that waits consumes all that
is ready. -/
def Thorough (u : Rings) : Act → Prop
  | .getSqe a | .submit a => a.failed = true → a.consumed = 0
  | .getSqes _ answers => ∀ i, (answers i).failed = true → (answers i).consumed = 0
  | .waitCqesFor k _ _ | .submitAndWaitCqes k _ _ | .waitCqes k _ _ => u.ring.tail - u.ring.head ≤ k
  | .peekCqes | .post _ | .work _ _ _ => True

/-! ## The invariant -/

structure Inv (u : Rings) : Prop where
  inflight : u.tracker.ioInflight = (u.ring.head - u.reaped) % 2 ^ 32
  reaped_le : u.reaped ≤ u.posted
  posted_le : u.posted ≤ u.ring.head

variable {u t : Rings} {a : Answer}

theorem Inv.processCqes (h : Inv u) : Inv u.processCqes where
  inflight := by
    have := h.reaped_le
    have := h.posted_le
    simp only [Rings.processCqes, Tracker.ioComplete, h.inflight]
    omega
  reaped_le := le_rfl
  posted_le := h.posted_le

theorem Inv.peekCqes (h : Inv u) : Inv u.peekCqes := by
  rw [Rings.peekCqes]
  split_ifs
  · exact h
  · exact h.processCqes

theorem reaped_peekCqes (h : Inv u) : u.peekCqes.reaped = u.posted ∧ u.peekCqes.ring = u.ring := by
  have hle := h.reaped_le
  rw [Rings.peekCqes]
  split_ifs
  · exact ⟨by omega, rfl⟩
  · exact ⟨rfl, rfl⟩

theorem Inv.exact (h : Inv u) : u.Exact where
  inflight hlt := by rw [h.inflight, Nat.mod_eq_of_lt hlt]
  idle hposted := by
    obtain ⟨hreaped, hring⟩ := reaped_peekCqes h
    have hzero : u.peekCqes.tracker.ioInflight = 0 := by
      rw [h.peekCqes.inflight, hreaped, hring, hposted, Nat.sub_self, Nat.zero_mod]
    rw [Tracker.idle, hzero, decide_eq_true rfl, Bool.and_true]

theorem Inv.post (h : Inv u) (j : ℕ) : Inv (u.post j) where
  inflight := h.inflight
  reaped_le := h.reaped_le.trans (le_min (Nat.le_add_right _ _) h.posted_le)
  posted_le := Nat.min_le_right _ _

/-- Entries are acquired or filled in: nothing the kernel has seen changes. -/
theorem Inv.setRing {r : Ring} (h : Inv u) (hr : r.head = u.ring.head) : Inv { u with ring := r }
    where
  inflight := by
    simp only [hr]
    exact h.inflight
  reaped_le := h.reaped_le
  posted_le := h.posted_le.trans_eq hr.symm

/-- The kernel consumes, and as much is counted. -/
theorem Inv.consume {n : ℕ} (h : Inv u) (k : ℕ) (hn : (u.ring.submit k).head = u.ring.head + n) :
    Inv { u with ring := u.ring.submit k, tracker := u.tracker.ioSubmit n } where
  inflight := by
    have := h.reaped_le.trans h.posted_le
    simp only [Tracker.ioSubmit, h.inflight, hn]
    omega
  reaped_le := h.reaped_le
  posted_le := h.posted_le.trans (by simp only [hn]; omega)

theorem head_submit (r : Ring) (k : ℕ) : (r.submit k).head = min (r.head + k) r.tail := rfl

theorem head_le_tail (r : Ring) : r.head ≤ r.tail := r.head_le_handed.trans r.handed_le_tail

theorem Inv.submit (h : Inv u) (ha : a.failed = true → a.consumed = 0) : Inv (u.submit a) := by
  have hle := head_le_tail u.ring
  rw [Rings.submit]
  split_ifs with hf
  · refine h.setRing ?_
    rw [head_submit, ha hf]
    omega
  · refine h.consume _ ?_
    rw [head_submit]
    omega

theorem Inv.flush (h : Inv u) {k : ℕ} (hk : u.ring.tail - u.ring.head ≤ k) (j : ℕ) : Inv
    (u.flush k j) := by
  have hle := head_le_tail u.ring
  refine (h.consume k ?_).post j
  rw [head_submit]
  omega

theorem head_getSqe {r r' : Ring} {p : ℕ} (h : r.getSqe = some (p, r')) : r'.head = r.head := by
  rw [Ring.getSqe] at h
  split_ifs at h
  cases h
  rfl

theorem Inv.getSqe (h : Inv u) (ha : a.failed = true → a.consumed = 0) : Inv (u.getSqe a).2 := by
  rw [Rings.getSqe]
  split
  · exact h.setRing (head_getSqe ‹_›)
  · split
    · exact (h.submit ha).setRing (head_getSqe ‹_›)
    · exact h.submit ha

theorem head_prepNops (out : List ℕ) (r : Ring) : (out.foldl Ring.prepNop r).head = r.head := by
  induction out generalizing r with
  | nil => rfl
  | cons p out ih => exact ih _

theorem Inv.getSqesFrom {answers : ℕ → Answer}
    (ha : ∀ i, (answers i).failed = true → (answers i).consumed = 0) :
    ∀ (m i : ℕ) (out : List ℕ) {u : Rings}, Inv u → Inv (Rings.getSqesFrom answers m i out u).2
  | 0, _, _, _, h => h
  | m + 1, i, out, u, h => by
      have hget := h.getSqe (ha i)
      rw [Rings.getSqesFrom]
      split <;> rename_i hres <;> rw [hres] at hget
      · exact getSqesFrom ha m _ _ hget
      · exact hget.setRing (head_prepNops _ _)

/-! ## Every sequence of calls -/

theorem Inv.waitCqesFor (h : Inv u) {k : ℕ} (hk : u.ring.tail - u.ring.head ≤ k) (j : ℕ)
    (ret : Waited) :
    Inv (u.waitCqesFor k j ret) := by
  rw [Rings.waitCqesFor]
  split_ifs
  · exact h.flush hk j
  · exact (h.flush hk j).processCqes

theorem Inv.waitCqes (h : Inv u) {k : ℕ} (hk : u.ring.tail - u.ring.head ≤ k) (j : ℕ)
    (ret : Waited) :
    Inv (u.waitCqes k j ret) := by
  rw [Rings.waitCqes]
  split_ifs
  · exact (h.flush hk j).processCqes
  · exact h.flush hk j

theorem Inv.step {act : Act} (h : Inv u) (hok : Thorough u act) (hst : step u act = some t) : Inv
    t := by
  cases act with
  | getSqe a =>
    obtain rfl := Option.some.inj hst
    exact h.getSqe hok
  | getSqes n answers =>
    obtain rfl := Option.some.inj hst
    exact Inv.getSqesFrom hok n 0 [] h
  | submit a =>
    obtain rfl := Option.some.inj hst
    exact h.submit hok
  | waitCqesFor k j ret | submitAndWaitCqes k j ret =>
    obtain rfl := Option.some.inj hst
    exact h.waitCqesFor hok j ret
  | waitCqes k j ret =>
    obtain rfl := Option.some.inj hst
    exact h.waitCqes hok j ret
  | peekCqes =>
    obtain rfl := Option.some.inj hst
    exact h.peekCqes
  | post j =>
    obtain rfl := Option.some.inj hst
    exact h.post j
  | work ready cpu userIo =>
    obtain rfl := Option.some.inj hst
    exact ⟨h.inflight, h.reaped_le, h.posted_le⟩

/-- A ring nobody has used. -/
def Rings.fresh (entries : ℕ) : Rings where
  ring :=
    { entries, head := 0, handed := 0, tail := 0, prepared := fun _ => false
      head_le_handed := le_rfl, handed_le_tail := le_rfl, tail_le := Nat.zero_le _ }

/-- **The count is exact** after any calls, as long as a failed submission consumes nothing and a
wait consumes all that is ready. -/
theorem inflight_exact {entries : ℕ} {as : List Act}
    (h : Run step Thorough (.fresh entries) as u) : u.Exact :=
  (h.invariant (I := Inv) ⟨rfl, le_rfl, le_rfl⟩ Inv.step).exact

/-- Two operations leave with a submission forced by a full ring, a third with a wait that times
out. -/
def forcedWord : List Act :=
  [.getSqes 2 fun _ => ⟨0, false⟩, .getSqe ⟨2, false⟩, .submitAndWaitCqes 1 1 .etime,
    .waitCqes 0 1 .ok]

theorem inflight_exact_forced : ∃ u : Rings, Run step Thorough (.fresh 2) forcedWord u ∧ u.Exact ∧
    u.ring.head = 3 ∧ u.reaped = 2 ∧ u.tracker.ioInflight = 1 := by
  have hrun : Run step Thorough (.fresh 2) forcedWord
      (((((Rings.fresh 2).getSqes (fun _ => ⟨0, false⟩) 2).2.getSqe ⟨2, false⟩).2.submitAndWaitCqes
        1 1 .etime).waitCqes
        0 1 .ok) := by
    refine Run.cons (fun _ h => absurd h Bool.false_ne_true) rfl ?_
    refine Run.cons (fun h => absurd h Bool.false_ne_true) rfl ?_
    refine Run.cons (show _ ≤ 1 by decide +kernel) rfl ?_
    exact Run.cons (show _ ≤ 0 by decide +kernel) rfl .nil
  exact ⟨_, hrun, inflight_exact hrun, by decide +kernel, by decide +kernel, by decide +kernel⟩

/-- **Counted twice.**  A wait fails before the kernel has looked at the one entry that is ready;
the next submission carries it.  The operation is answered and reaped, and the tracker still counts
one. -/
theorem failed_wait_counts_twice : ∃ u : Rings,
    Run step (fun _ _ => True) (.fresh 2)
      [.getSqe ⟨0, false⟩, .submitAndWaitCqes 0 0 .error, .submit ⟨1, false⟩, .post 1, .peekCqes]
        u ∧
      u.ring.head = 1 ∧ u.reaped = 1 ∧ u.tracker.ioInflight = 1 ∧ u.tracker.userIdle = true ∧
        ¬ u.Exact := by
  refine ⟨(((((Rings.fresh 2).getSqe ⟨0, false⟩).2.submitAndWaitCqes 0 0 .error).submit
    ⟨1, false⟩).post 1).peekCqes,
    ?_, by decide +kernel, by decide +kernel, by decide +kernel, by decide +kernel, fun h => ?_⟩
  · exact Run.cons trivial rfl <| .cons trivial rfl <| .cons trivial rfl <| .cons trivial rfl <|
      .cons trivial rfl .nil
  · exact absurd (h.inflight (by decide +kernel)) (by decide +kernel)

end Cornet.Uring
