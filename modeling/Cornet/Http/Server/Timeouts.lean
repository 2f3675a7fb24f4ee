import Cornet.Http.Server.Receive

/-!
# Http/Server/Timeouts — which deadline a read waits under (`connection_t::run`)

    idle ─ fill ─ header | body ─ parse · dispatch ─ flush ─ idle ─ fill ─ …
                                    └ read_body_chunk:  body ─ fill

The receiving half once more, with a clock: the deadline is armed before the loop, after every read,
before the reads of a streamed body, and at the end of a round.  `Timed` keeps a record of every
read that waits: the phase the request was in, and the deadline that was armed.  Nothing else
changes (`erases_run`).
-/

namespace Cornet.Http.Server

/-! ## Deadlines -/

/-- How far the next request has come. -/
inductive Phase
  | idle | header | body
  deriving DecidableEq, Repr

/-- The timeouts of `server_options_t`, in milliseconds; 0 is none. -/
structure Timeouts where
  idle : ℕ := 60000
  header : ℕ := 10000
  body : ℕ := 30000

def Timeouts.of (o : Timeouts) : Phase → ℕ
  | .idle => o.idle
  | .header => o.header
  | .body => o.body

/-- The end of a budget of `d` milliseconds that is set at `t`. -/
def endsAfter (t d : ℕ) : Option ℕ := if d = 0 then none else some (t + d)

/-- What `set_budget` armed last: which of the timeouts, and when it ends. -/
structure Armed where
  phase : Phase
  ends : Option ℕ
  deriving DecidableEq, Repr

/-- A read that waits. -/
structure Suspension where
  /-- In `read_body_chunk`. -/
  streaming : Bool
  phase : Phase
  armed : Armed
  now : ℕ
  /-- When the first byte of the request arrived, and when anything did. -/
  first : ℕ
  last : ℕ
  deriving DecidableEq, Repr

/-- **The deadline fits the phase**: the idle timeout between requests; inside a header section one
that ends no later than `header_timeout` after the first byte; inside a body `body_timeout` after
the last data. -/
def Suspension.Fits (o : Timeouts) (x : Suspension) : Prop :=
  match x.phase with
  | .idle => x.armed.phase = .idle
  | .header =>
    x.armed.phase ≠ .idle ∧ (o.header = 0 ∨ ∃ d, x.armed.ends = some d ∧ d ≤ x.first + o.header)
  | .body => x.armed.phase ≠ .idle ∧ x.armed.ends = endsAfter x.last o.body

/-- **The reads that are timed right**: the one of a round with no request begun, and the one of a
streamed body that the handler asks for when the last data arrives. -/
def Suspension.Timely (o : Timeouts) (x : Suspension) : Prop :=
  if x.streaming then x.now = x.last ∨ o.body = 0 else x.phase = .idle

/-- A connection and its clock. -/
structure Timed where
  conn : Receiver
  now : ℕ := 0
  /-- How long what takes time takes. -/
  ticks : ℕ → ℕ := fun _ => 0
  armed : Armed := ⟨.idle, none⟩
  first : ℕ := 0
  last : ℕ := 0
  log : List Suspension := []

abbrev Timing (α : Type) := Coro Timed ReadError α

/-- The phase the parser is in. -/
def Receiver.phase (s : Receiver) : Phase :=
  if s.parser.past then .body else if s.intake.head.parsing then .header else .idle

namespace Timed

open Coro

/-! ## The pieces -/

/-- Time passes. -/
def passed (t : Timed) : Timed :=
  { t with now := t.now + t.ticks 0, ticks := fun i => t.ticks (i + 1) }

/-- `set_budget`. -/
def budgeted (o : Timeouts) (ph : Phase) (t : Timed) : Timed :=
  { t with armed := ⟨ph, endsAfter t.now (o.of ph)⟩ }

/-- The read a connection is about to wait in. -/
def suspension (streaming : Bool) (t : Timed) : Suspension :=
  ⟨streaming, t.conn.phase, t.armed, t.now, t.first, t.last⟩

/-- A read waits, if it is made at all. -/
def suspended (streaming : Bool) (t : Timed) : Timed :=
  if t.conn.intake.head.room = 0 then t else { t with log := t.log ++ [t.suspension streaming] }

/-- A read is over. -/
def heard (r : Except ReadError ℕ) (t : Timed) : Timed :=
  match r with
  | .ok (_ + 1) => { t with last := t.now }
  | _ => t

/-- What takes no time.  A message that begins does so in what arrived last. -/
def lift {α : Type} (m : Serving α) : Timing α := fun t =>
  ({ t with
    conn := (m t.conn).1
    first := if !t.conn.intake.head.parsing && (m t.conn).1.intake.head.parsing then t.last
      else t.first },
    (m t.conn).2)

/-- `fill`. -/
def fill (streaming : Bool) : Timing (Except ReadError ℕ) := do
  modify (suspended streaming)
  modify passed
  let r ← lift (Receiver.onIntake Intake.fill)
  modify (heard r)
  pure r

/-! ## Reading a body -/

variable (o : Timeouts) (app : App)

/-- The rest of a body is still on the wire. -/
def readMore : Timing Turn := do
  lift (modify fun s =>
    { s with intake := s.intake.setHead (s.intake.head.rewindTo s.intake.bodyWindow) })
  modify (budgeted o .body)
  match ← fill true with
  | .error e => pure (.failed e)
  | .ok 0 => pure .eof
  | .ok (n + 1) =>
    match ← lift (Receiver.onIntake fun s => s.execute s.bodyWindow (n + 1)) with
    | .error => pure (.failed ((← get).conn.intake.errorOr .invalidState))
    | .messageReady => lift (Receiver.onIntake Intake.takeTail)
    | _ => pure .again

/-- The turn of `read_body_chunk`; a handler takes its time before it asks. -/
def readTurn (complete : Bool) : Timing Turn := do
  let s := (← get).conn.intake
  if s.parser.pendingBody ≠ [] ∨ complete = true then
    lift (Receiver.onIntake (Intake.readTurn · complete))
  else
    match ← lift (Receiver.onIntake Intake.resume) with
    | .bodyPaused => pure .again
    | .messageReady => pure (.done [])
    | .needMore =>
      modify passed
      readMore o
    | _ => pure (.failed ((← get).conn.intake.errorOr .invalidState))

def chunkTurn : Timing (Unit ⊕ List Byte) := do
  match ← readTurn o (← get).conn.bodyComplete with
  | .again => pure (.inl ())
  | .run l => pure (.inr l)
  | .done tail =>
    lift (modify fun s => { s with bodyComplete := true })
    pure (.inr tail)
  | .eof => fail (.sys eConnReset)
  | .failed e => fail e

def readBodyChunk (n : ℕ) : Timing (List Byte) := loop (fun _ => chunkTurn o) n ()

def viewsTurn (n : ℕ) (views : List (List Byte)) : Timing
    (List (List Byte) ⊕ List (List Byte)) := do
  let run ← readBodyChunk o n
  pure (if run = [] then .inr views else .inl (views ++ [run]))

def readViews (n : ℕ) : Timing (List (List Byte)) := loop (viewsTurn o n) n []

/-! ## A round -/

/-- The top of a round: the deadline is the one the last round left. -/
def roundStart : Timing (Except Bool Result) := do
  lift (modify Receiver.rewind)
  if (← get).conn.parser.hasPendingInput then pure (.ok (← lift (Receiver.onIntake Intake.resume)))
  else
    match ← fill false with
    | .error (.sys e) => pure (.error (e == eAgain))
    | .error _ => pure (.error false)
    | .ok 0 => pure (.error false)
    | .ok (n + 1) =>
      modify fun t => t.budgeted o (if t.conn.inBody then .body else .header)
      pure (.ok (← lift (Receiver.onIntake fun s => s.execute (s.head.w - (n + 1)) (n + 1))))

def onHeaders (n : ℕ) : Timing (Result ⊕ Unit) := do
  let s := (← get).conn
  match app.route s.parser.facts s.parser.targetText with
  | none => lift (do modify Receiver.writeError; pure (.inr ()))
  | some policy =>
    match s.prepareBody policy with
    | .error _ => lift (do modify Receiver.writeError; pure (.inr ()))
    | .ok t =>
      lift (modify fun _ => t.enterBody)
      if t.streaming then
        match ← attempt (readViews o n) with
        | .error _ => lift (do modify Receiver.writeError; pure (.inr ()))
        | .ok views =>
          lift (modify fun s => { s with inBody := false })
          lift (Receiver.settle app (t.request views.flatten))
      else pure (.inl (← lift (Receiver.onIntake Intake.resume)))

def dispatchTurn (n : ℕ) : Result → Timing (Result ⊕ Unit)
  | .headersReady => onHeaders o app n
  | r => lift (Receiver.dispatchTurn app n r)

/-- The end of a round: the next one begins under the idle timeout. -/
def roundEnd : Timing Bool := do
  modify passed
  let more ← lift Receiver.roundEnd
  modify fun t => if more then t.budgeted o .idle else t
  pure more

def round (n : ℕ) : Timing (Unit ⊕ Unit) := do
  match ← roundStart o with
  | .error again => pure (if again then .inl () else .inr ())
  | .ok r =>
    loop (dispatchTurn o app n) n r
    pure (if ← roundEnd o then .inl () else .inr ())

/-- `run`. -/
def run (n : ℕ) : Timing Unit := do
  modify (budgeted o .idle)
  loop (fun _ => round o app n) n ()

/-! ## The clock is only read -/

variable {o app}

theorem erases_lift {α : Type} (m : Serving α) (t : Timed) : Erases conn (lift m) m t := ⟨rfl, rfl⟩

theorem conn_suspended (streaming : Bool) (t : Timed) : (t.suspended streaming).conn = t.conn := by
  rw [suspended]
  split_ifs <;> rfl

theorem conn_heard (r : Except ReadError ℕ) (t : Timed) : (t.heard r).conn = t.conn := by
  rcases r with _ | _ | _ <;> rfl

theorem erases_fill (streaming : Bool) (t : Timed) :
    Erases conn (fill streaming) (Receiver.onIntake Intake.fill) t :=
  .modify_bind (conn_suspended streaming t) (.modify_bind rfl ((erases_lift _ _).tap conn_heard))

/-- `readMore`, step by step. -/
theorem onIntake_readMore : (Receiver.onIntake Intake.readMore : Serving Turn) = (do
    modify fun s => { s with intake := s.intake.setHead
                               (s.intake.head.rewindTo s.intake.bodyWindow) }
    match ← Receiver.onIntake Intake.fill with
    | .error e => pure (.failed e)
    | .ok 0 => pure .eof
    | .ok (n + 1) =>
      match ← Receiver.onIntake fun s => s.execute s.bodyWindow (n + 1) with
      | .error => pure (.failed ((← get).intake.errorOr .invalidState))
      | .messageReady => Receiver.onIntake Intake.takeTail
      | _ => pure .again) := by
  funext s
  rw [Receiver.onIntake, Intake.readMore, Intake.refill]
  refine Eq.trans ?_ (Coro.bind_ok (rfl : Coro.modify _ s = (_, .ok ()))).symm
  rcases hfill : (s.intake.setHead (s.intake.head.rewindTo s.intake.bodyWindow)).fill with
    ⟨i, e | _ | n⟩
  · rw [Coro.bind_ok (a := .error e) (t := { s with intake := i })
      (by rw [Receiver.onIntake, hfill])]
    rfl
  · rw [Coro.bind_ok (a := .ok 0) (t := { s with intake := i }) (by rw [Receiver.onIntake, hfill])]
    rfl
  · rw [Coro.bind_ok (a := .ok (n + 1)) (t := { s with intake := i })
      (by rw [Receiver.onIntake, hfill])]
    dsimp only
    rcases hexec : i.execute i.bodyWindow (n + 1) with ⟨j, r⟩
    rw [Coro.bind_ok (a := r) (t := { s with intake := j }) (by rw [Receiver.onIntake, hexec])]
    simp only [hexec]
    cases r <;> rfl

theorem erases_readMore (t : Timed) : Erases conn (readMore o) (Receiver.onIntake Intake.readMore)
    t := by
  rw [onIntake_readMore]
  refine (erases_lift _ _).bind fun _ t => .modify_bind rfl
    ((erases_fill true _).bind fun r t => ?_)
  rcases r with e | _ | n
  · exact erases_pure _
  · exact erases_pure _
  · refine (erases_lift _ _).bind fun r t => ?_
    cases r with
    | error => exact ⟨rfl, rfl⟩
    | messageReady => exact erases_lift _ _
    | needMore | headersReady | bodyPaused | upgrade => exact erases_pure _

/-- `readTurn`, step by step, when there is nothing to hand out. -/
theorem onIntake_readTurn {s : Receiver} (hrun : s.intake.parser.pendingBody = []) :
    (Receiver.onIntake (Intake.readTurn · false) : Serving Turn) s = (do
      match ← Receiver.onIntake Intake.resume with
      | .bodyPaused => pure .again
      | .messageReady => pure (.done [])
      | .needMore => Receiver.onIntake Intake.readMore
      | _ => pure (.failed ((← get).intake.errorOr .invalidState)) : Serving Turn) s := by
  rcases hresume : s.intake.resume with ⟨i, r⟩
  rw [Coro.bind_ok (a := r) (t := { s with intake := i }) (by rw [Receiver.onIntake, hresume]),
    Receiver.onIntake,
    Intake.readTurn, if_neg (not_not.2 hrun), if_neg Bool.false_ne_true]
  simp only [hresume]
  cases r <;> rfl

theorem erases_readTurn (complete : Bool) (t : Timed) :
    Erases conn (readTurn o complete) (Receiver.onIntake (Intake.readTurn · complete)) t := by
  change Erases conn (if t.conn.intake.parser.pendingBody ≠ [] ∨ complete = true then _
    else _ : Timing Turn) _ t
  split_ifs with h
  · exact erases_lift _ _
  · rw [not_or, not_not, Bool.not_eq_true] at h
    obtain ⟨hrun, rfl⟩ := h
    rw [Erases, onIntake_readTurn hrun]
    refine (erases_lift _ _).bind fun r t => ?_
    cases r with
    | needMore => exact .modify_bind rfl (erases_readMore _)
    | bodyPaused | messageReady => exact erases_pure _
    | headersReady | upgrade | error => exact ⟨rfl, rfl⟩

theorem erases_chunkTurn (t : Timed) : Erases conn (chunkTurn o) Receiver.chunkTurn t := by
  refine erases_get_bind ((erases_readTurn t.conn.bodyComplete t).bind fun r t => ?_)
  cases r with
  | again | run => exact erases_pure _
  | done tail => exact (erases_lift _ _).bind fun _ t => erases_pure _
  | eof | failed => exact erases_fail _

theorem erases_readViews (n : ℕ) (t : Timed) : Erases conn (readViews o n) (Receiver.readViews n)
    t := by
  refine erases_loop (fun views t => ?_) n [] t
  exact (erases_loop (fun _ t => erases_chunkTurn t) n () t).bind fun _ _ => erases_pure _

theorem erases_roundStart (t : Timed) : Erases conn (roundStart o) Receiver.roundStart t := by
  refine (erases_lift _ _).bind fun _ t => erases_get_bind ?_
  split_ifs
  · exact (erases_lift _ _).bind fun _ _ => erases_pure _
  · refine (erases_fill false t).bind fun r t => ?_
    rcases r with e | _ | n
    · cases e <;> exact erases_pure _
    · exact erases_pure _
    · exact .modify_bind rfl ((erases_lift _ _).bind fun _ _ => erases_pure _)

theorem erases_onHeaders (n : ℕ) (t : Timed) : Erases conn (onHeaders o app n)
    (Receiver.onHeaders app n) t := by
  refine erases_get_bind ?_
  dsimp only
  cases app.route t.conn.parser.facts t.conn.parser.targetText with
  | none => exact erases_lift _ _
  | some policy =>
    dsimp only
    cases t.conn.prepareBody policy with
    | error e => exact erases_lift _ _
    | ok s =>
      refine (erases_lift _ _).bind fun _ t => ?_
      split_ifs
      · refine (erases_readViews n t).attempt.bind fun r t => ?_
        cases r with
        | error e => exact erases_lift _ _
        | ok views => exact (erases_lift _ _).bind fun _ t => erases_lift _ _
      · exact (erases_lift _ _).bind fun _ _ => erases_pure _

theorem erases_dispatchTurn (n : ℕ) (r : Result) (t : Timed) :
    Erases conn (dispatchTurn o app n r) (Receiver.dispatchTurn app n r) t := by
  cases r with
  | headersReady => exact erases_onHeaders n t
  | needMore | messageReady | bodyPaused | upgrade | error => exact erases_lift _ _

theorem erases_roundEnd (t : Timed) : Erases conn (roundEnd o) Receiver.roundEnd t := by
  refine .modify_bind rfl ((erases_lift _ _).tap fun more t => ?_)
  split_ifs <;> rfl

theorem erases_round (n : ℕ) (t : Timed) : Erases conn (round o app n) (Receiver.round app n)
    t := by
  refine (erases_roundStart t).bind fun r t => ?_
  cases r with
  | error again => exact erases_pure _
  | ok r =>
    exact (erases_loop (fun r t => erases_dispatchTurn n r t) n r t).bind fun _ t =>
      (erases_roundEnd t).bind fun _ _ => erases_pure _

/-- **The timed connection is the receiving one**, whatever the clock does. -/
theorem erases_run (n : ℕ) (t : Timed) : Erases conn (run o app n) (Receiver.run app n) t :=
  .modify_bind rfl (erases_loop (fun _ t => erases_round n t) n () _)

end Timed

end Cornet.Http.Server
