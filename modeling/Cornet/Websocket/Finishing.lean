import Cornet.Machinery.Coro
import Cornet.Websocket.Duplex

/-!
# Websocket/Finishing — the end of a session (`session_t::finish`)

    request_close:  closing_, canceler ✗        finish:  Close ─▸ wait for the peer's ─▸ FIN, drain ─▸ abandon
                                                                   └── recv under the same canceler

`finish` sends its Close and waits for the peer's, within `close_timeout`.  The reads of that wait
are bound to the canceler that `request_close` has cancelled: they return at once, and only what had
arrived before can still be seen.  `Ending` keeps the reasons the wait may end for.
-/

namespace Cornet.Websocket

open List Coro

/-! ## The transport and the clock -/

/-- What a read that waits gets: bytes (none at the end of the input), an error, or the deadline's
fire. -/
inductive Heard
  | got (l : List Byte)
  | error
  | expire
  deriving DecidableEq, Repr

/-- How the write of a frame goes, and whether the deadline fires during it. -/
structure Wrote where
  ok : Bool
  fires : Bool := false
  deriving DecidableEq, Repr

/-- Why `step` fails. -/
inductive Cause
  | cancelled | expired | transport | protocol
  deriving DecidableEq, Repr

/-- A session that ends: its flags, its deadline and canceler, and its transport, which gives out
what it has decrypted before it reads.  The last fields are for the reader: what was written, and
whether the transport or the protocol failed or the time ran out in the wait. -/
structure Ending where
  session : Session
  closing : Bool := false
  closeWait : Bool := false
  fired : Bool := false
  cancelled : Bool := false
  plain : List (List Byte) := []
  peer : List Heard := []
  writes : List Wrote := []
  abandoned : Bool := false
  sent : List (Opcode × List Byte) := []
  failure : Bool := false
  expired : Bool := false

namespace Ending

abbrev Task := Coro Ending Cause

/-- `transport_t::recv` under the deadline's canceler.  No more of the peer: the read waits. -/
def recv (len : ℕ) : Task (List Byte) := fun e =>
  match e.plain with
  | l :: rest =>
    ({ e with plain := if l.length ≤ len then rest else l.drop len :: rest }, .ok (l.take len))
  | [] =>
    if e.cancelled then (e, .error (some (if e.fired then .expired else .cancelled)))
    else
      match e.peer with
      | [] => (e, .error none)
      | .got l :: rest =>
        ({ e with peer := if l.length ≤ len then rest else .got (l.drop len) :: rest },
          .ok (l.take len))
      | .error :: rest => ({ e with peer := rest }, .error (some .transport))
      | .expire :: rest =>
        ({ e with peer := rest, fired := true, cancelled := true,
                  expired := e.expired || e.closeWait },
          .error (some .expired))

/-- The transport or the protocol has failed. -/
def fails (c : Cause) {α : Type} : Task α := do
  Coro.modify fun e => { e with failure := true }
  Coro.fail c

/-- `fill`; the end of the input is an error to its callers. -/
def fill : Task Unit := do
  let e ← Coro.get
  if e.session.fillBuffer.room = 0 then fails .transport
  else
    match ← Coro.attempt (recv e.session.fillBuffer.room) with
    | .ok [] => fails .transport
    | .ok (b :: l) => Coro.modify fun e => { e with session := e.session.filled (b :: l) }
    | .error .transport => fails .transport
    | .error c => Coro.fail c

/-- `send_control`: a write, which nothing cancels. -/
def sendControl (op : Opcode) (payload : List Byte) : Task Unit := fun e =>
  match e.writes with
  | [] => (e, .error none)
  | w :: rest =>
    let e := { e with
      writes := rest
      fired := e.fired || w.fires
      cancelled := e.cancelled || w.fires
      expired := e.expired || (w.fires && e.closeWait)
      session := (e.session.frame op (payload.take kMaxControlPayload)).1 }
    if w.ok then ({ e with sent := e.sent ++ [(op, payload.take kMaxControlPayload)] }, .ok ())
    else ({ e with failure := true }, .error (some .transport))

def setState (st : CloseState) : Task Unit :=
  Coro.modify fun e => { e with session := { e.session with state := st } }

/-- `close`, with a code it accepts and no reason. -/
def close (code : CloseCode) : Task Unit := do
  let e ← Coro.get
  if e.session.state ≠ .opened then pure ()
  else
    sendControl .close (closeBody code.toNat [])
    setState .closeSent

def failProtocol (code : CloseCode) {α : Type} : Task α := do
  let e ← Coro.get
  if e.session.state = .opened ∧ e.fired = false then
    let _ ← Coro.attempt (close code)
    fails .protocol
  else fails .protocol

/-- A whole, well-formed Close. -/
def peerClose (payload : List Byte) : Task Unit := do
  let e ← Coro.get
  setState .closeReceived
  if e.session.state = .opened then sendControl .close payload else pure ()

/-- What the loop of `step(false)` does after its turn: messages are dropped. -/
def onEvent : Event → Task (Unit ⊕ Unit)
  | .again => pure (.inl ())
  | .message _ _ => pure (.inl ())
  | .fill => do
    fill
    pure (.inl ())
  | .pong payload => do
    sendControl .pong payload
    pure (.inl ())
  | .violation _ code => failProtocol code
  | .peerClose payload => do
    peerClose payload
    pure (.inr ())
  | .failed => fails .protocol
  -- undefined behaviour
  | .overrun => fun e => (e, .error none)

/-- The session after a turn of its loop. -/
def turned (e : Ending) : Ending := { e with session := e.session.iterate.1 }

def turn (_ : Unit) : Task (Unit ⊕ Unit) := do
  let e ← Coro.get
  Coro.modify turned
  onEvent e.session.iterate.2

def step (n : ℕ) : Task Unit := Coro.loop turn n ()

/-- A turn of the wait for the peer's Close. -/
def awaitTurn (n : ℕ) (_ : Unit) : Task (Unit ⊕ Unit) := do
  let e ← Coro.get
  if e.session.state = .closeReceived ∨ e.fired = true then pure (.inr ())
  else
    match ← Coro.attempt (step n) with
    | .ok _ => pure (.inl ())
    | .error _ => pure (.inr ())

def await (n : ℕ) : Task Unit := Coro.loop (awaitTurn n) n ()

/-- The reads of `close_gracefully`. -/
def drain : ℕ → Task Unit
  | 0 => pure ()
  | n + 1 => do
    match ← Coro.attempt (recv 512) with
    | .ok [] => pure ()
    | .ok (_ :: _) => drain n
    | .error _ => pure ()

/-- The Close of `finish`. -/
def bid : Task Unit := do
  let e ← Coro.get
  if e.session.state = .opened ∧ e.fired = false then
    let _ ← Coro.attempt (close (if e.closing then .goingAway else .normal))
    pure ()
  else pure ()

/-- The wait of `finish`, within `close_timeout`. -/
def hear (n : ℕ) : Task Unit := do
  let e ← Coro.get
  if e.session.state ≠ .closeReceived ∧ e.fired = false then
    Coro.modify fun e => { e with closeWait := true }
    await n
    Coro.modify fun e => { e with closeWait := false }
  else pure ()

/-- `close_gracefully`, unless the deadline has fired. -/
def linger : Task Unit := do
  let e ← Coro.get
  if e.fired = false then drain 4 else pure ()

def abandon : Task Unit := Coro.modify fun e => { e with abandoned := true }

/-- `session_t::finish`. -/
def finish (n : ℕ) : Task Unit := do
  bid
  hear n
  linger
  abandon

/-- `session_t::request_close`. -/
def requestClose (e : Ending) : Ending := { e with closing := true, cancelled := true }

/-- The wait ended for a reason it may end for. -/
def Done (e : Ending) : Prop := e.session.state = .closeReceived ∨ e.expired = true ∨
    e.failure = true

/-- The peer was told that the server goes away, as far as the transport allowed. -/
def Told (e : Ending) : Prop := (.close, closeBody 1001 []) ∈ e.sent ∨ e.failure = true

/-! ## Running dry -/

/-- **The bytes at hand run out** before the peer's Close, a violation or a failed write. -/
inductive Starves : Session → List (List Byte) → List Wrote → Prop
  | dry {s : Session} {ws : List Wrote} (h : s.iterate.2 = .fill)
    (hroom : s.iterate.1.fillBuffer.room ≠ 0) :
      Starves s [] ws
  | again {s : Session} {plain : List (List Byte)} {ws : List Wrote}
      (h : s.iterate.2 = .again ∨ ∃ op payload, s.iterate.2 = .message op payload)
      (hrest : Starves s.iterate.1 plain ws) : Starves s plain ws
  | pong {s : Session} {plain : List (List Byte)} {ws : List Wrote} {payload : List Byte}
      (h : s.iterate.2 = .pong payload)
      (hrest : Starves (s.iterate.1.frame .pong (payload.take kMaxControlPayload)).1 plain ws) :
      Starves s plain (⟨true, false⟩ :: ws)
  | read {s : Session} {l : List Byte} {rest : List (List Byte)} {ws : List Wrote}
    (h : s.iterate.2 = .fill)
      (hroom : s.iterate.1.fillBuffer.room ≠ 0) (hl : l ≠ [])
      (hrest : Starves (s.iterate.1.filled (l.take s.iterate.1.fillBuffer.room))
        (if l.length ≤ s.iterate.1.fillBuffer.room then rest
          else l.drop s.iterate.1.fillBuffer.room :: rest) ws) :
      Starves s (l :: rest) ws

variable {e e' : Ending} {n : ℕ} {ws : List Wrote} {w : Wrote} {plain : List (List Byte)}

/-- After a write. -/
def wrote (e : Ending) (op : Opcode) (payload : List Byte) (ws : List Wrote) (w : Wrote) : Ending :=
  { e with
    writes := ws
    fired := e.fired || w.fires
    cancelled := e.cancelled || w.fires
    expired := e.expired || (w.fires && e.closeWait)
    session := (e.session.frame op (payload.take kMaxControlPayload)).1
    sent := e.sent ++ [(op, payload.take kMaxControlPayload)] }

theorem sendControl_ok {fires : Bool} (op : Opcode) (payload : List Byte)
    (h : e.writes = ⟨true, fires⟩ :: ws) :
    sendControl op payload e = (e.wrote op payload ws ⟨true, fires⟩, .ok ()) := by
  rw [sendControl, h]
  rfl

theorem sendControl_failed {fires : Bool} (op : Opcode) (payload : List Byte)
    (h : e.writes = ⟨false, fires⟩ :: ws) :
    sendControl op payload e =
      ({ e.wrote op payload ws ⟨false, fires⟩ with sent := e.sent, failure := true },
        .error (some .transport)) := by
  rw [sendControl, h]
  rfl

/-! ### What is recorded stays recorded -/

/-- The books of an ending only grow. -/
structure Later (e e' : Ending) : Prop where
  sent : e.sent <+: e'.sent
  expired : e.expired = true → e'.expired = true
  failure : e.failure = true → e'.failure = true

instance : IsPreorder Ending Later where
  refl _ := ⟨prefix_refl _, id, id⟩
  trans _ _ _ h h' := ⟨h.sent.trans h'.sent, h'.expired ∘ h.expired, h'.failure ∘ h.failure⟩

/-- What a read does. -/
theorem moves_recv {R : Ending → Ending → Prop} (len : ℕ) (hrefl : ∀ e, R e e)
    (hplain : ∀ e plain, R e { e with plain }) (hpeer : ∀ e peer, R e { e with peer })
    (hexpire : ∀ e peer,
      R e { e with peer, fired := true, cancelled := true, expired := e.expired || e.closeWait }) :
    Moves R (recv len) := by
  intro e
  rw [recv]
  split
  · exact hplain e _
  · by_cases hc : e.cancelled = true
    · rw [if_pos hc]
      exact hrefl e
    · rw [if_neg hc]
      split
      · exact hrefl e
      · exact hpeer e _
      · exact hpeer e _
      · exact hexpire e _

theorem moves_linger {R : Ending → Ending → Prop} [IsPreorder Ending R]
    (hrecv : ∀ len, Moves R (recv len)) :
    Moves R linger := by
  have hdrain (n : ℕ) : Moves R (drain n) := by
    induction n with
    | zero => exact moves_pure _
    | succ n ih =>
      refine (hrecv 512).attempt.bind fun r => ?_
      split
      · exact moves_pure _
      · exact ih
      · exact moves_pure _
  refine moves_get.bind fun e => ?_
  split_ifs
  · exact hdrain 4
  · exact moves_pure _

theorem later_recv (len : ℕ) : Moves Later (recv len) :=
  moves_recv len refl (fun _ _ => ⟨prefix_refl _, id, id⟩) (fun _ _ => ⟨prefix_refl _, id, id⟩)
    fun _ _ => ⟨prefix_refl _, fun h => by simp [h], id⟩

theorem later_fails (c : Cause) (α : Type) : Moves Later (fails c : Task α) :=
  (moves_modify fun _ => ⟨prefix_refl _, id, fun _ => rfl⟩).bind fun _ => moves_fail c

theorem later_fill : Moves Later fill := by
  refine moves_get.bind fun e => ?_
  split_ifs
  · exact later_fails _ _
  · refine (later_recv _).attempt.bind fun r => ?_
    split
    · exact later_fails _ _
    · exact moves_modify fun e => ⟨prefix_refl _, id, id⟩
    · exact later_fails _ _
    · exact moves_fail _

theorem later_sendControl (op : Opcode) (payload : List Byte) : Moves Later
    (sendControl op payload) := by
  intro e
  rw [sendControl]
  split
  · exact refl e
  · split_ifs
    · exact ⟨prefix_append _ _, fun h => by simp [h], id⟩
    · exact ⟨prefix_refl _, fun h => by simp [h], fun _ => rfl⟩

theorem later_setState (st : CloseState) : Moves Later (setState st) :=
  moves_modify fun _ => ⟨prefix_refl _, id, id⟩

theorem later_close (code : CloseCode) : Moves Later (close code) := by
  refine moves_get.bind fun e => ?_
  split_ifs
  · exact moves_pure _
  · exact (later_sendControl _ _).bind fun _ => later_setState _

theorem later_failProtocol (code : CloseCode) (α : Type) : Moves Later
    (failProtocol code : Task α) := by
  refine moves_get.bind fun e => ?_
  split_ifs
  · exact (later_close code).attempt.bind fun _ => later_fails _ _
  · exact later_fails _ _

theorem later_peerClose (payload : List Byte) : Moves Later (peerClose payload) := by
  refine moves_get.bind fun e => (later_setState _).bind fun _ => ?_
  split_ifs
  · exact later_sendControl _ _
  · exact moves_pure _

theorem later_onEvent (ev : Event) : Moves Later (onEvent ev) := by
  cases ev with
  | again | message => exact moves_pure _
  | fill => exact later_fill.bind fun _ => moves_pure _
  | pong payload => exact (later_sendControl _ _).bind fun _ => moves_pure _
  | violation err code => exact later_failProtocol _ _
  | peerClose payload => exact (later_peerClose payload).bind fun _ => moves_pure _
  | failed => exact later_fails _ _
  | overrun => exact fun e => refl e

theorem later_step (n : ℕ) : Moves Later (step n) := by
  refine moves_loop (fun _ => ?_) n ()
  refine moves_get.bind fun e => ?_
  exact (moves_modify fun e => ⟨prefix_refl _, id, id⟩).bind fun _ => later_onEvent _

theorem later_await (n : ℕ) : Moves Later (await n) := by
  refine moves_loop (fun _ => ?_) n ()
  refine moves_get.bind fun e => ?_
  split_ifs
  · exact moves_pure _
  · refine (later_step n).attempt.bind fun r => ?_
    split <;> exact moves_pure _

/-! ### The wait under a cancelled canceler -/

/-- In the wait after `request_close`: the Close is out, and nothing has happened yet. -/
structure Latched (e : Ending) : Prop where
  state : e.session.state = .closeSent
  cancelled : e.cancelled = true
  fired : e.fired = false
  closeWait : e.closeWait = true
  failure : e.failure = false
  expired : e.expired = false

theorem Latched.turned (h : Latched e) : Latched e.turned :=
  { h with state := (Session.state_iterate _).trans h.state }

theorem Latched.wrote (h : Latched e) (payload : List Byte) (ws : List Wrote) :
    Latched (e.wrote .pong payload ws ⟨true, false⟩) where
  state := (Duplex.state_frame _ _ _).trans h.state
  cancelled := by simp [Ending.wrote, h.cancelled]
  fired := by simp [Ending.wrote, h.fired]
  closeWait := h.closeWait
  failure := h.failure
  expired := by simp [Ending.wrote, h.expired]

theorem Latched.not_done (h : Latched e) : ¬ e.Done := by
  rintro (hs | he | hf)
  · cases h.state.symm.trans hs
  · exact Bool.false_ne_true (h.expired.symm.trans he)
  · exact Bool.false_ne_true (h.failure.symm.trans hf)

theorem done_of_failure (h : e.failure = true) : e.Done := .inr (.inr h)

/-- A read with nothing at hand returns at once. -/
theorem fill_dry (h : Latched e) (hplain : e.plain = []) (hroom : e.session.fillBuffer.room ≠ 0) :
    fill e = (e, .error (some .cancelled)) := by
  have hrecv : recv e.session.fillBuffer.room e = (e, .error (some .cancelled)) := by
    rw [recv, hplain]
    dsimp only
    rw [if_pos h.cancelled, h.fired]
    rfl
  change (if e.session.fillBuffer.room = 0 then fails .transport else _ : Task Unit) e = _
  rw [if_neg hroom, bind_ok (attempt_error hrecv)]
  rfl

theorem fill_read {l : List Byte} {rest : List (List Byte)} (hplain : e.plain = l :: rest)
    (hl : l ≠ [])
    (hroom : e.session.fillBuffer.room ≠ 0) :
    fill e = ({ e with
      session := e.session.filled (l.take e.session.fillBuffer.room)
      plain := if l.length ≤ e.session.fillBuffer.room then rest
        else l.drop e.session.fillBuffer.room :: rest },
      .ok ()) := by
  have hrecv : recv e.session.fillBuffer.room e =
      ({ e with plain := if l.length ≤ e.session.fillBuffer.room then rest
                  else l.drop e.session.fillBuffer.room :: rest },
        .ok (l.take e.session.fillBuffer.room)) := by
    rw [recv, hplain]
  obtain ⟨b, l', htake⟩ : ∃ b l', l.take e.session.fillBuffer.room = b :: l' :=
    exists_cons_of_ne_nil (by simp [hl, hroom])
  change (if e.session.fillBuffer.room = 0 then fails .transport else _ : Task Unit) e = _
  rw [if_neg hroom, bind_ok (attempt_ok hrecv), htake]
  rfl

theorem fill_fails (h : e.session.fillBuffer.room = 0 ∨ ∃ rest, e.plain = [] :: rest) :
    ∃ e', fill e = (e', .error (some .transport)) ∧ e'.failure = true := by
  by_cases hroom : e.session.fillBuffer.room = 0
  · refine ⟨{ e with failure := true }, ?_, rfl⟩
    change (if e.session.fillBuffer.room = 0 then fails .transport else _ : Task Unit) e = _
    rw [if_pos hroom]
    rfl
  · obtain ⟨rest, hplain⟩ := h.resolve_left hroom
    refine ⟨{ e with plain := rest, failure := true }, ?_, rfl⟩
    have hrecv : recv e.session.fillBuffer.room e = ({ e with plain := rest }, .ok []) := by
      simp [recv, hplain]
    change (if e.session.fillBuffer.room = 0 then fails .transport else _ : Task Unit) e = _
    rw [if_neg hroom, bind_ok (attempt_ok hrecv)]
    rfl

/-- A turn that goes on. -/
theorem step_next (h : turn () e = (e', .ok (.inl ()))) : step (n + 1) e = step n e' := loop_next h

theorem step_error {c : Option Cause} (h : turn () e = (e', .error c)) : step
    (n + 1) e = (e', .error c) :=
  loop_error h

/-- What it means for a turn to run dry. -/
theorem starves_iff {s : Session} : Starves s plain ws ↔
    match s.iterate.2 with
    | .again | .message _ _ => Starves s.iterate.1 plain ws
    | .fill => s.iterate.1.fillBuffer.room ≠ 0 ∧
      match plain with
      | [] => True
      | l :: rest => l ≠ [] ∧ Starves (s.iterate.1.filled (l.take s.iterate.1.fillBuffer.room))
        (if l.length ≤ s.iterate.1.fillBuffer.room then rest
          else l.drop s.iterate.1.fillBuffer.room :: rest) ws
    | .pong payload =>
      match ws with
      | ⟨true, false⟩ :: ws =>
        Starves (s.iterate.1.frame .pong (payload.take kMaxControlPayload)).1 plain ws
      | _ => False
    | _ => False := by
  constructor
  · intro hs
    cases hs with
    | dry h hroom =>
      rw [h]
      exact ⟨hroom, trivial⟩
    | again h hrest => rcases h with h | ⟨_, _, h⟩ <;> rwa [h]
    | pong h hrest => rwa [h]
    | read h hroom hl hrest =>
      rw [h]
      exact ⟨hroom, hl, hrest⟩
  · cases hev : s.iterate.2 with
    | again => exact .again (.inl hev)
    | message op payload => exact .again (.inr ⟨op, payload, hev⟩)
    | fill =>
      rintro ⟨hroom, hplain⟩
      cases plain with
      | nil => exact .dry hev hroom
      | cons l rest => exact .read hev hroom hplain.1 hplain.2
    | pong payload =>
      dsimp only
      intro hs
      split at hs
      · exact .pong hev hs
      · cases hs
    | violation | peerClose | failed | overrun => exact False.elim

/-- A failed turn. -/
theorem step_done_of_failure {c : Cause} (hturn : turn () e = (e', .error (some c)))
    (hf : e'.failure = true) :
    (step (n + 1) e).1.Done := by
  rw [step_error hturn]
  exact done_of_failure hf

/-- **The wait ends for a reason exactly if the bytes at hand do not run out.** -/
theorem step_done_iff : ∀ (n : ℕ) {e : Ending}, Latched e → (step n e).2 ≠ .error none →
    ((step n e).1.Done ↔ ¬ Starves e.session e.plain e.writes)
  | 0, _, _, hret => absurd rfl hret
  | n + 1, e, h, hret => by
      have ht := h.turned
      have hevent : ∀ ev, e.session.iterate.2 = ev → turn () e = onEvent ev e.turned := by
        rintro ev rfl
        rfl
      rw [starves_iff]
      cases hev : e.session.iterate.2 with
      | again | message =>
        have hturn : turn () e = (e.turned, .ok (.inl ())) := hevent _ hev
        rw [step_next hturn] at hret ⊢
        exact step_done_iff n ht hret
      | fill =>
        by_cases hbad : e.turned.session.fillBuffer.room = 0 ∨ ∃ rest, e.plain = [] :: rest
        · obtain ⟨e', hfill, hf⟩ := fill_fails (e := e.turned) hbad
          have hturn : turn () e = (e', .error (some .transport)) :=
            (hevent _ hev).trans (bind_error hfill)
          refine iff_of_true (step_done_of_failure hturn hf) fun hs => ?_
          obtain ⟨rest, hplain⟩ := hbad.resolve_left hs.1
          rw [hplain] at hs
          exact hs.2.1 rfl
        · obtain ⟨hroom, hempty⟩ := not_or.mp hbad
          cases hplain : e.plain with
          | nil =>
            have hturn : turn () e = (e.turned, .error (some .cancelled)) :=
              (hevent _ hev).trans (bind_error (fill_dry ht hplain hroom))
            rw [step_error hturn]
            exact iff_of_false ht.not_done (not_not.mpr ⟨hroom, trivial⟩)
          | cons l rest =>
            have hl : l ≠ [] := fun hl => hempty ⟨rest, hl ▸ hplain⟩
            have hturn := (hevent _ hev).trans (bind_ok (fill_read (e := e.turned) hplain hl hroom))
            rw [step_next hturn] at hret ⊢
            refine (step_done_iff n ?_ hret).trans
              (not_congr ⟨fun hs => ⟨hroom, hl, hs⟩, fun hs => hs.2.2⟩)
            exact { ht with state := ht.state }
      | pong payload =>
        cases hw : e.writes with
        | nil =>
          have hturn : turn () e = (e.turned, .error none) := by
            refine (hevent _ hev).trans (bind_error ?_)
            rw [sendControl, show e.turned.writes = [] from hw]
          rw [step_error hturn] at hret
          exact absurd rfl hret
        | cons w ws =>
          obtain ⟨ok, fires⟩ := w
          cases ok with
          | false =>
            have hsend := sendControl_failed .pong payload (e := e.turned) hw
            have hturn := (hevent _ hev).trans (bind_error hsend)
            exact iff_of_true (step_done_of_failure hturn rfl) not_false
          | true =>
            have hsend := sendControl_ok .pong payload (e := e.turned) hw
            have hturn := (hevent _ hev).trans (bind_ok hsend)
            rw [step_next hturn] at hret ⊢
            cases fires with
            | true =>
              have hlater := (later_step n (e.turned.wrote .pong payload ws ⟨true, true⟩)).expired
                (by simp [wrote, ht.closeWait])
              exact iff_of_true (.inr (.inl hlater)) not_false
            | false => exact step_done_iff n (ht.wrote payload ws) hret
      | violation err code =>
        have hturn : turn () e = ({ e.turned with failure := true }, .error (some .protocol)) := by
          refine (hevent _ hev).trans ?_
          change (if e.turned.session.state = .opened ∧ e.turned.fired = false then _
            else _ : Task (Unit ⊕ Unit)) e.turned = _
          rw [if_neg (by rw [ht.state]; rintro ⟨⟨⟩, -⟩)]
          rfl
        exact iff_of_true (step_done_of_failure hturn rfl) not_false
      | peerClose payload =>
        have hturn : turn ()
          e = ({ e.turned with session := { e.turned.session with state := .closeReceived } },
            .ok (.inr ())) := by
          refine (hevent _ hev).trans (bind_ok (a := ()) ?_)
          change (if e.turned.session.state = .opened then _ else _ : Task Unit) _ = _
          rw [if_neg (by rw [ht.state]; rintro ⟨⟩)]
          rfl
        have hstep : step (n + 1) e = _ := loop_exit hturn
        rw [hstep]
        exact iff_of_true (.inl rfl) not_false
      | failed =>
        have hturn : turn () e = ({ e.turned with failure := true }, .error (some .protocol)) :=
          hevent _ hev
        exact iff_of_true (step_done_of_failure hturn rfl) not_false
      | overrun =>
        have hturn : turn () e = (e.turned, .error none) := hevent _ hev
        rw [step_error hturn] at hret
        exact absurd rfl hret

/-! ### The wait as a whole -/

section

variable {α β : Type} {P : Ending → Prop} {Q : α → Ending → Prop} {S : β → Ending → Prop}

/-- Errors are not looked at. -/
abbrev Yields (P : Ending → Prop) (m : Task α) (Q : α → Ending → Prop) : Prop :=
  Triple P m Q fun _ _ => True

theorem yields_fails (c : Cause) : Yields P (fails c : Task α) Q := fun _ _ => trivial

theorem yields_any (m : Task α) : Yields P m fun _ _ => True := by
  intro e _
  rcases m e with ⟨e', _ | _⟩
  · rename_i c
    cases c <;> trivial
  · trivial

theorem yields_failProtocol (code : CloseCode) : Yields P (failProtocol code : Task α) Q := by
  refine Triple.bind (triple_get (Q := fun _ _ => True) fun _ _ => trivial) fun e => ?_
  split_ifs
  · exact (yields_any _).bind fun _ => yields_fails _
  · exact yields_fails _

end

/-- A Close is received before it is echoed. -/
theorem yields_peerClose (payload : List Byte) :
    Yields (fun _ => True) (peerClose payload) fun _ e => e.session.state = .closeReceived := by
  refine Triple.bind (triple_get (Q := fun _ _ => True) fun _ _ => trivial) fun e => ?_
  refine Triple.bind (Q := fun _ e => e.session.state = .closeReceived)
    (triple_modify fun _ _ => rfl)
    fun _ => ?_
  split_ifs
  · intro e he
    rw [sendControl]
    split
    · trivial
    · dsimp only
      split_ifs
      · exact (Duplex.state_frame _ _ _).trans he
      · trivial
  · exact triple_pure fun _ he => he

/-- A step that returns has heard the peer's Close. -/
theorem yields_step (n : ℕ) : Yields (fun _ => True) (step n) fun _ e =>
    e.session.state = .closeReceived := by
  refine triple_loop (I := fun _ _ => True) (fun _ => ?_) n ()
  refine Triple.bind (triple_get (Q := fun _ _ => True) fun _ _ => trivial) fun e => ?_
  refine Triple.bind (triple_modify (Q := fun _ _ => True) fun _ _ => trivial) fun _ => ?_
  cases e.session.iterate.2 with
  | again | message => exact triple_pure fun _ _ => trivial
  | fill | pong => exact (yields_any _).bind fun _ => triple_pure fun _ _ => trivial
  | violation err code => exact yields_failProtocol code
  | peerClose payload => exact (yields_peerClose payload).bind fun _ => triple_pure fun _ he => he
  | failed => exact yields_fails _
  | overrun => exact fun _ _ => trivial

theorem awaitTurn_over (h : e.session.state = .closeReceived) : awaitTurn n
    () e = (e, .ok (.inr ())) := by
  change (if e.session.state = .closeReceived ∨ e.fired = true then _ else _ : Task (Unit ⊕ Unit))
    e = _
  rw [if_pos (.inl h)]
  rfl

theorem awaitTurn_eq (h : Latched e) : awaitTurn n () e =
    (Coro.attempt (step n) >>= fun r => match r with
      | .ok _ => pure (.inl ())
      | .error _ => pure (.inr ())) e := by
  change (if e.session.state = .closeReceived ∨ e.fired = true then _ else _ : Task (Unit ⊕ Unit))
    e = _
  rw [if_neg (by rw [h.state, h.fired]; rintro (⟨⟨⟩⟩ | ⟨⟨⟩⟩))]

/-- The wait ends where its first step does. -/
theorem await_eq (h : Latched e) (hret : (await n e).2 ≠ .error none) :
    (await n e).1 = (step n e).1 ∧ (step n e).2 ≠ .error none := by
  cases n with
  | zero => exact absurd rfl hret
  | succ m =>
    rw [await] at hret ⊢
    rcases hstep : step (m + 1) e with ⟨e₁, _ | _⟩
    · rename_i c
      cases c with
      | none =>
        have hturn := (awaitTurn_eq h).trans (bind_error (attempt_none hstep))
        rw [loop_error hturn] at hret
        exact absurd rfl hret
      | some c =>
        have hturn := (awaitTurn_eq h).trans (bind_ok (attempt_error hstep))
        rw [loop_exit hturn]
        exact ⟨rfl, by rintro ⟨⟩⟩
    · have hclosed : e₁.session.state = .closeReceived := by
        have hpost := yields_step (m + 1) e trivial
        rwa [hstep] at hpost
      have hturn := (awaitTurn_eq h).trans (bind_ok (attempt_ok hstep))
      rw [loop_next hturn] at hret ⊢
      cases m with
      | zero => exact absurd rfl hret
      | succ k =>
        rw [loop_exit (awaitTurn_over hclosed)]
        exact ⟨rfl, by rintro ⟨⟩⟩

theorem await_done_iff (h : Latched e) (hret : (await n e).2 ≠ .error none) :
    (await n e).1.Done ↔ ¬ Starves e.session e.plain e.writes := by
  obtain ⟨heq, hstep⟩ := await_eq h hret
  rw [heq, step_done_iff n h hstep]

/-! ## The end of a drained session -/

theorem later_hear (n : ℕ) : Moves Later (hear n) := by
  refine moves_get.bind fun e => ?_
  split_ifs
  · exact (moves_modify fun _ => ⟨prefix_refl _, id, id⟩).bind fun _ =>
      (later_await n).bind fun _ =>
      moves_modify fun _ => ⟨prefix_refl _, id, id⟩
  · exact moves_pure _

/-- Outside the wait, what the wait ended for is settled. -/
structure Settled (e e' : Ending) : Prop where
  session : e'.session = e.session
  failure : e'.failure = e.failure
  expired : e.closeWait = false → e'.closeWait = false ∧ e'.expired = e.expired

instance : IsPreorder Ending Settled where
  refl _ := ⟨rfl, rfl, fun h => ⟨h, rfl⟩⟩
  trans _ _ _ h h' := ⟨h'.session.trans h.session, h'.failure.trans h.failure, fun hw =>
    ⟨(h'.expired (h.expired hw).1).1, (h'.expired (h.expired hw).1).2.trans (h.expired hw).2⟩⟩

theorem settled_linger : Moves Settled linger :=
  moves_linger fun len => moves_recv len refl (fun _ _ => ⟨rfl, rfl, fun h => ⟨h, rfl⟩⟩)
    (fun _ _ => ⟨rfl, rfl, fun h => ⟨h, rfl⟩⟩) fun _ _ => ⟨rfl, rfl, fun h => ⟨h, by simp [h]⟩⟩

theorem Settled.done_iff (h : Settled e e') (hw : e.closeWait = false) : e'.Done ↔ e.Done := by
  rw [Done, Done, h.session, (h.expired hw).2, h.failure]

theorem Later.told (h : Later e e') (ht : e.Told) : e'.Told :=
  ht.imp (fun hm => h.sent.subset hm) h.failure

/-- An open session whose deadline has not fired, and the books of its end, still empty. -/
structure Fresh (e : Ending) : Prop where
  state : e.session.state = .opened
  fired : e.fired = false
  closeWait : e.closeWait = false
  failure : e.failure = false
  expired : e.expired = false

/-- The session once its Close is out. -/
def closed (s : Session) : Session :=
  { (s.frame .close (closeBody 1001 [])).1 with state := .closeSent }

/-- **When the wait is heeded**: the write of the Close fails, or the deadline does not fire during
it and what the transport has at hand does not run out before the peer's Close, a violation or a
failed write. -/
def Heeded (e : Ending) : Prop :=
  ∀ fires ws, e.writes = ⟨true, fires⟩ :: ws → fires = false ∧ ¬ Starves (closed e.session) e.plain
    ws

theorem bid_eq (h : Fresh e) : bid e.requestClose =
    (Coro.attempt (close .goingAway) >>= fun _ => pure () : Task Unit) e.requestClose := by
  change (if e.session.state = .opened ∧ e.fired = false then _ else _ : Task Unit)
    e.requestClose = _
  rw [if_pos ⟨h.state, h.fired⟩]
  rfl

theorem close_eq (h : Fresh e) : close .goingAway e.requestClose =
    (sendControl .close (closeBody 1001 []) >>= fun _ => setState .closeSent : Task Unit)
      e.requestClose := by
  change (if e.session.state ≠ .opened then _ else _ : Task Unit) e.requestClose = _
  rw [if_neg (not_not.2 h.state)]
  rfl

/-- After the Close. -/
def bidden (e : Ending) (ws : List Wrote) (w : Wrote) : Ending :=
  { e.requestClose.wrote .close (closeBody 1001 []) ws w with session := closed e.session }

/-- The Close goes out. -/
theorem bid_ok {fires : Bool} (h : Fresh e) (hw : e.writes = ⟨true, fires⟩ :: ws) :
    bid e.requestClose = (e.bidden ws ⟨true, fires⟩, .ok ()) := by
  rw [bid_eq h]
  have hclose := (close_eq h).trans (bind_ok (sendControl_ok (e := e.requestClose) _ _ hw))
  rw [bind_ok (attempt_ok hclose)]
  rfl

theorem Fresh.latched (h : Fresh e) (ws : List Wrote) :
    Latched { e.bidden ws ⟨true, false⟩ with closeWait := true } where
  state := rfl
  cancelled := rfl
  fired := by simp [bidden, wrote, requestClose, h.fired]
  closeWait := rfl
  failure := h.failure
  expired := by simp [bidden, wrote, requestClose, h.expired]

theorem Fresh.bidden_not_done (h : Fresh e) (ws : List Wrote)
    (w : Wrote) : ¬ (e.bidden ws w).Done := by
  rintro (hs | he | hf)
  · cases hs
  · simp [bidden, wrote, requestClose, h.expired, h.closeWait] at he
  · exact Bool.false_ne_true (h.failure.symm.trans hf)

theorem bid_failed {fires : Bool} (h : Fresh e) (hw : e.writes = ⟨false, fires⟩ :: ws) :
    ∃ e₁, bid e.requestClose = (e₁, .ok ()) ∧ e₁.failure = true := by
  rw [bid_eq h]
  have hclose := (close_eq h).trans (bind_error (sendControl_failed (e := e.requestClose) _ _ hw))
  rw [bind_ok (attempt_error hclose)]
  exact ⟨_, rfl, rfl⟩

/-- The end after the Close. -/
def rest (n : ℕ) : Task Unit := do
  hear n
  linger
  abandon

theorem finish_eq {e₁ : Ending} (h : bid e = (e₁, .ok ())) : finish n e = rest n e₁ := bind_ok h

theorem later_rest (n : ℕ) : Moves Later (rest n) :=
  (later_hear n).bind fun _ => (moves_linger later_recv).bind fun _ =>
    moves_modify fun _ => ⟨prefix_refl _, id, id⟩

theorem of_rest_ok (h : rest n e = (e', .ok ())) :
    ∃ e₁, hear n e = (e₁, .ok ()) ∧ e'.abandoned = true ∧ Settled e₁ e' := by
  obtain ⟨e₁, _, hhear, h⟩ := of_bind_ok h
  obtain ⟨e₂, _, hlinger, h⟩ := of_bind_ok h
  obtain rfl : { e₂ with abandoned := true } = e' := congrArg Prod.fst h
  have hset := settled_linger e₁
  rw [hlinger] at hset
  exact ⟨e₁, hhear, rfl, IsTrans.trans _ _ _ hset ⟨rfl, rfl, fun h => ⟨h, rfl⟩⟩⟩

/-- The deadline has fired: there is no wait. -/
theorem hear_fired (h : e.fired = true) : hear n e = (e, .ok ()) := by
  change (if e.session.state ≠ .closeReceived ∧ e.fired = false then _ else _ : Task Unit) e = _
  rw [if_neg fun hc => Bool.false_ne_true (hc.2.symm.trans h)]
  rfl

/-- The wait. -/
theorem of_hear_ok (h : Latched { e with closeWait := true }) (hret : hear n e = (e', .ok ())) :
    e'.closeWait = false ∧ (e'.Done ↔ ¬ Starves e.session e.plain e.writes) := by
  have hstate : e.session.state = .closeSent := h.state
  change (if e.session.state ≠ .closeReceived ∧ e.fired = false then _ else _ : Task Unit)
    e = _ at hret
  rw [if_pos ⟨by rw [hstate]; rintro ⟨⟩, h.fired⟩] at hret
  obtain ⟨e₁, _, hmod, hret⟩ := of_bind_ok hret
  obtain rfl : { e with closeWait := true } = e₁ := congrArg Prod.fst hmod
  obtain ⟨e₂, _, hawait, hret⟩ := of_bind_ok hret
  obtain rfl : { e₂ with closeWait := false } = e' := congrArg Prod.fst hret
  have hdone := await_done_iff (n := n) h (by rw [hawait]; rintro ⟨⟩)
  rw [hawait] at hdone
  exact ⟨rfl, hdone⟩

/-- An open session tells its peer, and waits for the peer's Close as long as it has not run dry. -/
theorem finish_fresh (h : Fresh e) (hw : e.writes ≠ []) (n : ℕ) :
    (bid e.requestClose).1.Told ∧ (finish n e.requestClose).1.Told ∧
      ∀ e', finish n e.requestClose = (e', .ok ()) → e'.abandoned = true ∧
        (e'.Done ↔ Heeded e) := by
  obtain ⟨⟨ok, fires⟩, ws, hws⟩ := exists_cons_of_ne_nil hw
  cases ok with
  | false =>
    obtain ⟨e₁, hbid, hfail⟩ := bid_failed h hws
    rw [finish_eq hbid]
    have hfail' := (later_rest n e₁).failure hfail
    rw [hbid]
    refine ⟨.inr hfail, .inr hfail', fun e' hret => ?_⟩
    obtain ⟨_, _, hab, _⟩ := of_rest_ok hret
    rw [hret] at hfail'
    refine ⟨hab, iff_of_true (done_of_failure hfail') fun fires' ws' hws' => ?_⟩
    cases hws.symm.trans hws'
  | true =>
    have htold : (e.bidden ws ⟨true, fires⟩).Told := .inl (mem_append_right _ (mem_singleton.2 rfl))
    rw [finish_eq (bid_ok h hws), bid_ok h hws]
    refine ⟨htold, (later_rest n _).told htold, fun e' hret => ?_⟩
    obtain ⟨e₁, hhear, hab, hset⟩ := of_rest_ok hret
    refine ⟨hab, ?_⟩
    cases fires with
    | false =>
      obtain ⟨hwait, hdone⟩ := of_hear_ok (h.latched ws) hhear
      rw [hset.done_iff hwait, hdone]
      constructor
      · intro hdry fires' ws' hws'
        cases hws.symm.trans hws'
        exact ⟨rfl, hdry⟩
      · intro hheed
        exact (hheed _ _ hws).2
    | true =>
      rw [hear_fired (by simp [bidden, wrote])] at hhear
      obtain rfl : e.bidden ws ⟨true, true⟩ = e₁ := congrArg Prod.fst hhear
      rw [hset.done_iff h.closeWait]
      exact iff_of_false (h.bidden_not_done _ _) fun hheed => by simpa using (hheed _ _ hws).1

/-- `finish` is entered after `request_close`, with its books empty.  What the session did in
between is open. -/
structure Drained (e : Ending) : Prop where
  closing : e.closing = true
  cancelled : e.cancelled = true
  closeWait : e.closeWait = false
  failure : e.failure = false
  expired : e.expired = false
  sent : e.sent = []

theorem Drained.requestClose_eq (h : Drained e) : e.requestClose = e := by
  obtain ⟨hclosing, hcancelled⟩ := And.intro h.closing h.cancelled
  cases e
  cases hclosing
  cases hcancelled
  rfl

theorem Drained.fresh (h : Drained e) (hstate : e.session.state = .opened)
    (hfired : e.fired = false) :
    Fresh e :=
  ⟨hstate, hfired, h.closeWait, h.failure, h.expired⟩

/-- Otherwise no Close goes out. -/
theorem Drained.not_told (h : Drained e) (hopen : ¬(e.session.state = .opened ∧ e.fired = false)) :
    ¬(bid e).1.Told := by
  have hbid : bid e = (e, .ok ()) := by
    change (if e.session.state = .opened ∧ e.fired = false then _ else _ : Task Unit) e = _
    rw [if_neg hopen]
    rfl
  rw [hbid, Told, h.sent, h.failure]
  simp

/-- **A drained session tells its peer, and waits for the peer's Close as long as it has not run
dry.** A session that is still open, its deadline not fired, writes the Close with the code for
going away whatever the rest does.  It does so and the wait ends for a reason it may end for exactly
if it is open and unfired and the wait is heeded. -/
theorem finish_done_iff (h : Drained e) (hw : e.writes ≠ []) (n : ℕ) :
    (e.session.state = .opened → e.fired = false → (finish n e).1.Told) ∧
      ∀ e', finish n e = (e', .ok ()) → e'.abandoned = true ∧
        ((bid e).1.Told ∧ e'.Done ↔ e.session.state = .opened ∧ e.fired = false ∧ Heeded e) := by
  by_cases hopen : e.session.state = .opened ∧ e.fired = false
  · obtain ⟨hbid, htold, hret⟩ := finish_fresh (h.fresh hopen.1 hopen.2) hw n
    rw [h.requestClose_eq] at hbid htold hret
    refine ⟨fun _ _ => htold, fun e' he' => ⟨(hret e' he').1, ?_⟩⟩
    rw [(hret e' he').2]
    exact ⟨fun hheed => ⟨hopen.1, hopen.2, hheed.2⟩, fun hheed => ⟨hbid, hheed.2.2⟩⟩
  · refine ⟨fun hstate hfired => absurd ⟨hstate, hfired⟩ hopen, fun e' he' => ⟨?_, ?_⟩⟩
    · obtain ⟨e₁, _, _, he'⟩ := of_bind_ok he'
      obtain ⟨_, _, hab, _⟩ := of_rest_ok he'
      exact hab
    · exact iff_of_false (fun htold => h.not_told hopen htold.1) fun hheed =>
        hopen ⟨hheed.1, hheed.2.1⟩

/-- A server's session with the peer's Close in its window. -/
def answered : Ending where
  session := Session.new .server (16 <<< 20) (64 <<< 10) [0x88, 0x80, 0, 0, 0, 0] 0
  writes := [⟨true, false⟩]

theorem finish_done_iff_answered :
    Drained answered.requestClose ∧ (finish 3 answered.requestClose).1.Told ∧
      (finish 3 answered.requestClose).1.Done ∧ Heeded answered.requestClose := by
  have hdrained : Drained answered.requestClose := ⟨rfl, rfl, rfl, rfl, rfl, rfl⟩
  have hret : finish 3 answered.requestClose = ((finish 3 answered.requestClose).1, .ok ()) :=
    Prod.ext rfl rfl
  have hdone : (finish 3 answered.requestClose).1.Done := .inl (by decide +kernel)
  obtain ⟨htold, hiff⟩ := finish_done_iff hdrained (by decide) 3
  have hbid : (bid answered.requestClose).1.Told := .inl (by decide +kernel)
  exact ⟨hdrained, htold rfl rfl, hdone, ((hiff _ hret).2.1 ⟨hbid, hdone⟩).2.2⟩

/-- A server's session whose peer answers the Close, once it has it. -/
def unanswered : Ending where
  session := Session.new .server (16 <<< 20) (64 <<< 10) [] 0
  peer := [.got [0x88, 0x80, 0, 0, 0, 0]]
  writes := [⟨true, false⟩]

/-- The same session, closed by its handler after `request_close`. -/
def closedBefore : Ending :=
  { unanswered with session := { unanswered.session with state := .closeSent } }

/-- The transport is abandoned with the peer's Close on its way: the read of the wait never waits
for it.  And a session that its handler has closed in the meantime does not say that the server goes
away. -/
theorem cancelled_wait_abandons :
    Fresh unanswered ∧ (finish 3 unanswered.requestClose).2 = .ok () ∧
      (finish 3 unanswered.requestClose).1.abandoned = true ∧
      (finish 3 unanswered.requestClose).1.peer = [.got [0x88, 0x80, 0, 0, 0, 0]] ∧
      ¬ (finish 3 unanswered.requestClose).1.Done ∧
      (finish 3 closedBefore.requestClose).2 = .ok () ∧
        ¬ (finish 3 closedBefore.requestClose).1.Told := by
  refine ⟨⟨rfl, rfl, rfl, rfl, rfl⟩, rfl, by decide +kernel, by decide +kernel, ?_, rfl, ?_⟩
  · rintro (hs | he | hf)
    · exact absurd hs (by decide +kernel)
    · exact absurd he (by decide +kernel)
    · exact absurd hf (by decide +kernel)
  · rintro (hs | hf)
    · exact absurd hs (by decide +kernel)
    · exact absurd hf (by decide +kernel)

end Ending

end Cornet.Websocket
