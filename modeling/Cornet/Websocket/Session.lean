import Cornet.Websocket.Frame
import Cornet.Http.Buffer

/-!
# Websocket/Session — the receiving machinery of a session (`src/websocket/session.cc`)

    in_ ──header──▸ cur_ ──payload, in runs──▸ msg_ or a view of in_ ──▸ a message

One turn of the loop of `session_t::step` (`iterate`) runs up to its `continue`, its next await or
its return, and says which (`Event`).  What the loop does next — read, answer a Ping, echo a Close —
is the business of whoever drives it.
-/

namespace Cornet.Websocket

open Http (HeadBuffer BodyBuffer Appended)

/-- `session_t::state_t`. -/
inductive CloseState
  | opened | closeSent | closeReceived
  deriving DecidableEq, Repr

/-- The members of `session_t` that sending and receiving use. -/
structure Session where
  role : Role
  /-- `opt_.max_message_bytes` -/
  max : ℕ
  /-- `decoder_.err_` -/
  err : Option WebsocketError := none
  /-- `in_` -/
  inp : HeadBuffer
  msg : BodyBuffer := {}
  cur : Frame := {}
  frameOpen : Bool := false
  curRemaining : ℕ := 0
  fragOpcode : Opcode := .continue
  fragmentOpen : Bool := false
  state : CloseState := .opened
  maskSeed : UInt32 := 0

/-- The constructor: the receive window, with what the handshake read past its end. -/
def Session.new (role : Role) (max recvBufferBytes : ℕ) (leftover : List Byte) (seed : UInt32) :
    Session where
  role := role
  max := max
  inp := (HeadBuffer.reset
    (Http.acquire (Nat.max recvBufferBytes leftover.length % 2 ^ 32))).put leftover
  maskSeed := seed

/-- Where a turn of the loop leaves it. -/
inductive Event
  /-- `continue` -/
  | again
  /-- `co_await fill()` -/
  | fill
  /-- `co_await send_control(Pong, payload)` -/
  | pong (payload : List Byte)
  /-- `co_return co_await fail_protocol(e, code)` -/
  | violation (e : WebsocketError) (code : CloseCode)
  /-- a whole, well-formed Close: `state_` is looked at next -/
  | peerClose (payload : List Byte)
  /-- a complete message -/
  | message (op : Opcode) (payload : List Byte)
  /-- `co_return unexpected(…)` -/
  | failed
  /-- a copy past the end of `msg_` -/
  | overrun
  deriving DecidableEq, Repr

namespace Session

variable (s : Session)

/-! ## Headers -/

def openFrame (f : Frame) : Session :=
  { s with inp := s.inp.consume f.headerLen, cur := f, curRemaining := f.payloadLen,
           frameOpen := true }

/-- The message-level rules the stateless decoder cannot know. -/
def beginFrame (f : Frame) : Except (WebsocketError × CloseCode) Session :=
  if f.opcode.isData then
    if s.fragmentOpen then .error (.continuationExpected, .protocolError)
    else if s.max < f.payloadLen then .error (.messageTooLarge, .messageTooBig)
    else .ok ({ s with msg := s.msg.clear }.openFrame f)
  else if f.opcode = .continue then
    if s.fragmentOpen = false then .error (.continuationUnexpected, .protocolError)
    else if s.max < s.msg.size + f.payloadLen then .error (.messageTooLarge, .messageTooBig)
    else .ok (s.openFrame f)
  else .ok (s.openFrame f)

/-! ## Payloads -/

/-- Bytes of the window as the peer meant them, at the current position of the frame. -/
def unmask (l : List Byte) : List Byte :=
  if s.cur.masked then applyMask s.cur.maskKey (s.cur.payloadLen - s.curRemaining) l else l

/-- The next `n` bytes of the window, unmasked in place. -/
def patched (n : ℕ) : HeadBuffer :=
  if s.cur.masked then s.inp.patch (s.unmask (s.inp.unread.take n)) else s.inp

/-- They are consumed. -/
def eat (n : ℕ) : Session :=
  { s with inp := (s.patched n).consume n, curRemaining := s.curRemaining - n }

/-- A Close body is empty or a valid code and a reason. -/
def closeEvent : List Byte → Event
  | [] => .peerClose []
  | [_] => .violation .invalidCloseCode .protocolError
  | a :: b :: rest =>
    if closeCodeValid (beNat [a, b]) then .peerClose (a :: b :: rest)
    else .violation .invalidCloseCode .protocolError

/-- A control frame is taken whole. -/
def controlPayload : Session × Event :=
  if s.inp.readable < s.curRemaining then (s, .fill)
  else
    let payload := s.unmask (s.inp.unread.take s.curRemaining)
    let s' := { s.eat s.curRemaining with frameOpen := false }
    match s.cur.opcode with
    | .ping => (s', .pong payload)
    | .pong => (s', .again)
    | .close => (s', closeEvent payload)
    | _ => (s', .failed)

/-- The run goes to the aggregation buffer, grown to `bytes`. -/
def aggregate (msg : BodyBuffer) (bytes : ℕ) (part : List Byte) : Except Event BodyBuffer :=
  match (msg.grow bytes).append part with
  | .ok msg => .ok msg
  | .outputOverflow => .error .failed
  | .overrun => .error .overrun

/-- The end of a data frame; `direct` says that its payload was one run, with no fragment open. -/
def completeFrame (direct : Bool) (part : List Byte) : Session × Event :=
  let op := if s.fragmentOpen then s.fragOpcode else s.cur.opcode
  let payload := if direct then part else s.msg.view
  let s' := { s with frameOpen := false, fragmentOpen := direct && s.fragmentOpen }
  if s.cur.fin = false then
    let s' := if s'.fragmentOpen then s'
      else { s' with fragmentOpen := true, fragOpcode := s.cur.opcode }
    if direct then
      match aggregate s'.msg part.length part with
      | .ok msg => ({ s' with msg := msg }, .again)
      | .error e => ({ s' with msg := s'.msg.grow part.length }, e)
    else (s', .again)
  else (s', .message op payload)

/-- After a run of a data frame has been consumed. -/
def afterRun (direct : Bool) (part : List Byte) : Session × Event :=
  if 0 < s.curRemaining then (s, .again) else s.completeFrame direct part

/-- A run of a data frame, unmasked: consumed, and copied unless it is the whole of a message that
starts here. -/
def takeRun (run : ℕ) (direct : Bool) (part : List Byte) : Session × Event :=
  if direct then (s.eat run).afterRun direct part
  else
    match aggregate s.msg (s.msg.size + run) part with
    | .ok msg => { s.eat run with msg := msg }.afterRun direct part
    | .error e => ({ s with inp := s.patched run, msg := s.msg.grow (s.msg.size + run) }, e)

/-- A data frame is taken in runs. -/
def dataPayload : Session × Event :=
  if s.inp.readable = 0 then (s, .fill)
  else
    let run := min s.inp.readable s.curRemaining
    s.takeRun run (!s.fragmentOpen && run == s.cur.payloadLen) (s.unmask (s.inp.unread.take run))

def payload : Session × Event :=
  if s.cur.opcode.isControl then s.controlPayload else s.dataPayload

/-! ## The loop -/

def violationOf (e : WebsocketError) : Event :=
  .violation e (if e = .messageTooLarge then .messageTooBig else .protocolError)

/-- One turn of the loop of `session_t::step`. -/
def iterate : Session × Event :=
  if s.frameOpen then s.payload
  else
    match s.err with
    | some e => (s, violationOf e)
    | none =>
      match parse s.role s.inp.unread with
      | .error e => ({ s with err := some e }, violationOf e)
      | .needMore => (s, .fill)
      | .frame f =>
        match s.beginFrame f with
        | .error (e, code) => (s, .violation e code)
        | .ok s' => s'.payload

/-- The buffer `fill` reads into: compacted if it has no room at the end. -/
def fillBuffer : HeadBuffer := if s.inp.room = 0 then s.inp.compact else s.inp

/-- A read of `fill` has returned these bytes. -/
def filled (l : List Byte) : Session := { s with inp := s.fillBuffer.put l }

/-! ## What receiving leaves alone -/

/-- The role, the closing state, and the seed of the keys: they belong to whoever drives the
loop. -/
def manner : Role × CloseState × UInt32 := (s.role, s.state, s.maskSeed)

theorem manner_completeFrame (direct : Bool) (part : List Byte) :
    (s.completeFrame direct part).1.manner = s.manner := by
  unfold completeFrame
  dsimp only
  split
  · split
    · split <;> split <;> rfl
    · split <;> rfl
  · rfl

theorem manner_afterRun (direct : Bool) (part : List Byte) :
    (s.afterRun direct part).1.manner = s.manner := by
  rw [afterRun]
  split
  · rfl
  · exact manner_completeFrame s direct part

theorem manner_takeRun (run : ℕ) (direct : Bool) (part : List Byte) :
    (s.takeRun run direct part).1.manner = s.manner := by
  rw [takeRun]
  split
  · exact manner_afterRun _ direct part
  · split
    · exact manner_afterRun _ direct part
    · rfl

theorem manner_controlPayload : s.controlPayload.1.manner = s.manner := by
  rw [controlPayload]
  split
  · rfl
  · dsimp only
    split <;> rfl

theorem manner_payload : s.payload.1.manner = s.manner := by
  rw [payload]
  split
  · exact manner_controlPayload s
  · rw [dataPayload]
    split
    · rfl
    · exact manner_takeRun s _ _ _

theorem manner_beginFrame {s s' : Session} {f : Frame} (h : s.beginFrame f = .ok s') :
    s'.manner = s.manner := by
  rw [beginFrame] at h
  split at h
  · split at h
    · cases h
    · split at h <;> cases h
      rfl
  · split at h
    · split at h
      · cases h
      · split at h <;> cases h
        rfl
    · cases h
      rfl

theorem manner_iterate : s.iterate.1.manner = s.manner := by
  rw [iterate]
  split
  · exact manner_payload s
  · split
    · rfl
    · split
      · rfl
      · rfl
      · split
        · rfl
        · rename_i h
          exact (manner_payload _).trans (manner_beginFrame h)

@[simp] theorem state_iterate : s.iterate.1.state = s.state := congrArg (·.2.1) s.manner_iterate

end Session

end Cornet.Websocket
