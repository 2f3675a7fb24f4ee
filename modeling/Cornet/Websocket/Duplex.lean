import Cornet.Machinery.Writers
import Cornet.Websocket.Session

/-!
# Websocket/Duplex — a reader and a writer on one session (`src/websocket/session.cc`)

    reader:  recv ──▸ loop ──▸ fill ⋯ Pong ⋯ Close echo ──▸ return
    writer:  send / ping / close ──▸ writev_all ⋯ ──▸ return

Two coroutines on one thread, one inside `recv` and one inside `send`, `ping` or `close`.  A
coroutine runs until it awaits the transport; the kernel completes the operation on its own time,
taking some bytes of a write **when it completes**; the coroutine goes on some time later, and
writes what is left.  What a coroutine can do between two awaits is said once (`Segment`).
-/

namespace Cornet.Websocket

/-! ## Frames the session writes -/

/-- One round of the generator of `next_mask_key`.  It is a bijection that fixes 0, so the loop
around it ends after one round. -/
def xorshift (x : UInt32) : UInt32 :=
  let x := x ^^^ (x <<< 13)
  let x := x ^^^ (x >>> 17)
  x ^^^ (x <<< 5)

/-- A whole frame as `send` and `send_control` write it, and the session after it: a client draws a
key and masks. -/
def Session.frame (s : Session) (op : Opcode) (payload : List Byte) : Session × List Byte :=
  match s.role with
  | .client =>
    let key := xorshift s.maskSeed
    ({ s with maskSeed := key },
      writeFrameHeader true op payload.length key ++ applyMask key 0 payload)
  | .server => (s, writeFrameHeader true op payload.length 0 ++ payload)

/-- The body of a Close frame. -/
def closeBody (code : ℕ) (reason : List Byte) : List Byte :=
  beBytes 2 code ++ reason.take (kMaxControlPayload - 2)

/-! ## Two coroutines -/

inductive Side
  | reader | writer
  deriving DecidableEq, Repr

def Side.other : Side → Side
  | .reader => .writer
  | .writer => .reader

/-- What follows a frame that has been written. -/
inductive Next
  /-- the call returns -/
  | ret
  /-- the loop of `step` goes on -/
  | again
  /-- `state_ = CloseSent`, and the call returns -/
  | closeSent
  deriving DecidableEq, Repr

inductive Pc
  | idle
  /-- at the head of the loop of `step` -/
  | loop
  /-- a recv is in flight -/
  | filling
  /-- it completed with these bytes, or failed -/
  | filled (res : Option (List Byte))
  /-- a writev is in flight for a frame of which `done` bytes have been written -/
  | writing (frame : List Byte) (done : ℕ) (next : Next)
  /-- it completed with this result -/
  | written (frame : List Byte) (done : ℕ) (res : Option ℕ) (next : Next)
  deriving DecidableEq, Repr

/-- The session, its two coroutines and the bytes that have gone out.  The last fields record the
frames in the order they were started, and that a write failed with part of its frame out. -/
structure Duplex where
  session : Session
  running : Bool := false
  pc : Side → Pc := fun _ => .idle
  out : List Byte := []
  started : List (Opcode × List Byte) := []
  broken : Bool := false

/-- What the kernel answers. -/
inductive Answer
  | wrote (w : ℕ)
  | got (l : List Byte)
  | error
  deriving DecidableEq, Repr

/-- The reader calls `recv`, and makes a turn of its loop (`fired`: whether the deadline has fired
by then); the writer makes a call; the kernel completes an operation; a coroutine whose operation
has completed resumes. -/
inductive Act
  | recv
  | turn (fired : Bool)
  | send (op : Opcode) (payload : List Byte)
  | ping (payload : List Byte)
  | close (code : ℕ) (reason : List Byte)
  | complete (r : Side) (answer : Answer)
  | resume (r : Side)
  deriving DecidableEq, Repr

namespace Duplex

variable (s : Duplex)

def goto (r : Side) (pc : Pc) : Duplex := { s with pc := Function.update s.pc r pc }

/-- The coroutine awaits, or returns. -/
def suspend (r : Side) (pc : Pc) : Duplex := { s.goto r pc with running := false }

/-- A frame is built and its first writev submitted. -/
def start (r : Side) (op : Opcode) (payload : List Byte) (next : Next) : Duplex :=
  { s with
    session := (s.session.frame op payload).1
    started := s.started ++ [(op, (s.session.frame op payload).2)] }.suspend r
      (.writing (s.session.frame op payload).2 0 next)

/-- `send_control`, which cuts the payload. -/
def sendControl (r : Side) (op : Opcode) (payload : List Byte) (next : Next) : Duplex :=
  s.start r op (payload.take kMaxControlPayload) next

/-- `send`.  A client copies the payload to a block of its 32-bit size. -/
def send (op : Opcode) (payload : List Byte) : Option Duplex :=
  if op.isData = false then some s
  else if s.session.state ≠ .opened then some s
  else if s.session.role = .client ∧ 2 ^ 32 ≤ payload.length then none
  else some (s.start .writer op payload .ret)

/-- `session_t::ping`. -/
def ping (payload : List Byte) : Duplex :=
  if s.session.state ≠ .opened then s else s.sendControl .writer .ping payload .ret

/-- `close`, called by the writer or by `fail_protocol`. -/
def close (r : Side) (code : ℕ) (reason : List Byte) : Duplex :=
  if s.session.state ≠ .opened then s.suspend r .idle
  else if code = 1005 ∨ code = 1006 ∨ closeCodeValid code = false then s.suspend r .idle
  else s.sendControl r .close (closeBody code reason) .closeSent

/-- `fail_protocol`. -/
def failProtocol (code : CloseCode) (fired : Bool) : Duplex :=
  if s.session.state = .opened ∧ fired = false then s.close .reader code.toNat []
  else s.suspend .reader .idle

/-- A whole, well-formed Close: it is echoed if the session was open. -/
def peerClose (payload : List Byte) : Duplex :=
  if s.session.state = .opened then
    { s with session := { s.session with state := .closeReceived } }.sendControl .reader .close
      payload
      .ret
  else { s with session := { s.session with state := .closeReceived } }.suspend .reader .idle

/-- A turn of the reader's loop, up to its next await or its return. -/
def turn (fired : Bool) : Option Duplex :=
  let s' := { s with session := s.session.iterate.1 }
  match s.session.iterate.2 with
  | .again => some s'
  | .fill => some (s'.suspend .reader (if s'.session.fillBuffer.room = 0 then .idle else .filling))
  | .pong payload => some (s'.sendControl .reader .pong payload .again)
  | .violation _ code => some (s'.failProtocol code fired)
  | .peerClose payload => some (s'.peerClose payload)
  | .message _ _ => some (s'.suspend .reader .idle)
  | .failed => some (s'.suspend .reader .idle)
  | .overrun => none

/-- The kernel completes the operation a coroutine awaits. -/
def complete (r : Side) (answer : Answer) : Option Duplex :=
  match s.pc r, answer with
  | .writing frame done next, .wrote w =>
    if done + w ≤ frame.length then
      some { s.goto r (.written frame done (some w) next) with
        out := s.out ++ (frame.drop done).take w
        broken := s.broken || (w == 0 && done != 0) }
    else none
  | .writing frame done next, .error =>
    some { s.goto r (.written frame done none next) with broken := s.broken || done != 0 }
  | .filling, .got l =>
    if l.length ≤ s.session.fillBuffer.room then some (s.goto r (.filled (some l))) else none
  | .filling, .error => some (s.goto r (.filled none))
  | _, _ => none

/-- After a frame has been written. -/
def finishWrite (r : Side) : Next → Duplex
  | .ret => s.suspend r .idle
  | .again => { s.goto r .loop with running := true }
  | .closeSent => { s with session := { s.session with state := .closeSent } }.suspend r .idle

/-- A coroutine resumes with the result of its operation: an error, a write of nothing and the end
of the input return to the caller. -/
def resume (r : Side) : Option Duplex :=
  match s.pc r with
  | .written _ _ none _ => some (s.suspend r .idle)
  | .written _ _ (some 0) _ => some (s.suspend r .idle)
  | .written frame done (some w) next =>
    some (if done + w < frame.length then s.suspend r (.writing frame (done + w) next)
      else s.finishWrite r next)
  | .filled none => some (s.suspend r .idle)
  | .filled (some []) => some (s.suspend r .idle)
  | .filled (some l) =>
    some { s.goto r .loop with session := s.session.filled l, running := true }
  | _ => none

/-- One step of the session. -/
def step : Act → Option Duplex
  | .recv =>
    if s.running = false ∧ s.pc .reader = .idle then
      some (if s.session.state = .closeReceived then s
        else { s.goto .reader .loop with running := true })
    else none
  | .turn fired => if s.running ∧ s.pc .reader = .loop then s.turn fired else none
  | .send op payload =>
    if s.running = false ∧ s.pc .writer = .idle then s.send op payload else none
  | .ping payload =>
    if s.running = false ∧ s.pc .writer = .idle then some (s.ping payload) else none
  | .close code reason =>
    if s.running = false ∧ s.pc .writer = .idle then some (s.close .writer code reason) else none
  | .complete r answer => s.complete r answer
  | .resume r => if s.running = false then s.resume r else none

end Duplex

/-! ## What a coroutine does between two awaits -/

/-- The frame a coroutine has under way, with the bytes of it that are out. -/
def Pc.progress : Pc → Option (List Byte × ℕ)
  | .writing frame done _ => some (frame, done)
  | .written frame done (some w) _ => if w = 0 then none else Writers.left frame (done + w)
  | _ => none

/-- The coroutine is inside `close`. -/
def Pc.closing : Pc → Bool
  | .writing _ _ .closeSent => true
  | .written _ _ _ .closeSent => true
  | _ => false

/-- Whose step it is. -/
def Act.side : Act → Side
  | .recv | .turn _ => .reader
  | .send _ _ | .ping _ | .close _ _ => .writer
  | .complete r _ | .resume r => r

namespace Duplex

/-- A call of `send` or `close`, a Close of the peer or a violation: what the closing handshake is
about. -/
def concernsClose (s : Duplex) : Act → Bool
  | .send _ _ => true
  | .close _ _ => true
  | .turn fired =>
    match s.session.iterate.2 with
    | .peerClose _ => true
    | .violation _ _ => !fired
    | _ => false
  | _ => false

/-- The occasions to start a frame: the closing states before and after. -/
inductive Occasion (concerns : Bool) : Opcode → Next → CloseState → CloseState → Prop
  | ping (st : CloseState) : Occasion concerns .ping .ret st st
  | pong (st : CloseState) : Occasion concerns .pong .again st st
  | data {op : Opcode} (hop : op.isData = true) (h : concerns = true) :
      Occasion concerns op .ret .opened .opened
  | close (h : concerns = true) : Occasion concerns .close .closeSent .opened .opened
  | echo (h : concerns = true) : Occasion concerns .close .ret .opened .closeReceived

/-- The closing states before and after a segment that starts no frame. -/
inductive Quiet (concerns closing : Bool) : CloseState → CloseState → Prop
  | same (st : CloseState) : Quiet concerns closing st st
  | received {st : CloseState} (h : concerns = true) : Quiet concerns closing st .closeReceived
  | closeSent {st : CloseState} (h : closing = true) : Quiet concerns closing st .closeSent

/-- **What a coroutine does between two awaits**: it goes on with what it was doing, or starts a
frame. -/
inductive Segment (s : Duplex) (r : Side) (concerns : Bool) (t : Duplex) : Prop
  | quiet (pc : Pc) (hpc : t.pc = Function.update s.pc r pc)
      (hprogress : pc.progress = (s.pc r).progress)
      (hclosing : pc.closing = true → (s.pc r).closing = true ∧ t.session.state = s.session.state)
      (hout : t.out = s.out) (hstarted : t.started = s.started) (hbroken : t.broken = s.broken)
      (hstate : Quiet concerns (s.pc r).closing s.session.state t.session.state)
  | start (op : Opcode) (frame : List Byte) (next : Next) (hframe : frame ≠ [])
      (hidle : (s.pc r).progress = none) (hpc : t.pc = Function.update s.pc r
        (.writing frame 0 next))
      (hout : t.out = s.out) (hstarted : t.started = s.started ++ [(op, frame)])
      (hbroken : t.broken = s.broken)
      (hstate : Occasion concerns op next s.session.state t.session.state)

variable {s t : Duplex} {r : Side} {pc : Pc} {concerns : Bool} {x : Session}

theorem frame_ne_nil (s : Session) (op : Opcode) (payload : List Byte) : (s.frame op payload).2 ≠
    [] := by
  rw [Session.frame]
  cases s.role <;> simp [writeFrameHeader]

theorem state_frame (s : Session) (op : Opcode) (payload : List Byte) :
    (s.frame op payload).1.state = s.state := by
  rw [Session.frame]
  cases s.role <;> rfl

/-- The coroutine goes to a place where it has no frame under way. -/
theorem segment_suspend (hs : (s.pc r).progress = none) (hpc : pc.progress = none)
    (hclosing : pc.closing = false)
    (hx : Quiet concerns (s.pc r).closing s.session.state x.state) :
    Segment s r concerns ({ s with session := x }.suspend r pc) :=
  .quiet pc rfl (hpc.trans hs.symm) (fun h => by simp [hclosing] at h) rfl rfl rfl hx

theorem segment_start {op : Opcode} {next : Next} (payload : List Byte)
    (hs : (s.pc r).progress = none) (hx : Occasion concerns op next s.session.state x.state) :
    Segment s r concerns ({ s with session := x }.start r op payload next) := by
  refine .start op (x.frame op payload).2 next (frame_ne_nil x op payload) hs rfl rfl rfl rfl ?_
  exact (state_frame x op payload).symm ▸ hx

theorem segment_close (code : ℕ) (reason : List Byte) (hs : (s.pc r).progress = none)
    (hx : x.state = s.session.state) (hconcerns : concerns = true) :
    Segment s r concerns ({ s with session := x }.close r code reason) := by
  rw [close]
  split
  · exact segment_suspend hs rfl rfl (hx ▸ .same _)
  · split
    · exact segment_suspend hs rfl rfl (hx ▸ .same _)
    · rename_i hopened _
      have hopened : x.state = .opened := not_not.mp hopened
      refine segment_start _ hs ?_
      rw [← hx, hopened]
      exact .close hconcerns

theorem segment_self (s : Duplex) (r : Side) : Segment s r concerns s :=
  .quiet (s.pc r) (Function.update_eq_self r s.pc).symm rfl (fun h => ⟨h, rfl⟩) rfl rfl rfl
    (.same _)

theorem segment_failProtocol (code : CloseCode) {fired : Bool} (hs : (s.pc .reader).progress = none)
    (hx : x.state = s.session.state) (hconcerns : fired = false → concerns = true) :
    Segment s .reader concerns ({ s with session := x }.failProtocol code fired) := by
  rw [failProtocol]
  split
  · rename_i h
    exact segment_close _ _ hs hx (hconcerns h.2)
  · exact segment_suspend hs rfl rfl (hx ▸ .same _)

theorem segment_peerClose (payload : List Byte) (hs : (s.pc .reader).progress = none)
    (hx : x.state = s.session.state) (hconcerns : concerns = true) :
    Segment s .reader concerns ({ s with session := x }.peerClose payload) := by
  rw [peerClose]
  split
  · rename_i hopened
    refine segment_start _ hs ?_
    rw [← hx, hopened]
    exact .echo hconcerns
  · exact segment_suspend hs rfl rfl (.received hconcerns)

theorem segment_turn {fired : Bool} (hs : s.pc .reader = .loop) (h : s.turn fired = some t) :
    Segment s .reader (s.concernsClose (.turn fired)) t := by
  have hs' : (s.pc .reader).progress = none := by rw [hs]; rfl
  have hx := s.session.state_iterate
  have hsame : Quiet (s.concernsClose (.turn fired)) (s.pc .reader).closing s.session.state
      s.session.iterate.1.state := hx.symm ▸ .same _
  rw [turn] at h
  split at h <;> cases h
  · exact .quiet .loop (hs ▸ (Function.update_eq_self _ s.pc).symm)
      (by rw [hs]) nofun rfl rfl rfl hsame
  · exact segment_suspend hs' (by split <;> rfl) (by split <;> rfl) hsame
  · exact segment_start _ hs' (hx ▸ .pong _)
  · refine segment_failProtocol _ hs' hx fun hfired => ?_
    simp only [concernsClose, *, Bool.not_false]
  · exact segment_peerClose _ hs' hx (by simp only [concernsClose, *])
  · exact segment_suspend hs' rfl rfl hsame
  · exact segment_suspend hs' rfl rfl hsame

theorem segment_send {op : Opcode} {payload : List Byte} (hs : (s.pc .writer).progress = none)
    (h : s.send op payload = some t) : Segment s .writer true t := by
  rw [send] at h
  split at h
  · cases h
    exact segment_self s _
  · rename_i hop
    split at h
    · cases h
      exact segment_self s _
    · rename_i hopened
      have hopened : s.session.state = .opened := not_not.mp hopened
      split at h <;> cases h
      refine segment_start (x := s.session) _ hs ?_
      rw [hopened]
      exact .data (by simpa using hop) rfl

theorem segment_ping (payload : List Byte) (hs : (s.pc .writer).progress = none) :
    Segment s .writer concerns (s.ping payload) := by
  rw [ping]
  split
  · exact segment_self s _
  · exact segment_start (x := s.session) _ hs (.ping _)

theorem segment_finishWrite {next : Next} (hs : (s.pc r).progress = none)
    (hclosing : next = .closeSent → (s.pc r).closing = true) :
    Segment s r concerns (s.finishWrite r next) := by
  cases next with
  | ret => exact segment_suspend (x := s.session) hs rfl rfl (.same _)
  | again => exact .quiet .loop rfl hs.symm nofun rfl rfl rfl (.same _)
  | closeSent => exact segment_suspend hs rfl rfl (.closeSent (hclosing rfl))

theorem segment_resume (h : s.resume r = some t) : Segment s r concerns t := by
  rw [resume] at h
  split at h <;> cases h
  · exact segment_suspend (x := s.session) (by simp only [*, Pc.progress]) rfl rfl (.same _)
  · exact segment_suspend (x := s.session) (by simp only [*, Pc.progress, if_true]) rfl rfl
      (.same _)
  · rename_i frame done w next hw hpc
    have hprogress : (s.pc r).progress = Writers.left frame (done + w) := by
      rw [hpc, Pc.progress, if_neg hw]
    have hclosing : next = .closeSent → (s.pc r).closing = true := by
      rintro rfl
      rw [hpc]
      rfl
    split
    · rename_i hlt
      refine .quiet (.writing frame (done + w) next) rfl ?_ (fun h => ⟨hclosing ?_, rfl⟩) rfl rfl
        rfl
        (.same _)
      · rw [hprogress, Pc.progress, Writers.left, if_pos hlt]
      · cases next <;> first | rfl | cases h
    · rename_i hlt
      refine segment_finishWrite ?_ hclosing
      rw [hprogress, Writers.left, if_neg hlt]
  · exact segment_suspend (x := s.session) (by simp only [*, Pc.progress]) rfl rfl (.same _)
  · exact segment_suspend (x := s.session) (by simp only [*, Pc.progress]) rfl rfl (.same _)
  · exact .quiet .loop rfl (by simp only [*, Pc.progress]) (by rintro ⟨⟩) rfl rfl rfl (.same _)

/-- **Every step of a coroutine** is a segment. -/
theorem segment_step {a : Act} (hcomplete : ∀ r answer, a ≠ .complete r answer)
    (h : s.step a = some t) : Segment s a.side (s.concernsClose a) t := by
  cases a with
  | complete r answer => exact (hcomplete r answer rfl).elim
  | recv =>
    rw [step] at h
    split at h <;> cases h
    rename_i hidle
    split
    · exact segment_self s _
    · exact .quiet .loop rfl (by rw [Act.side, hidle.2]; rfl) nofun rfl rfl rfl (.same _)
  | turn fired =>
    rw [step] at h
    split at h
    · rename_i hloop
      exact segment_turn hloop.2 h
    · cases h
  | send op payload =>
    rw [step] at h
    split at h
    · rename_i hidle
      exact segment_send (by rw [hidle.2]; rfl) h
    · cases h
  | ping payload =>
    rw [step] at h
    split at h <;> cases h
    rename_i hidle
    exact segment_ping payload (by rw [hidle.2]; rfl)
  | close code reason =>
    rw [step] at h
    split at h <;> cases h
    rename_i hidle
    exact segment_close (x := s.session) code reason (by rw [Act.side, hidle.2]; rfl) rfl rfl
  | resume r =>
    rw [step] at h
    split at h
    · exact segment_resume h
    · cases h

end Duplex

end Cornet.Websocket
