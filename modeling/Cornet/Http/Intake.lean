import Cornet.Http.Parser

/-!
# Http/Intake — receiving into the head buffer, and reading a body through its tail

    head buffer:  | header section | tail |        rewind · recv · execute · take the run · rewind · …
                  0                body_window

Both connections receive alike: `fill` puts what one `recv` brings behind what is there, and a body
is read through the region behind the header section, which is rewound before every read.  `Intake`
is the part of a connection this needs.  The peer is the bytes it has sent and will send; how many
of them one `recv` brings is `recvs`, which says nothing about the bytes themselves.
-/

namespace Cornet.Http

/-- How one `recv` goes. -/
inductive Recv
  /-- It brings at most `n + 1` bytes. -/
  | upTo (n : ℕ)
  | fails (errno : ℕ)
  deriving DecidableEq, Repr

/-- `ETIMEDOUT`. -/
def eTimedOut : ℕ := 110

/-- The receiving end of a connection. -/
structure Net where
  inbox : List Byte := []
  /-- The peer closes behind its last byte; otherwise it stays silent until the deadline. -/
  fin : Bool := false
  recvs : ℕ → Recv := fun _ => .upTo 65535

/-- One `recv` with room for `room` bytes. -/
def Net.recv (net : Net) (room : ℕ) : Net × Except ReadError (List Byte) :=
  let next := { net with recvs := fun i => net.recvs (i + 1) }
  match net.recvs 0 with
  | .fails e => (next, .error (.sys e))
  | .upTo n =>
    if net.inbox = [] then (next, if net.fin then .ok [] else .error (.sys eTimedOut))
    else
      let k := min (n + 1) room
      ({ next with inbox := net.inbox.drop k }, .ok (net.inbox.take k))

/-- The receiving half of a connection. -/
structure Intake where
  net : Net
  parser : Parser
  bodyWindow : ℕ := 0
  /-- `responded_`: a client has received something since its last request. -/
  responded : Bool := false

/-- How one turn of a body read ends. -/
inductive Turn
  | again
  /-- A run is handed to the reader. -/
  | run (l : List Byte)
  /-- The message is complete; a run may be left over. -/
  | done (tail : List Byte)
  | eof
  | failed (e : ReadError)
  deriving DecidableEq, Repr

namespace Intake

variable (s : Intake)

def head : HeadBuffer := s.parser.io.head

def setHead (b : HeadBuffer) : Intake :=
  { s with parser := { s.parser with io := { s.parser.io with head := b } } }

/-- `fill`. -/
def fill : Intake × Except ReadError ℕ :=
  if s.head.room = 0 then (s, .error .headerTooLarge)
  else
    match s.net.recv s.head.room with
    | (net, .error e) => ({ s with net }, .error e)
    | (net, .ok l) =>
      if l = [] then ({ s with net }, .ok 0)
      else ({ s with net, responded := true }.setHead (s.head.put l), .ok l.length)

/-- `refill_body`: the tail is used again. -/
def refill : Intake × Except ReadError ℕ := (s.setHead (s.head.rewindTo s.bodyWindow)).fill

/-- The parser is handed a window. -/
def execute (off len : ℕ) : Intake × Result :=
  let r := s.parser.execute off len
  ({ s with parser := r.1 }, r.2)

def resume : Intake × Result :=
  let r := s.parser.resume
  ({ s with parser := r.1 }, r.2)

/-- The error a read is given up with. -/
def errorOr (e : ReadError) : ReadError := s.parser.error.getD e

/-- A run still pending when the message is complete. -/
def takeTail : Intake × Turn :=
  ({ s with parser := s.parser.clearPendingBody }, .done s.parser.pendingBody)

/-- The window was used up: the rest of the body is still on the wire. -/
def readMore : Intake × Turn :=
  match s.refill with
  | (s, .error e) => (s, .failed e)
  | (s, .ok 0) => (s, .eof)
  | (s, .ok n) =>
    match s.execute s.bodyWindow n with
    | (s, .error) => (s, .failed (s.errorOr .invalidState))
    | (s, .messageReady) => s.takeTail
    | (s, _) => (s, .again)

/-- One turn of the loops of `read_body` and `read_body_chunk`. -/
def readTurn (complete : Bool) : Intake × Turn :=
  if s.parser.pendingBody ≠ [] then
    ({ s with parser := s.parser.clearPendingBody }, .run s.parser.pendingBody)
  else if complete then (s, .done [])
  else
    match s.resume with
    | (s, .bodyPaused) => (s, .again)
    | (s, .messageReady) => (s, .done [])
    | (s, .needMore) => s.readMore
    | (s, _) => (s, .failed (s.errorOr .invalidState))

/-- The same for a read that aggregates: the parser copies into the body buffer itself. -/
def feedMore : Intake × Turn :=
  match s.refill with
  | (s, .error e) => (s, .failed e)
  | (s, .ok 0) => (s, .eof)
  | (s, .ok n) =>
    match s.execute s.bodyWindow n with
    | (s, .error) => (s, .failed (s.errorOr .invalidState))
    | (s, .messageReady) => (s, .done [])
    | (s, _) => (s, .again)

/-- One turn of the loop of `aggregate_body`. -/
def feedTurn : Intake × Turn :=
  match s.resume with
  | (s, .messageReady) => (s, .done [])
  | (s, .error) => (s, .failed (s.errorOr .invalidState))
  | (s, .needMore) => s.feedMore
  | (s, _) => (s, .failed .invalidState)

end Intake

end Cornet.Http
