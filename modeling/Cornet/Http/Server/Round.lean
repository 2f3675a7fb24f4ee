import Cornet.Http.Server.Response

/-!
# Http/Server/Round — answering the requests of one read, and writing the answers out

    begin · 100 · handler · ┬ drain failed ──▸ write_error(status)
                            ├ failed ────────▸ write_error(500)
                            ├ unfinished ────▸ settle_streaming
                            └ frame_response ▸ next request … flush · reset_round

Parts 2 and 3 of the loop of `connection_t::run`.  Both dispatch sites end in the same tests; the
one for streamed request bodies drains the body first.  A request whose header section was parsed in
an earlier round has had its `begin` there.
-/

namespace Cornet.Http.Server

/-- A request as the answering half sees it. -/
structure Req where
  /-- `method_t::Head`. -/
  head : Bool := false
  /-- `parser_.keep_alive()` and no `request_close()` so far. -/
  keepAlive : Bool := true
  expectsContinue : Bool := false
  /-- The header section was parsed in an earlier round. -/
  carried : Bool := false
  /-- The route streams the request body. -/
  streaming : Bool := false
  /-- What draining the request body ends in: the status of the error, if it fails. -/
  drain : Option Status := none
  date : List Byte := []
  ops : List Op
  deriving DecidableEq, Repr

/-- The status a failed drain is answered with. -/
def Req.drainError (q : Req) : Option Status := if q.streaming then q.drain else none

namespace Staging

variable (s : Staging)

/-! ## Framing -/

/-- The slots of `pending_`. -/
def kPending : ℕ := 64

/-- The descriptor of a response about to be queued; `s` is the state before its head was framed. -/
def pendingOf (s framed : Staging) (headRequest : Bool) : Pending :=
  let r := framed.resp
  let p : Pending :=
    { headOff := s.headOut.size, headLen := framed.headOut.size - s.headOut.size
      hdrOff := r.hdrOff, hdrLen := r.hdrLength }
  if !r.status.forbidsBody && !headRequest && 0 < r.bodyLen then
    { p with
      source := r.source, bodyLen := r.bodyLen % 2 ^ 32, bodyOff := r.bodyOff,
      external := r.external, file := r.file }
  else p

def enqueue (p : Pending) : Staging := { s with pending := s.pending ++ [p] }

/-- `connection_t::frame_response`. -/
def frameResponse (headRequest closeAfter : Bool) : Staging :=
  if s.resp.source = .streaming then s
  else
    let framed := s.frameHead closeAfter
    if s.pending.length < kPending then framed.enqueue (pendingOf s framed headRequest)
    else { framed with headOut := framed.headOut.fail .outputOverflow }

/-- The response `write_error` builds. -/
def errorDraft (status : Status) : Staging :=
  ((s.begin.setStatus status).putHeader .contentType fun out =>
    Serializer.header out .contentType (ascii "text/plain; charset=utf-8")).bodyStatic
      (ascii status.reasonPhrase)

/-- `connection_t::write_error`. -/
def writeError (headRequest : Bool) (status : Status) : Staging :=
  { (s.errorDraft status).frameResponse headRequest true with closeAfterFlush := true }

/-- `write_continue`; with no slot left the line stays staged and nobody refers to it. -/
def writeContinue : Staging :=
  let staged := { s with headOut := (Serializer.statusLine s.headOut .interim).putCrlf }
  if s.pending.length < kPending then
    staged.enqueue
      { headOff := s.headOut.size, headLen := staged.headOut.size - s.headOut.size }
  else staged

/-- `resp_.failed()`. -/
def respFailed : Bool := s.resp.err.isSome || s.hdrOut.failed || s.bodyOut.failed

/-- What precedes the handler. -/
def prepare (q : Req) : Staging :=
  let s := { s with date := q.date }
  if q.carried then s else if q.expectsContinue then s.begin.writeContinue else s.begin

/-! ## What is queued -/

/-- The body of a queued response. -/
def renderBody (p : Pending) : List Byte :=
  match p.source with
  | .inline => s.bodyOut.view p.bodyOff p.bodyLen
  | .external => p.external.take p.bodyLen
  | .file => p.file.take p.bodyLen
  | _ => []

/-- The staged parts of a queued response. -/
def renderHead (p : Pending) : List Byte :=
  s.headOut.view p.headOff p.headLen ++ s.hdrOut.view p.hdrOff p.hdrLen

/-- A queued response, read out of the buffers. -/
def render (p : Pending) : List Byte := s.renderHead p ++ s.renderBody p

/-- The writes `flush` makes: `batch` is what has been gathered since the last file.  64 responses
never fill the 192 vectors of a batch. -/
def batches (batch : List Byte) : List Pending → List (List Byte)
  | [] => [batch]
  | p :: ps =>
    if p.source = .file then batch :: s.renderHead p :: s.renderBody p :: batches [] ps
    else batches (batch ++ s.render p) ps

/-- Some buffer failed, and `flush` will write nothing. -/
def broken : Bool := s.headOut.failed || s.hdrOut.failed || s.bodyOut.failed

end Staging

namespace Conn

variable (c : Conn)

/-! ## Dispatch -/

/-- `connection_t::settle_streaming`. -/
def settleStreaming (headRequest : Bool) : Conn :=
  if c.headersStaged then
    { c with
      headOut := c.headOut.clear
      hdrOut := c.hdrOut.clear
      streamOut := c.streamOut.clear }.staged (·.writeError headRequest .internalServerError)
  else { c with closing := true }

/-- `connection_t::needs_streaming_settlement`. -/
def needsStreamingSettlement : Bool := c.resp.source == .streaming && !c.streamFinished

/-- What follows the handler; the flag says that the round is done. -/
def conclude (q : Req) : Conn × Bool :=
  match q.drainError with
  | some status => (c.staged (·.writeError q.head status), true)
  | none =>
    if c.respFailed then (c.staged (·.writeError q.head .internalServerError), true)
    else if c.needsStreamingSettlement then
      ({ c.settleStreaming q.head with closeAfterFlush := true }, true)
    else if !q.keepAlive || c.closing || c.resp.status.forcesClose then
      ({ c.staged (·.frameResponse q.head true) with closeAfterFlush := true }, true)
    else (c.staged (·.frameResponse q.head false), false)

/-- One request answered. -/
def answer (q : Req) : Conn × Bool := ((c.staged (·.prepare q)).handle q.ops).conclude q

/-- The requests of a round, until one ends it or `max_pipelined` is reached. -/
def serve : ℕ → Conn → List Req → Conn
  | _, c, [] => c
  | max, c, q :: qs =>
    if (c.answer q).2 || max ≤ 1 then (c.answer q).1 else serve (max - 1) (c.answer q).1 qs

/-! ## Writing -/

/-- Some writes, until one fails. -/
def sendAll : List (List Byte) → Conn → Conn × Bool
  | [], c => (c, true)
  | l :: ls, c => if (c.send l).2 then sendAll ls (c.send l).1 else c.send l

/-- `connection_t::flush`. -/
def flush : Conn × Bool :=
  if c.pending = [] then (c, true)
  else if c.broken then (c, false)
  else sendAll (c.batches [] c.pending) c

/-- `connection_t::reset_round`. -/
def resetRound : Conn :=
  { c with
    pending := []
    headOut := c.headOut.clear
    hdrOut := c.hdrOut.clear
    bodyOut := c.bodyOut.clear
    streamOut := c.streamOut.clear
    headersStaged := false
    streamFinished := false }

/-- A whole round; the flag says that the connection is given up after it. -/
def round (max : ℕ) (qs : List Req) : Conn × Bool :=
  let s := (serve max c qs).flush
  let c := s.1.resetRound
  (c, !s.2 || c.closeAfterFlush || c.closing)

end Conn

end Cornet.Http.Server
