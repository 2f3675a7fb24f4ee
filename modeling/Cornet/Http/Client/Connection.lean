import Cornet.Http.Client.Message
import Cornet.Http.Intake
import Cornet.Machinery.Coro

/-!
# Http/Client/Connection — one request, one response, and again (`src/http/client/connection.cc`)

    frame ─ write ─ (100 ─ write body) ─ read headers ─ read body ─▸ response, and is the connection reusable?

The peer is a stream of bytes that does not depend on what is asked, so any peer is one of them.  A
write sends everything, or a part of it and fails.  The deadlines show as failed reads and writes; a
connection whose deadline has fired is never reusable, so leaving that flag out only makes more
connections reusable.  Every loop is given `n` turns.
-/

namespace Cornet.Http.Client

/-! ## State -/

/-- What a connection reads of `client_options_t`. -/
structure ConnOptions where
  maxHeaderBytes : ℕ := 16 <<< 10
  maxHeaders : ℕ := 64
  maxTrailers : ℕ := 0
  maxBodyBytes : ℕ := 8 <<< 20
  aggregateThreshold : ℕ := 256 <<< 10
  headBufferBytes : ℕ := 4 <<< 10
  chunkBufferBytes : ℕ := 4 <<< 10
  sendUserAgent : Bool := true
  sendAccept : Bool := true
  userAgent : List Byte := ascii "cornet"

/-- The sending end of a connection: how each `writev_all` goes, and what the peer can have
received. -/
structure Wire where
  sent : List Byte := []
  /-- `some (k, e)`: the first `k` bytes go out, and then the write fails with `e`. -/
  writes : ℕ → Option (ℕ × ℕ) := fun _ => none

def Wire.write (w : Wire) (l : List Byte) : Wire × Option ℕ :=
  let next := fun i => w.writes (i + 1)
  match w.writes 0 with
  | none => ({ sent := w.sent ++ l, writes := next }, none)
  | some (k, e) => ({ sent := w.sent ++ l.take k, writes := next }, some e)

/-- What `record_headers` notes on the node. -/
structure Answer where
  status : Status := ⟨0⟩
  version : Version := .unknown
  chunked : Bool := false
  hasContentLength : Bool := false
  contentLength : ℕ := 0
  deriving DecidableEq, Repr

/-- `client_response_t`: what can be read off the node it owns. -/
structure Response where
  answer : Answer
  headers : List (List Byte × List Byte × Bool)
  /-- `header(field_t::Location)`, the one header the client itself asks for. -/
  location : List Byte
  body : List Byte
  keepAlive : Bool
  deriving DecidableEq, Repr

/-- `client_connection_t`.  The node's buffers are the ones the parser is bound to. -/
structure Connection where
  opt : ConnOptions := {}
  intake : Intake
  /-- `node_` is set. -/
  attached : Bool := false
  answer : Answer := {}
  headOut : OutBuffer
  chunkOut : Option OutBuffer := none
  wire : Wire := {}
  keepAlive : Bool := true
  headersDone : Bool := false
  bodyComplete : Bool := false
  streaming : Bool := false
  chunkedUpload : Bool := false
  broken : Bool := false

/-- The connection's coroutines. -/
abbrev Task (α : Type) := Coro Connection ReadError α

def ofHttp : HttpError → ReadError
  | .outputOverflow => .outputOverflow
  | .invalidState => .invalidState
  | .invalidHeader => .invalidHeader

/-- `status_is_informational`, without the one that ends HTTP. -/
def isInterim (s : Status) : Bool := s.isInformational && s.code != 101

/-- `method_needs_zero_length`. -/
def needsZeroLength : Server.Method → Bool
  | .post | .put | .patch => true
  | _ => false

/-- `frame_request_head`. -/
def frameRequestHead (out : OutBuffer) (req : Request) (opt : ConnOptions) (chunkedUpload : Bool) :
    OutBuffer :=
  let out := Serializer.requestLine out req.method req.url.path req.url.query .http11
  let out := if req.saw.host then out else Serializer.header out .host req.url.authority
  let out :=
    if opt.sendUserAgent && !req.saw.userAgent then Serializer.header out .userAgent opt.userAgent
      else out
  let out := if opt.sendAccept && !req.saw.accept then Serializer.header out .accept (ascii "*/*")
    else out
  let out := if req.saw.connection then out else Serializer.header out .connection
    (ascii "keep-alive")
  let out :=
    if chunkedUpload then
      if req.saw.transferEncoding then out else Serializer.header out .transferEncoding
        (ascii "chunked")
    else if !req.saw.contentLength && !req.saw.transferEncoding then
      if 0 < req.bodyLen || needsZeroLength req.method then
        Serializer.headerU64 out .contentLength req.bodyLen
      else out
    else out
  if req.expectContinue && !req.saw.expect && 0 < req.bodyLen then
    Serializer.header out .expect (ascii "100-continue")
  else out

namespace Connection

/-! ## Pieces -/

section Pieces

variable (c : Connection)

def parser : Parser := c.intake.parser

def setParser (p : Parser) : Connection := { c with intake := { c.intake with parser := p } }

def setSink (on : Bool) : Connection := c.setParser { c.parser with sink := on }

def setBody (b : BodyBuffer) : Connection :=
  c.setParser { c.parser with io := { c.parser.io with body := b } }

/-- `reusable`. -/
def reusable : Bool := !c.broken && c.keepAlive && c.bodyComplete

/-- `adopt`, for a peer whose bytes llhttp reads as `items`. -/
def adopt (opt : ConnOptions) (net : Net) (items : List Item) : Connection where
  opt := opt
  intake :=
    { net := net
      parser :=
        { limits := ⟨opt.maxHeaders, opt.maxTrailers, opt.maxBodyBytes⟩, response := true,
          input := items } }
  headOut := { cap := acquire opt.headBufferBytes }

/-- `inbound_t::create`, which the parser is bound to. -/
def attachNode : Connection :=
  { c.setParser (c.parser.bind { head := HeadBuffer.reset
                                   (acquire c.opt.maxHeaderBytes) }).reset with
    attached := true, answer := {} }

/-- `ensure_node`. -/
def ensureNode : Connection := if c.attached then c else c.attachNode

/-- What a send starts with. -/
def begin (chunkedUpload : Bool) : Connection :=
  { c with
    intake := { c.intake with responded := false }, bodyComplete := false, headersDone := false
    chunkedUpload := chunkedUpload }

/-- `client_connection_t::frame_head`. -/
def frameHead (req : Request) (chunkedUpload : Bool) : Connection :=
  { c with headOut := frameRequestHead c.headOut.clear req c.opt chunkedUpload }

/-- `stage_request`: what the iovecs hold. -/
def staged (req : Request) (headOnly : Bool) : List Byte :=
  c.headOut.view 0 c.headOut.size ++ req.stagedHeaders ++ crlf ++
    if !headOnly && 0 < req.bodyLen then req.bodyView else []

/-- `client_connection_t::record_headers`. -/
def recordHeaders : Connection :=
  { c with
    answer :=
      { status := c.parser.facts.status, version := c.parser.facts.version,
        chunked := c.parser.chunked
        hasContentLength := c.parser.hasContentLength, contentLength :=
          c.parser.facts.contentLength }
    keepAlive := c.parser.facts.keepAlive, headersDone := true }

/-- `finish_message`: nothing may follow a finished response. -/
def finishMessage : Connection :=
  { c with bodyComplete := true, keepAlive := c.keepAlive && !c.parser.hasPendingInput }

/-- The connection is not kept. -/
def hangUp : Connection := { c with keepAlive := false }

/-- The final response's header section is in. -/
def accept (r : Result) : Connection :=
  let c := c.recordHeaders
  let c := { c with intake := { c.intake with bodyWindow := c.parser.consumedOffset },
                    bodyComplete := false }
  if r = .messageReady then c.finishMessage else c

/-- The capacity `append_body` asks for: doubled until it fits; sixty-four doublings cover 64
bits. -/
def doubled (want : ℕ) : ℕ → ℕ → ℕ
  | 0, next => next
  | fuel + 1, next => if next < want then doubled want fuel (next * 2) else next

/-- `append_body`. -/
def appendBody (run : List Byte) : Except ReadError BodyBuffer :=
  let b := c.parser.io.body
  let want := b.size + run.length
  if run = [] then .ok b
  else if c.opt.maxBodyBytes < want then .error .bodyTooLarge
  else
    let next := doubled want 64 (if b.cap = 0 then c.opt.aggregateThreshold else b.cap * 2)
    let b := if b.cap < want then b.grow (min next c.opt.maxBodyBytes) else b
    match b.append run with
    | .ok b => .ok b
    | .outputOverflow => .error .outputOverflow
    | .overrun => .error .overrun

/-- `prepare_body`. -/
def prepareBody (stream : Bool) : Except ReadError Connection :=
  let c := { c with streaming := stream }
  if c.bodyComplete || stream then .ok (c.setSink false)
  else if c.parser.hasContentLength then
    if c.opt.maxBodyBytes < c.parser.facts.contentLength then .error .bodyTooLarge
    else
      match BodyBuffer.reserveExact c.parser.facts.contentLength with
      | some b => .ok ((c.setBody b).setSink true)
      | none => .error .bodyTooLarge
  else
    let initial := min c.opt.aggregateThreshold (16 <<< 10)
    match BodyBuffer.reserveExact (if initial = 0 then 4096 else initial) with
    | some b => .ok ((c.setBody b).setSink false)
    | none => .error .bodyTooLarge

/-- `take_response`: the node goes to the response. -/
def response : Response where
  answer := c.answer
  headers := c.parser.io.table
  location := c.parser.io.get .location
  body := c.parser.io.body.view
  keepAlive := c.keepAlive

end Pieces

/-! ## Coroutines -/

open Coro

/-- `broken_ = true`, and the error goes to the caller. -/
def breaks {α : Type} (e : ReadError) : Task α :=
  fun c => ({ c with broken := true }, .error (some e))

/-- A step of the receiving half. -/
def onIntake {α : Type} (f : Intake → Intake × α) : Task α := fun c =>
  ({ c with intake := (f c.intake).1 }, .ok (f c.intake).2)

/-- `write_staged`. -/
def writeStaged (l : List Byte) : Task Unit := fun c =>
  match c.wire.write l with
  | (w, none) => ({ c with wire := w }, .ok ())
  | (w, some e) => ({ c with wire := w, broken := true }, .error (some (.sys e)))

/-! ### `read_headers` -/

/-- More bytes for a header section. -/
def receive : Task Result := do
  match ← onIntake Intake.fill with
  | .error e => breaks e
  | .ok 0 => breaks .responseIncomplete
  | .ok n => onIntake fun s => s.execute (s.head.w - n) n

/-- An interim response is not an answer: swallow it, or stop at the one that was waited for. -/
def swallow (stopAtContinue : Bool) : Task (Bool ⊕ Bool) := fun c =>
  let stops := stopAtContinue && c.parser.facts.status.code == 100
  let c := c.setParser c.parser.reset
  (c, .ok (if stops then .inr true else .inl (!c.parser.hasPendingInput)))

/-- What the loop of `read_headers` makes of the parser's answer. -/
def onHeaders (stopAtContinue : Bool) : Result → Task (Bool ⊕ Bool)
  | .needMore => pure (.inl true)
  | r@.headersReady | r@.messageReady => do
    let c ← get
    if isInterim c.parser.facts.status then swallow stopAtContinue
    else
      modify (accept · r)
      pure (.inr false)
  | .error => do breaks ((← get).intake.errorOr .invalidState)
  | .upgrade => breaks .badUpgrade
  | .bodyPaused => breaks .invalidState

/-- One turn of the loop of `read_headers`; the local variable is `need_fill`. -/
def headersTurn (stopAtContinue needFill : Bool) : Task (Bool ⊕ Bool) :=
  (if needFill then receive else onIntake Intake.resume) >>= onHeaders stopAtContinue

/-- `read_headers`; `true` when a 100 was waited for and came. -/
def readHeaders (n : ℕ) (m : Server.Method) (stopAtContinue : Bool) : Task Bool := do
  modify fun c => c.setParser { c.parser with responseTo := m }
  let c ← get
  loop (headersTurn stopAtContinue) n (!c.parser.hasPendingInput)

/-! ### Bodies -/

/-- The peer closed: the end of a body without framing, otherwise a truncated message. -/
def closedBody : Task (List Byte) := fun c =>
  if c.parser.hasContentLength || c.parser.chunked then breaks .responseIncomplete c.hangUp
  else
    match c.parser.finish with
    | (p, .messageReady) =>
      ((c.hangUp.setParser p).finishMessage.setParser p.clearPendingBody, .ok p.pendingBody)
    | (p, _) => breaks .responseIncomplete (c.hangUp.setParser p)

/-- One turn of the loop of `read_body`. -/
def bodyTurn : Task (Unit ⊕ List Byte) := do
  let complete := (← get).bodyComplete
  match ← onIntake (Intake.readTurn · complete) with
  | .again => pure (.inl ())
  | .run l => pure (.inr l)
  | .done tail =>
    if !complete then modify finishMessage
    pure (.inr tail)
  | .eof => do pure (.inr (← closedBody))
  | .failed e => breaks e

/-- `client_connection_t::read_body`. -/
def readBody (n : ℕ) : Task (List Byte) := do
  if (← get).attached then loop (fun _ => bodyTurn) n () else fail .invalidState

/-- One turn of `aggregate_body` when the length is unknown. -/
def gatherTurn (n : ℕ) : Task (Unit ⊕ Unit) := do
  let run ← readBody n
  if run = [] then pure (.inr ())
  else
    match (← get).appendBody run with
    | .ok b =>
      modify (setBody · b)
      pure (.inl ())
    | .error e => breaks e

/-- One turn of it when the parser copies into the reservation. -/
def reservedTurn : Task (Unit ⊕ Unit) := do
  match ← onIntake Intake.feedTurn with
  | .done _ =>
    modify finishMessage
    pure (.inr ())
  | .failed e => breaks e
  | .eof =>
    modify hangUp
    breaks .responseIncomplete
  | _ => pure (.inl ())

/-- `client_connection_t::aggregate_body`. -/
def aggregateBody (n : ℕ) : Task Unit := do
  let c ← get
  if c.bodyComplete then pure ()
  else if c.parser.hasContentLength then loop (fun _ => reservedTurn) n ()
  else loop (fun _ => gatherTurn n) n ()

/-! ### The exchange -/

/-- `prepare_body`; a refusal breaks the connection. -/
def prepare (stream : Bool) : Task Unit := fun c =>
  match c.prepareBody stream with
  | .ok c => (c, .ok ())
  | .error e => ({ c with broken := true }, .error (some e))

/-- `client_connection_t::take_response`. -/
def takeResponse : Task Response := fun c =>
  if !c.attached || !c.headersDone || !c.bodyComplete then (c, .error (some .invalidState))
  else ({ c with attached := false, headersDone := false, streaming := false }, .ok c.response)

/-- The head is framed and goes out, with what follows it. -/
def sendHead (req : Request) (chunkedUpload headOnly : Bool) : Task Unit := do
  modify fun c => (c.begin chunkedUpload).frameHead req chunkedUpload
  let c ← get
  match c.headOut.err with
  | some e => breaks (ofHttp e)
  | none => writeStaged (c.staged req headOnly)

/-- `send_and_read_headers`. -/
def sendAndReadHeaders (n : ℕ) (req : Request) : Task Unit := do
  match req.error with
  | some e => fail (ofHttp e)
  | none =>
    modify ensureNode
    let waits := req.expectContinue && 0 < req.bodyLen
    sendHead req false waits
    if waits then
      if ← readHeaders n req.method true then
        -- green light: the body, then the real response
        writeStaged req.bodyView
        let _ ← readHeaders n req.method false
        pure ()
      -- a final response instead: a body was announced and is not sent
      else modify hangUp
    else
      let _ ← readHeaders n req.method false
      pure ()

/-- `exchange`. -/
def exchange (n : ℕ) (req : Request) : Task Response := do
  sendAndReadHeaders n req
  prepare false
  aggregateBody n
  takeResponse

/-- `begin_exchange`. -/
def beginExchange (n : ℕ) (req : Request) : Task Unit := do
  sendAndReadHeaders n req
  prepare true

end Connection

end Cornet.Http.Client
