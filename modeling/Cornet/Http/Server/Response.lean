import Cornet.Http.Serializer

/-!
# Http/Server/Response — a connection's staging buffers and the response being built in them

    head_out_    | head₁ | head₂ | head₃ |          pending_  [ (head₁, hdr₁, body₁), (head₂, …), … ]
    hdr_out_     | hdr₁  | hdr₂  | hdr₃  |
    body_out_    | body₁ |       | body₃ |          stream_out_ | one chunk |   →  socket

`src/http/server/message.cc` and the writing half of `connection.cc`.  The responses of a round
share four append-only buffers; a response knows its part of them by offsets.  A streamed response
goes to the socket while its handler runs, all others wait for the end of the round.

The transport takes bytes in order.  `socket i` is the result of the `i`th write from here on:
`none` if all its bytes leave, `some n` if it fails once `n` have left.  A write that failed says
nothing about the next one.  A file body is the content behind its descriptor.
-/

namespace Cornet.Http.Server

/-! ## State -/

/-- `body_source_t`. -/
inductive Source
  | none | inline | external | streaming | file
  deriving DecidableEq, Repr

/-- The framing headers the handler wrote itself. -/
structure Saw where
  contentLength : Bool := false
  connection : Bool := false
  date : Bool := false
  transferEncoding : Bool := false
  deriving DecidableEq, Repr

/-- `note_framing_header`. -/
def Saw.note (s : Saw) : Field → Saw
  | .contentLength => { s with contentLength := true }
  | .connection => { s with connection := true }
  | .date => { s with date := true }
  | .transferEncoding => { s with transferEncoding := true }
  | _ => s

/-- `response_t`. -/
structure Response where
  status : Status := .ok
  source : Source := .none
  hdrOff : ℕ := 0
  hdrEnd : ℕ := 0
  bodyOff : ℕ := 0
  bodyLen : ℕ := 0
  external : List Byte := []
  file : List Byte := []
  saw : Saw := {}
  err : Option HttpError := none

/-- `hdr_length`. -/
def Response.hdrLength (r : Response) : ℕ := if r.hdrOff < r.hdrEnd then r.hdrEnd - r.hdrOff else 0

/-- The first failure stays. -/
def Response.fail (r : Response) (e : HttpError) : Response :=
  if r.err.isSome then r else { r with err := some e }

/-- `pending_t`: a response waiting for the end of the round, as windows of the staging buffers. -/
structure Pending where
  headOff : ℕ := 0
  headLen : ℕ := 0
  hdrOff : ℕ := 0
  hdrLen : ℕ := 0
  source : Source := .none
  bodyOff : ℕ := 0
  bodyLen : ℕ := 0
  external : List Byte := []
  file : List Byte := []

/-- The options framing reads. -/
structure Options where
  serveDate : Bool
  serveServer : Bool
  deriving DecidableEq, Repr

/-- The staging buffers of a round, and the response being built in them. -/
structure Staging where
  opt : Options
  headOut : OutBuffer
  hdrOut : OutBuffer
  bodyOut : OutBuffer
  resp : Response := {}
  pending : List Pending := []
  closing : Bool := false
  closeAfterFlush : Bool := false
  /-- `http_date()` of the context's coarse clock. -/
  date : List Byte := []

/-- A transport on which every write succeeds. -/
def live : ℕ → Option ℕ := fun _ => none

/-- The part of `connection_t` that answers: what is staged, what is being streamed, and the bytes
the transport has been given. -/
structure Conn extends Staging where
  streamOut : OutBuffer
  headersStaged : Bool := false
  streamFinished : Bool := false
  socket : ℕ → Option ℕ := live
  wire : List Byte := []

namespace Staging

variable (s : Staging)

/-! ## Framing the head -/

def kHdrServer : List Byte := ascii "Server: cornet\r\n"

def kHdrConn (closeAfter : Bool) : List Byte :=
  if closeAfter then ascii "Connection: close\r\n" else ascii "Connection: keep-alive\r\n"

/-- `seal_headers`. -/
def sealHeaders : Staging :=
  let hdr := s.hdrOut.putCrlf
  { s with hdrOut := hdr, resp := { s.resp with hdrEnd := hdr.size } }

/-- `Server` and `Connection`, in one copy where both are due. -/
def putConstants (out : OutBuffer) (closeAfter : Bool) : OutBuffer :=
  if s.opt.serveServer && !s.resp.saw.connection then out.put (kHdrServer ++ kHdrConn closeAfter)
  else if s.opt.serveServer then out.put kHdrServer
  else if !s.resp.saw.connection then out.put (kHdrConn closeAfter)
  else out

/-- Whether the framework writes `Content-Length`. -/
def sendsLength : Bool :=
  !s.resp.saw.contentLength && !s.resp.saw.transferEncoding && s.resp.source != .streaming &&
    !s.resp.status.forbidsBody

/-- Whether the framework writes `Transfer-Encoding`. -/
def sendsChunked : Bool := s.resp.source == .streaming && !s.resp.saw.transferEncoding

/-- The head as `frame_head` writes it. -/
def putHead (out : OutBuffer) (closeAfter : Bool) : OutBuffer :=
  let out := Serializer.statusLine out s.resp.status
  let out := if s.opt.serveDate && !s.resp.saw.date then Serializer.dateHeader out s.date else out
  let out := s.putConstants out closeAfter
  let out := if s.sendsLength then Serializer.headerU64 out .contentLength s.resp.bodyLen else out
  if s.sendsChunked then Serializer.header out .transferEncoding (ascii "chunked") else out

/-- `connection_t::frame_head`. -/
def frameHead (closeAfter : Bool) : Staging :=
  { s.sealHeaders with headOut := s.putHead s.headOut closeAfter }

/-- The header section of a streamed response, sent with its first chunk. -/
def stagedHead : List Byte := s.headOut.view 0 s.headOut.size ++ s.hdrOut.view 0 s.resp.hdrLength

/-! ## The response interface, without streaming -/

/-- `response_t::begin`. -/
def begin : Staging :=
  { s with resp := { hdrOff := s.hdrOut.size, hdrEnd := s.hdrOut.size, bodyOff := s.bodyOut.size } }

def failResp (e : HttpError) : Staging := { s with resp := s.resp.fail e }

/-- `response_t::status`. -/
def setStatus (status : Status) : Staging := { s with resp := { s.resp with status := status } }

/-- The three forms of `response_t::header`: note the field, write the line, move the end. -/
def putHeader (f : Field) (write : OutBuffer → OutBuffer) : Staging :=
  let hdr := write s.hdrOut
  { s with hdrOut := hdr, resp := { s.resp with saw := s.resp.saw.note f, hdrEnd := hdr.size } }

/-- A body of known bytes outside the staging buffer. -/
def setExternal (data : List Byte) : Staging :=
  { s with resp := { s.resp with external := data, bodyLen := data.length, source := .external } }

/-- The copying half of `response_t::body`. -/
def putBody (data : List Byte) : Staging :=
  let out := s.bodyOut.put data
  let r := { s.resp with bodyOff := s.bodyOut.size }
  { s with
    bodyOut := out
    resp := match out.err with
      | some e => r.fail e
      | none => { r with bodyLen := data.length, source := .inline } }

/-- `response_t::body`. -/
def body (data : List Byte) : Staging :=
  if s.resp.source ≠ .none then s.failResp .invalidState
  else if s.bodyOut.remaining < data.length then s.setExternal data
  else s.putBody data

/-- `response_t::body_static`. -/
def bodyStatic (data : List Byte) : Staging :=
  if s.resp.source ≠ .none then s.failResp .invalidState else s.setExternal data

/-- `response_t::body_owned`. -/
def bodyOwned (block : Option (List Byte)) : Staging :=
  if s.resp.source ≠ .none then s.failResp .invalidState
  else
    match block with
    | none => s.failResp .invalidState
    | some data => s.setExternal data

/-- `response_t::text`. -/
def text (data : List Byte) : Staging :=
  (s.putHeader .contentType fun out =>
    Serializer.header out .contentType (ascii "text/plain; charset=utf-8")).body data

/-- The common end of `file` and `local_file`. -/
def openFile : Option (List Byte) → Staging
  | none => (s.setStatus .notFound).text (ascii "Not Found")
  | some content =>
    { s with resp := { s.resp with file := content, bodyLen := content.length, source := .file } }

/-- `response_t::local_file`. -/
def localFile (content : Option (List Byte)) : Staging :=
  if s.resp.source ≠ .none then s.failResp .invalidState else s.openFile content

/-- `file` reports its refusal to the handler only. -/
def file (content : Option (List Byte)) : Staging :=
  if s.resp.source ≠ .none then s else s.openFile content

/-- The staging half of `chunked`: the source is set and the head framed, refused or not. -/
def stageHeaders : Staging :=
  let r := if s.resp.source ≠ .none then s.resp.fail .invalidState else s.resp
  { s with resp := { r with source := .streaming } }.frameHead false

end Staging

/-! ## Streaming -/

namespace Conn

variable (c : Conn)

/-- The bytes a write takes, and whether that is all of them. -/
def taken (l : List Byte) : Option ℕ → List Byte × Bool
  | none => (l, true)
  | some n => (l.take n, decide (l.length ≤ n))

/-- `writev_all`: the bytes in order, or as many of them as leave before it fails. -/
def send (l : List Byte) : Conn × Bool :=
  ({ c with wire := c.wire ++ (taken l (c.socket 0)).1, socket := fun i => c.socket (1 + i) },
    (taken l (c.socket 0)).2)

/-- The vectors of `flush_stream`. -/
def streamBytes : List Byte :=
  (if c.headersStaged then c.stagedHead else []) ++ c.streamOut.view 0 c.streamOut.size

/-- `connection_t::flush_stream`. -/
def flushStream : Conn × Bool :=
  if c.streamOut.failed then (c, false)
  else if c.streamOut.size = 0 then (c, true)
  else
    let s := { c with headersStaged := false }.send c.streamBytes
    if s.2 then ({ s.1 with streamOut := s.1.streamOut.clear }, true) else (s.1, false)

/-- Stage bytes in `stream_out_`. -/
def stage (l : List Byte) : Conn := { c with streamOut := c.streamOut.put l }

/-- The path of a chunk too large for the staging buffer: it leaves from the caller's memory,
whole. -/
def writeLarge (line data : List Byte) : Conn :=
  let s := (c.stage line).flushStream
  if s.2 then
    let s := s.1.send data
    if s.2 then (s.1.stage crlf).flushStream.1 else s.1
  else s.1

/-- `body_writer_t::write`; the writer comes from `chunked`.  The sum in the test is a 32-bit
one. -/
def write (data : List Byte) : Conn :=
  let len := data.length % 2 ^ 32
  let line := writeChunkSize len
  if c.resp.source ≠ .streaming || c.headOut.failed || c.hdrOut.failed || len = 0 then c
  else if (len + line.length + 2) % 2 ^ 32 ≤ c.streamOut.remaining then
    (((c.stage line).stage data).stage crlf).flushStream.1
  else c.writeLarge line data

/-- The last chunk. -/
def kTerm : List Byte := ascii "0\r\n\r\n"

/-- `body_writer_t::finish`. -/
def finish : Conn :=
  if c.resp.source ≠ .streaming then c
  else
    let s := (c.stage kTerm).flushStream
    if s.2 then { s.1 with streamFinished := true } else s.1

end Conn

/-! ## Handlers -/

/-- What a handler can do to its response.  A body handed over (`bodyOwned`) may be refused, a file
may not open; both are `none`. -/
inductive Op
  | status (s : Status)
  | header (f : Field) (value : List Byte)
  | headerNamed (name value : List Byte)
  | headerU64 (f : Field) (value : ℕ)
  | body (data : List Byte)
  | bodyStatic (data : List Byte)
  | bodyOwned (block : Option (List Byte))
  | localFile (content : Option (List Byte))
  | file (content : Option (List Byte))
  | fail (e : HttpError)
  | chunked
  | write (data : List Byte)
  | finish
  deriving DecidableEq, Repr

/-- What a call does to the staging half. -/
def Staging.apply (s : Staging) : Op → Staging
  | .status status => s.setStatus status
  | .header f v => s.putHeader f fun out => Serializer.header out f v
  | .headerNamed n v => s.putHeader (fieldFromName n) fun out => Serializer.headerNamed out n v
  | .headerU64 f v => s.putHeader f fun out => Serializer.headerU64 out f v
  | .body data => s.body data
  | .bodyStatic data => s.bodyStatic data
  | .bodyOwned block => s.bodyOwned block
  | .localFile content => s.localFile content
  | .file content => s.file content
  | .fail e => s.failResp e
  | .chunked => s.stageHeaders
  | .write _ | .finish => s

namespace Conn

/-- A step of the staging half. -/
def staged (c : Conn) (f : Staging → Staging) : Conn := { c with toStaging := f c.toStaging }

/-- One call of the handler. -/
def apply (c : Conn) : Op → Conn
  | .chunked => { c.staged (·.apply .chunked) with headersStaged := true }
  | .write data => c.write data
  | .finish => c.finish
  | op => c.staged (·.apply op)

/-- The handler: its calls in order. -/
def handle (c : Conn) (ops : List Op) : Conn := ops.foldl apply c

end Conn

end Cornet.Http.Server
