import Cornet.Http.Headers

/-!
# Http/Parser — the incremental parser, over what llhttp makes of the stream
(`src/http/common/parser.cc`)

    window of the head buffer ──pump──▸ callbacks ▸ NeedMore | HeadersReady | BodyPaused | MessageReady | …

llhttp is taken to be right, so the model is given its reading of the rest of the stream: a list of
items, some of them bytes, some of them callbacks between bytes.  A window ends where it ends: a run
cut by the end of a window is reported in two calls, and the rest of it stays in the list.  llhttp
looks at the next byte before it opens a message or ends a name or a value, and needs none to end a
header section or a message; a body it is about to read or still reading is reported even when the
window holds nothing of it.

`pump` compares the bytes it hands over with the stream.  They never differ (`Parser.Fed`); should
they, llhttp's reading would be of another stream, and the model reports a parse error.
-/

namespace Cornet.Http

/-- The errors an exchange ends in. -/
inductive ReadError
  | headerTooLarge | tooManyHeaders | bodyTooLarge | badHeader | outputOverflow | invalidState
  | badUpgrade | responseIncomplete | invalidHeader
  /-- An errno of llhttp, passed through. -/
  | llhttp (errno : ℕ)
  /-- An errno of the socket. -/
  | sys (errno : ℕ)
  /-- No error of the source: a copy went past the end of its block. -/
  | overrun
  deriving DecidableEq, Repr

/-! ## llhttp -/

/-- The runs llhttp reports. -/
inductive Span
  | url | field | value | body
  deriving DecidableEq, Repr

/-- What llhttp knows of a message when its header section ends. -/
structure Facts where
  method : Server.Method := .unknown
  status : Status := ⟨0⟩
  version : Version := .unknown
  keepAlive : Bool := true
  upgrade : Bool := false
  contentLength : ℕ := 0
  deriving DecidableEq, Repr

/-- The callbacks that are not about a run. -/
inductive Call
  | messageBegin
  | fieldComplete
  | valueComplete
  | headersComplete (facts : Facts)
  | messageComplete
  deriving DecidableEq, Repr

/-- Whether llhttp looks at the byte behind before it makes the call. -/
def Call.peeks : Call → Bool
  | messageBegin | fieldComplete | valueComplete => true
  | headersComplete _ | messageComplete => false

/-- llhttp's reading of a stream. -/
inductive Item
  /-- Bytes no callback is about. -/
  | raw (bytes : List Byte)
  | run (span : Span) (bytes : List Byte)
  | call (c : Call)
  /-- The end of a body that only the end of the connection delimits. -/
  | closed
  /-- Here llhttp rejects the stream. -/
  | bad (errno : ℕ)
  deriving DecidableEq, Repr

def Item.bytes : Item → List Byte
  | raw l => l
  | run _ l => l
  | _ => []

/-- llhttp does nothing about it before it sees a byte. -/
def Item.waits : Item → Bool
  | raw _ => true
  | run k _ => k != .body
  | call c => c.peeks
  | closed => false
  | bad _ => true

/-- `n` more bytes finish it. -/
def Item.endsIn (n : ℕ) : Item → Bool
  | closed => false
  | i => i.bytes.length ≤ n

/-- What is left of it after `n` bytes. -/
def Item.drop (n : ℕ) : Item → Item
  | raw l => raw (l.drop n)
  | run k l => run k (l.drop n)
  | i => i

/-- The bytes of a stream. -/
def bytesOf (items : List Item) : List Byte := items.flatMap Item.bytes

/-- `HPE_INTERNAL`. -/
def hpeInternal : ℕ := 1

/-- `HPE_PAUSED`. -/
def hpePaused : ℕ := 21

/-- `HPE_INVALID_EOF_STATE`. -/
def hpeInvalidEofState : ℕ := 14

/-- What a callback answers: go on, this message has no body, stop here, or give up. -/
inductive Ret
  | ok | skipBody | pause | fail
  deriving DecidableEq, Repr

/-- Why llhttp came back. -/
inductive Stop
  | ok | paused | failed
  deriving DecidableEq, Repr

/-! ## The parser -/

/-- `parser_limits_t`. -/
structure Limits where
  maxHeaders : ℕ
  maxTrailers : ℕ
  maxBodyBytes : ℕ
  deriving DecidableEq, Repr

/-- `parser_t`.  The window is given by offsets into the head buffer, and so is the run of body
bytes a streaming reader has to take. -/
structure Parser where
  limits : Limits
  /-- `type_` is `Response`. -/
  response : Bool
  responseTo : Server.Method := .unknown
  /-- The buffers it is bound to. -/
  io : Inbound := {}
  /-- `body_sink_` is set: body bytes go to `io.body`. -/
  sink : Bool := false
  /-- llhttp: what is still to come, whether it is between a header section and the end of its
  message, and whether the message that ended hands the connection to another protocol. -/
  input : List Item := []
  past : Bool := false
  upgraded : Bool := false
  feedPos : ℕ := 0
  feedEnd : ℕ := 0
  pending : HeaderRef := {}
  pendingValid : Bool := false
  skipTrailer : Bool := false
  target : Ref := {}
  runOff : ℕ := 0
  runLen : ℕ := 0
  facts : Facts := {}
  hasContentLength : Bool := false
  chunked : Bool := false
  expectsContinue : Bool := false
  bodyReceived : ℕ := 0
  consumedOffset : ℕ := 0
  headersSignal : Bool := false
  messageDone : Bool := false
  bodyPaused : Bool := false
  zeroFed : Bool := false
  error : Option ReadError := none

/-- `result_t`. -/
inductive Result
  | needMore | headersReady | messageReady | bodyPaused | upgrade | error
  deriving DecidableEq, Repr

/-- `accumulate`: a name, a value or the target grows by the run of `n` bytes at `off`.  Lengths
have 16 bits, and the first run is not checked against that. -/
def Inbound.accumulate (io : Inbound) (r : Ref) (off n : ℕ) (allowSpill mustCopy : Bool) :
    Except ReadError (Ref × Spill) :=
  let here := io.head.view off n
  if n = 0 then .ok (r, io.spill)
  else if r.len = 0 then
    if r.spilled || mustCopy then
      match io.spill.put here with
      | some spill => .ok (⟨io.spill.used, n % 2 ^ 16, true⟩, spill)
      | none => .error .headerTooLarge
    else .ok (⟨off, n % 2 ^ 16, false⟩, io.spill)
  else if !r.spilled && r.off + r.len = off then
    if 0xffff < r.len + n then .error .headerTooLarge else .ok (⟨r.off, r.len + n, false⟩, io.spill)
  else if !r.spilled && !allowSpill then .error .headerTooLarge
  else
    let moved :=
      if r.spilled then some (r, io.spill)
      else (io.spill.put (io.head.view r.off r.len)).map fun spill =>
        (⟨io.spill.used, r.len, true⟩, spill)
    match moved with
    | none => .error .headerTooLarge
    | some (r, spill) =>
      match spill.put here with
      | none => .error .headerTooLarge
      | some spill =>
        if 0xffff < r.len + n then .error .headerTooLarge
        else .ok (⟨r.off, r.len + n, true⟩, spill)

namespace Parser

variable (p : Parser)

/-- `parser_t::has_pending_input`. -/
def hasPendingInput : Bool := p.feedPos < p.feedEnd

/-- `pending_body`: what stands at the run when it is looked at. -/
def pendingBody : List Byte := p.io.head.view p.runOff p.runLen

/-- `parser_t::clear_pending_body`. -/
def clearPendingBody : Parser := { p with runOff := 0, runLen := 0 }

/-- `target()`. -/
def targetText : List Byte := p.io.resolve p.target

/-- `headers_end_message`. -/
def headersEndMessage : Bool :=
  p.response && (p.facts.status.forbidsBody || p.responseTo == .head)

/-! ### The callbacks -/

/-- `parser_callbacks_t::on_message_begin`. -/
def onMessageBegin : Parser :=
  { p with
    io := { p.io with headers := [], head := p.io.head.beginMessage }
    pending := {}, pendingValid := false, skipTrailer := false, target := {}
    bodyReceived := 0, headersSignal := false, messageDone := false }

/-- `parser_callbacks_t::on_url`. -/
def onUrl (off n : ℕ) : Parser × Ret :=
  match p.io.accumulate p.target off n true false with
  | .ok (r, spill) => ({ p with io := { p.io with spill }, target := r }, .ok)
  | .error e => ({ p with error := some e }, .fail)

/-- A trailer that nobody will keep. -/
def dropsTrailer : Bool := p.past && (p.limits.maxTrailers == 0 || p.skipTrailer)

/-- A run of a header could not be kept: a trailer is dropped, a header is an error. -/
def refuse (e : ReadError) : Parser × Ret :=
  if p.past then ({ p with skipTrailer := true, pending := {}, pendingValid := false }, .ok)
  else ({ p with error := some e }, .fail)

/-- `parser_callbacks_t::on_header_field`. -/
def onHeaderField (off n : ℕ) : Parser × Ret :=
  if p.dropsTrailer then (p, .ok)
  else
    match p.io.accumulate p.pending.name off n p.past p.past with
    | .ok (r, spill) =>
      ({ p with
        io := { p.io with spill }, pending := { p.pending with name := r, trailer := p.past }
        pendingValid := true }, .ok)
    | .error e => p.refuse e

/-- `parser_callbacks_t::on_header_field_complete`. -/
def onHeaderFieldComplete : Parser :=
  if p.pendingValid then
    { p with pending := { p.pending with field := fieldFromName (p.io.resolve p.pending.name) } }
  else p

/-- `parser_callbacks_t::on_header_value`. -/
def onHeaderValue (off n : ℕ) : Parser × Ret :=
  if p.dropsTrailer then (p, .ok)
  else
    match p.io.accumulate p.pending.value off n true p.past with
    | .ok (r, spill) =>
      ({ p with io := { p.io with spill }, pending := { p.pending with value := r } }, .ok)
    | .error e => p.refuse e

/-- `finish_header`.  Trailers are best effort. -/
def finishHeader : Parser × Ret :=
  if !p.pendingValid then (p, .ok)
  else
    let entry := p.pending
    let p := { p with pending := {}, pendingValid := false }
    if entry.trailer then
      if p.limits.maxTrailers ≤ (p.io.ofKind true).length || entry.field.forbiddenInTrailer then
        (p, .ok)
      else ({ p with io := (p.io.add entry p.limits.maxTrailers).getD p.io }, .ok)
    else
      match p.io.add entry p.limits.maxHeaders with
      | some io => ({ p with io }, .ok)
      | none => ({ p with error := some .tooManyHeaders }, .fail)

/-- `parser_callbacks_t::on_header_value_complete`. -/
def onHeaderValueComplete : Parser × Ret := { p with skipTrailer := false }.finishHeader

/-- The checks only a request is put to: HTTP/1.1 names its host, and no request names two. -/
def hostRefused : Bool :=
  !p.response &&
    ((p.facts.version == .http11 && !p.io.has .host) ||
      1 < ((p.io.ofKind false).filter (·.field == .host)).length)

/-- What is taken over from llhttp and the table. -/
def noteHead (f : Facts) : Parser :=
  { p with
    past := true, facts := f, hasContentLength := p.io.has .contentLength
    chunked := p.io.containsToken .transferEncoding (ascii "chunked")
    expectsContinue := p.io.containsToken .expect (ascii "100-continue") }

/-- `parser_callbacks_t::on_headers_complete`. -/
def onHeadersComplete (f : Facts) : Parser × Ret :=
  let p := p.noteHead f
  if p.hostRefused then ({ p with error := some .badHeader }, .fail)
  else if p.hasContentLength && p.limits.maxBodyBytes < p.facts.contentLength then
    ({ p with error := some .bodyTooLarge }, .fail)
  else ({ p with headersSignal := true }, if p.headersEndMessage then .skipBody else .pause)

/-- `parser_callbacks_t::on_body`. -/
def onBody (off n : ℕ) : Parser × Ret :=
  let p := { p with bodyReceived := p.bodyReceived + n }
  if p.limits.maxBodyBytes < p.bodyReceived then ({ p with error := some .bodyTooLarge }, .fail)
  else if p.sink then
    match p.io.body.append (p.io.head.view off n) with
    | .ok body => ({ p with io := { p.io with body } }, .ok)
    | .outputOverflow => ({ p with error := some .outputOverflow }, .fail)
    | .overrun => ({ p with error := some .overrun }, .fail)
  else ({ p with runOff := off, runLen := n, bodyPaused := true }, .pause)

/-- `parser_callbacks_t::on_message_complete`. -/
def onMessageComplete : Parser :=
  { p with past := false, messageDone := true, upgraded := p.facts.upgrade }

/-- The callback of a run.  There is no body before the header section is over. -/
def onRun : Span → ℕ → ℕ → Parser × Ret
  | .url, off, n => p.onUrl off n
  | .field, off, n => p.onHeaderField off n
  | .value, off, n => p.onHeaderValue off n
  | .body, off, n => if p.past then p.onBody off n else (p, .fail)

/-- The callback of a call.  A message begins, has one header section, and ends. -/
def onCall : Call → Parser × Ret
  | .messageBegin => if p.past then (p, .fail) else (p.onMessageBegin, .ok)
  | .fieldComplete => (p.onHeaderFieldComplete, .ok)
  | .valueComplete => p.onHeaderValueComplete
  | .headersComplete f =>
    if p.past then (p, .fail)
    else
      match p.onHeadersComplete f with
      -- no body follows: the message is complete at once
      | (p, .skipBody) => (p.onMessageComplete, .pause)
      | r => r
  | .messageComplete => if p.past then (p.onMessageComplete, .pause) else (p, .fail)

/-- The callback about the first `n` bytes of an item, which stand at `pos`. -/
def onItem (pos n : ℕ) : Item → Parser × Ret
  | .raw _ => (p, .ok)
  | .run k _ => p.onRun k pos n
  | .call c => p.onCall c
  | .closed => if n = 0 then p.onRun .body pos 0 else (p, .fail)
  | .bad e => ({ p with error := p.error.or (some (.llhttp e)) }, .fail)

/-! ### `llhttp_execute` -/

/-- Where llhttp stopped. -/
def stopAt (pos : ℕ) (rest : List Item) : Parser := { p with feedPos := pos, input := rest }

/-- llhttp goes over the `n` bytes at `pos`. -/
def lex (p : Parser) (pos n : ℕ) : List Item → Parser × Stop
  | [] => (p.stopAt pos [], if n = 0 then .ok else .failed)
  | i :: rest =>
    if n = 0 && i.waits then (p.stopAt pos (i :: rest), .ok)
    else if i.endsIn n then
      match p.onItem pos i.bytes.length i with
      | (p, .ok) => p.lex (pos + i.bytes.length) (n - i.bytes.length) rest
      | (p, .pause) => (p.stopAt (pos + i.bytes.length) rest, .paused)
      | (p, _) => (p, .failed)
    else
      match p.onItem pos n i with
      | (p, .ok) => (p.stopAt (pos + n) (i.drop n :: rest), .ok)
      | (p, .pause) => (p.stopAt (pos + n) (i.drop n :: rest), .paused)
      | (p, _) => (p, .failed)

/-! ### Driving -/

/-- The length of the window. -/
def feedLen : ℕ := p.feedEnd - p.feedPos

/-- The window holds the next bytes of the stream. -/
def Fed : Prop := p.io.head.view p.feedPos p.feedLen <+: bytesOf p.input

instance : Decidable p.Fed := inferInstanceAs (Decidable (_ <+: _))

/-- `consumed_offset_` follows the window. -/
def stopped : Parser := { p with consumedOffset := p.feedPos }

def endMessage : Parser := { p with io := { p.io with head := p.io.head.endMessage } }

/-- What a complete message is reported as. -/
def completed : Result := if p.facts.upgrade then .upgrade else .messageReady

/-- The outcome of `llhttp_execute`, classified. -/
def classify : Parser × Stop → Parser × Result
  | (p, .ok) => ({ p with feedPos := p.feedEnd }.stopped, .needMore)
  | (p, .paused) =>
    if p.messageDone then (p.stopped.endMessage, p.completed)
    else if p.headersSignal then (p.stopped, .headersReady)
    else if p.bodyPaused then (p.stopped, .bodyPaused)
    else ({ p.stopped with error := some (.llhttp hpePaused) }, .error)
  | (p, .failed) => ({ p with error := p.error.or (some (.llhttp hpeInternal)) }, .error)

/-- The signals of the last pump are cleared before llhttp is called. -/
def primed : Parser :=
  { p with zeroFed := p.feedLen == 0, headersSignal := false, bodyPaused := false,
           messageDone := false }

/-- `pump`.  An empty window is handed over once, and then not again before something else was. -/
def pump : Parser × Result :=
  if p.feedLen = 0 && p.zeroFed then (p.stopped, .needMore)
  -- `HPE_PAUSED_UPGRADE`
  else if p.upgraded then ({ p.primed.stopped with upgraded := false }, .upgrade)
  else if p.Fed then classify (p.primed.lex p.feedPos p.feedLen p.input)
  else ({ p.primed with error := some (.llhttp hpeInternal) }, .error)

/-- `parser_t::execute`. -/
def execute (off len : ℕ) : Parser × Result :=
  { p with feedPos := off, feedEnd := off + len, zeroFed := false }.pump

/-- `parser_t::resume`. -/
def resume : Parser × Result := p.pump

/-- The message that was open has ended with the connection. -/
def closedAt (rest : List Item) : Parser :=
  { p with input := rest, past := false, messageDone := true }.endMessage

/-- `finish`, called inside a body: the connection has ended. -/
def finish : Parser × Result :=
  match p.input with
  | .closed :: rest => (p.closedAt rest, .messageReady)
  | _ => ({ p with error := p.error.or (some (.llhttp hpeInvalidEofState)) }, .error)

/-- `reset`: the window stays, and so does what llhttp will make of the rest. -/
def reset : Parser :=
  { p with
    io := { p.io with head := p.io.head.endMessage, spill := p.io.spill.clear }
    past := false, upgraded := false, pending := {}, pendingValid := false, skipTrailer := false
    target := {}, runOff := 0, runLen := 0, facts := {}, hasContentLength := false, chunked :=
      false,
    expectsContinue := false, bodyReceived := 0, headersSignal := false, messageDone := false
    bodyPaused := false, zeroFed := false, error := none }

/-- `bind`: a window into the old buffers is dropped. -/
def bind (io : Inbound) : Parser :=
  { p with io := io, feedPos := 0, feedEnd := 0, consumedOffset := 0 }

end Parser

end Cornet.Http
