import Cornet.Http.Intake
import Cornet.Machinery.Coro

/-!
# Http/Server/Receive — the receiving half of a server connection (`connection_t::run`)

    round:  (rewind) ─ resume | fill · execute ─ parse and dispatch … ─ flush ─ (consume · compact)

A round reads once, dispatches every request that is complete, writes, and reclaims the head buffer.
What the handlers and routes decide is `App`: which requests are turned down at once, how a body is
received, and which responses end the connection.  Everything written is left out but whether the
flush went through; an answer by `write_error` is an end of the connection.  So is an upgrade, which
leaves HTTP.

`Receiver` keeps two records nobody reads: what was dispatched, and whether a message was open at
each compaction.
-/

namespace Cornet.Http.Server

/-- What the receiving half reads of `server_options_t`. -/
structure ReceiveOptions where
  maxHeaderBytes : ℕ := 16 <<< 10
  maxHeaders : ℕ := 64
  maxTrailers : ℕ := 0
  maxBodyBytes : ℕ := 8 <<< 20
  aggregateThreshold : ℕ := 256 <<< 10
  streamWindowBytes : ℕ := 32 <<< 10
  maxPipelined : ℕ := 32

/-- `body_policy_t`. -/
inductive BodyPolicy
  | auto | aggregate | stream
  deriving DecidableEq, Repr

/-- A request as its handler sees it. -/
structure Dispatch where
  method : Method
  target : List Byte
  headers : List (List Byte × List Byte)
  body : List Byte
  deriving DecidableEq, Repr

/-- The routes and handlers. -/
structure App where
  /-- The policy of the route, unless the request is turned down when its header section is in. -/
  route : Facts → List Byte → Option BodyPolicy
  /-- The response ends the connection. -/
  closes : Dispatch → Bool

/-- `connection_t`, receiving. -/
structure Receiver where
  opt : ReceiveOptions := {}
  intake : Intake
  inBody : Bool := false
  streaming : Bool := false
  bodyComplete : Bool := false
  /-- `close_after_flush_`. -/
  closing : Bool := false
  pipelined : ℕ := 0
  /-- How the flushes to come go. -/
  flushes : ℕ → Bool := fun _ => true
  dispatched : List Dispatch := []
  /-- `parsing_` at every compaction so far. -/
  compactions : List Bool := []

abbrev Serving (α : Type) := Coro Receiver ReadError α

/-- `EAGAIN`. -/
def eAgain : ℕ := 11

/-- `ECONNRESET`. -/
def eConnReset : ℕ := 104

namespace Receiver

/-! ## Pieces -/

section Pieces

variable (s : Receiver)

def parser : Parser := s.intake.parser

def setParser (p : Parser) : Receiver := { s with intake := { s.intake with parser := p } }

def setBody (b : BodyBuffer) (sink : Bool) : Receiver :=
  s.setParser { s.parser with io := { s.parser.io with body := b }, sink := sink }

/-- A connection that was just accepted, from a peer whose bytes llhttp reads as `items`. -/
def accepted (opt : ReceiveOptions) (net : Net) (items : List Item) : Receiver where
  opt := opt
  intake :=
    { net := net
      parser :=
        { limits := ⟨opt.maxHeaders, opt.maxTrailers, opt.maxBodyBytes⟩, response := false,
          input := items
          io := { head := HeadBuffer.reset (acquire opt.maxHeaderBytes) } } }

/-- `write_error`. -/
def writeError : Receiver := { s with inBody := false, closing := true }

/-- `parser_.chunked() || parser_.content_length() > 0`. -/
def hasBody : Bool := s.parser.chunked || 0 < s.parser.facts.contentLength

/-- Whether `prepare_body` aggregates. -/
def aggregates : BodyPolicy → Bool
  | .aggregate => true
  | .stream => false
  | .auto => s.parser.hasContentLength && s.parser.facts.contentLength ≤ s.opt.aggregateThreshold

/-- `reserve_window`. -/
def window (bytes : ℕ) : BodyBuffer := if bytes = 0 then {} else { cap := bytes }

/-- `prepare_body`. -/
def prepareBody (policy : BodyPolicy) : Except ReadError Receiver :=
  if !s.hasBody then
    .ok { s.setBody s.parser.io.body.clear false with streaming := false, bodyComplete := true }
  else if s.parser.hasContentLength && s.opt.maxBodyBytes < s.parser.facts.contentLength then
    .error .bodyTooLarge
  else if s.aggregates policy then
    match BodyBuffer.reserveExact
        (if s.parser.hasContentLength then s.parser.facts.contentLength
          else s.opt.maxBodyBytes) with
    | some b => .ok { s.setBody b true with streaming := false, bodyComplete := false }
    | none => .error .bodyTooLarge
  else
    .ok { s.setBody (window s.opt.streamWindowBytes) false with streaming := true,
                                                                bodyComplete := false }

/-- Everything up to here has been consumed, so this is where the body starts. -/
def enterBody : Receiver :=
  { s with
    intake := { s.intake with bodyWindow := s.parser.consumedOffset }, inBody := !s.bodyComplete }

/-- The request the handler is given. -/
def request (body : List Byte) : Dispatch where
  method := s.parser.facts.method
  target := s.parser.targetText
  headers := (s.parser.io.ofKind false).map fun h =>
    (s.parser.io.resolve h.name, s.parser.io.resolve h.value)
  body := body

/-- The end of a round: an idle head buffer is reclaimed. -/
def reclaim : Receiver :=
  if !s.inBody && !s.parser.hasPendingInput then
    let head := s.intake.head
    { s with
      intake := s.intake.setHead (head.consume head.readable).compact
      compactions := s.compactions ++ [head.parsing], pipelined := 0 }
  else { s with pipelined := 0 }

/-- The top of a round: inside a body the tail of the head buffer is used again. -/
def rewind : Receiver :=
  if s.inBody && !s.parser.hasPendingInput then
    { s with intake := s.intake.setHead (s.intake.head.rewindTo s.intake.bodyWindow) }
  else s

/-- `reset_round`: the body buffer goes back to the pool unless a body is half read. -/
def resetRound : Receiver :=
  if s.inBody then s else s.setParser { s.parser with io := { s.parser.io with body := {} } }

end Pieces

/-! ## Reading a body -/

open Coro

/-- A step of the receiving half. -/
def onIntake {α : Type} (f : Intake → Intake × α) : Serving α := fun s =>
  ({ s with intake := (f s.intake).1 }, .ok (f s.intake).2)

/-- One turn of the loop of `read_body_chunk`. -/
def chunkTurn : Serving (Unit ⊕ List Byte) := do
  let complete := (← get).bodyComplete
  match ← onIntake (Intake.readTurn · complete) with
  | .again => pure (.inl ())
  | .run l => pure (.inr l)
  | .done tail =>
    modify fun s => { s with bodyComplete := true }
    pure (.inr tail)
  | .eof => fail (.sys eConnReset)
  | .failed e => fail e

/-- `read_body_chunk`. -/
def readBodyChunk (n : ℕ) : Serving (List Byte) := loop (fun _ => chunkTurn) n ()

/-- What a handler gets until the first empty view, and `body_reader_t::drain` after it. -/
def viewsTurn (n : ℕ) (views : List (List Byte)) : Serving
    (List (List Byte) ⊕ List (List Byte)) := do
  let run ← readBodyChunk n
  pure (if run = [] then .inr views else .inl (views ++ [run]))

def readViews (n : ℕ) : Serving (List (List Byte)) := loop (viewsTurn n) n []

/-! ## A round -/

/-- The top of a round; nothing to parse when the connection is over, or nothing came. -/
def roundStart : Serving (Except Bool Result) := do
  modify rewind
  if (← get).parser.hasPendingInput then pure (.ok (← onIntake Intake.resume))
  else
    match ← onIntake Intake.fill with
    | .error (.sys e) => pure (.error (e == eAgain))
    | .error _ => pure (.error false)
    | .ok 0 => pure (.error false)
    | .ok n => pure (.ok (← onIntake fun s => s.execute (s.head.w - n) n))

/-- A request has been dispatched. -/
def settle (app : App) (d : Dispatch) : Serving (Result ⊕ Unit) := do
  modify fun s => { s with dispatched := s.dispatched ++ [d] }
  let s ← get
  if !s.parser.facts.keepAlive || app.closes d then
    modify fun s => { s with closing := true }
    pure (.inr ())
  else
    modify fun s => { s.setParser s.parser.reset with pipelined := s.pipelined + 1 }
    let s ← get
    if s.opt.maxPipelined ≤ s.pipelined then pure (.inr ())
    else if s.parser.hasPendingInput then pure (.inl (← onIntake Intake.resume))
    else pure (.inl .needMore)

/-- A header section is in: route, prepare the body, and run the handler at once if it streams. -/
def onHeaders (app : App) (n : ℕ) : Serving (Result ⊕ Unit) := do
  let s ← get
  match app.route s.parser.facts s.parser.targetText with
  | none =>
    modify writeError
    pure (.inr ())
  | some policy =>
    match s.prepareBody policy with
    | .error _ =>
      modify writeError
      pure (.inr ())
    | .ok t =>
      modify fun _ => t.enterBody
      if t.streaming then
        match ← attempt (readViews n) with
        | .error _ =>
          modify writeError
          pure (.inr ())
        | .ok views =>
          modify fun s => { s with inBody := false }
          settle app (t.request views.flatten)
      else pure (.inl (← onIntake Intake.resume))

/-- A message is complete: its body has been aggregated. -/
def onMessage (app : App) : Serving (Result ⊕ Unit) := do
  modify fun s => { s with bodyComplete := true, inBody := false }
  let s ← get
  let d := s.request s.parser.io.body.view
  modify fun s => s.setParser { s.parser with io := { s.parser.io with body := {} } }
  settle app d

/-- One turn of the inner loop; the local variable is what the parser said. -/
def dispatchTurn (app : App) (n : ℕ) : Result → Serving (Result ⊕ Unit)
  | .needMore => pure (.inr ())
  | .headersReady => onHeaders app n
  | .messageReady => onMessage app
  | .error | .upgrade | .bodyPaused => do
    modify writeError
    pure (.inr ())

/-- The end of a round; `true` when the loop goes on. -/
def roundEnd : Serving Bool := do
  let s ← get
  let flushed := s.flushes 0
  modify fun s => { s.resetRound with flushes := fun i => s.flushes (i + 1) }
  if !flushed || s.closing then pure false
  else
    modify reclaim
    pure true

/-- One turn of the loop of `run`. -/
def round (app : App) (n : ℕ) : Serving (Unit ⊕ Unit) := do
  match ← roundStart with
  | .error again => pure (if again then .inl () else .inr ())
  | .ok r =>
    loop (dispatchTurn app n) n r
    pure (if ← roundEnd then .inl () else .inr ())

/-- `run`. -/
def run (app : App) (n : ℕ) : Serving Unit := loop (fun _ => round app n) n ()

end Receiver

end Cornet.Http.Server
