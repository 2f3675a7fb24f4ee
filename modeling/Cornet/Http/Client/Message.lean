import Cornet.Http.Serializer
import Cornet.Http.Buffer
import Cornet.Http.Url

/-!
# Http/Client/Message — the request being built (`src/http/client/message.cc`)

    make ─ header ─ header ─ body ─▸ request          staged headers │ staged body │ what the caller framed

A request is what a chain of calls makes of it, so a request is given by the list of those calls
(`Request.build`).  The caller may write framing headers itself; the connection then adds none of
its own, and nobody compares what the caller announced with what it staged (`declaredLength`).
-/

namespace Cornet.Http.Client

/-- `body_source_t`, as far as a request uses it. -/
inductive BodySource
  | none | inline | external
  deriving DecidableEq, Repr

/-- The framing headers the caller wrote itself. -/
structure Saw where
  host : Bool := false
  contentLength : Bool := false
  connection : Bool := false
  transferEncoding : Bool := false
  userAgent : Bool := false
  accept : Bool := false
  expect : Bool := false
  authorization : Bool := false
  deriving DecidableEq, Repr

/-- `note_framing_header`. -/
def Saw.note (s : Saw) : Field → Saw
  | .host => { s with host := true }
  | .contentLength => { s with contentLength := true }
  | .connection => { s with connection := true }
  | .transferEncoding => { s with transferEncoding := true }
  | .userAgent => { s with userAgent := true }
  | .accept => { s with accept := true }
  | .expect => { s with expect := true }
  | .authorization => { s with authorization := true }
  | _ => s

/-- `client_request_t`.  The url is the parsed one; an override that is `none` leaves the client's
option in force. -/
structure Request where
  method : Server.Method := .get
  url : Url := {}
  hdr : OutBuffer
  /-- `body_out_`, once it has a block. -/
  bodyOut : Option OutBuffer := none
  source : BodySource := .none
  bodyLen : ℕ := 0
  external : List Byte := []
  expectContinue : Bool := false
  maxRetries : Option ℕ := none
  maxRedirects : Option ℕ := none
  idempotent : Option Bool := none
  saw : Saw := {}
  err : Option HttpError := none

namespace Request

variable (req : Request)

/-- `make`, for a url that parses. -/
def make (m : Server.Method) (url : Url) (hdrBytes : ℕ) : Request :=
  { method := m, url := url, hdr := { cap := acquire hdrBytes } }

/-- The first failure stays. -/
def fail (e : HttpError) : Request := if req.err.isSome then req else { req with err := some e }

/-- `client_request_t::header`. -/
def header (f : Field) (value : List Byte) : Request :=
  { req with hdr := Serializer.header req.hdr f value, saw := req.saw.note f }

/-- `header` by name: a framing header counts as one. -/
def headerNamed (name value : List Byte) : Request :=
  { req with hdr := Serializer.headerNamed req.hdr name value, saw := req.saw.note
               (fieldFromName name) }

/-- `client_request_t::header`. -/
def headerU64 (f : Field) (value : ℕ) : Request :=
  { req with hdr := Serializer.headerU64 req.hdr f value, saw := req.saw.note f }

/-- `ensure_body_buffer`. -/
def ensureBodyBuffer (bytes : ℕ) : OutBuffer :=
  match req.bodyOut with
  | some b => if bytes ≤ b.cap then b else { cap := acquire bytes }
  | none => { cap := acquire bytes }

/-- `body`; the size is passed on in 32 bits, the length is kept in 64. -/
def body (data : List Byte) : Request :=
  if req.source ≠ .none then req.fail .invalidState
  else if data = [] then req
  else
    let out := (req.ensureBodyBuffer (data.length % 2 ^ 32)).put data
    match out.err with
    | some e => { req with bodyOut := some out }.fail e
    | none => { req with bodyOut := some out, source := .inline, bodyLen := data.length }

/-- `body_static` and `body_owned`: the bytes stay where they are. -/
def bodyStatic (data : List Byte) : Request :=
  if req.source ≠ .none then req.fail .invalidState
  else if data = [] then req
  else { req with source := .external, external := data, bodyLen := data.length }

/-- `client_request_t::body_view`, `client_request_t::inline_body`. -/
def bodyView : List Byte :=
  match req.source with
  | .inline => (req.bodyOut.map fun b => b.view 0 b.size).getD []
  | .external => req.external
  | .none => []

/-- `drop_body`. -/
def dropBody : Request :=
  { req with source := .none, bodyLen := 0, external := [],
             bodyOut := req.bodyOut.map OutBuffer.clear }

def stagedHeaders : List Byte := req.hdr.view 0 req.hdr.size

/-- `client_request_t::error`. -/
def error : Option HttpError := (req.err.or req.hdr.err).or (req.bodyOut.bind OutBuffer.err)

/-- Everything but the body is as it was. -/
structure SameHead (req req' : Request) : Prop where
  method_eq : req'.method = req.method
  url_eq : req'.url = req.url
  hdr_eq : req'.hdr = req.hdr
  saw_eq : req'.saw = req.saw

theorem SameHead.trans {req req' req'' : Request} (h : req.SameHead req')
    (h' : req'.SameHead req'') :
    req.SameHead req'' :=
  ⟨h'.1.trans h.1, h'.2.trans h.2, h'.3.trans h.3, h'.4.trans h.4⟩

theorem sameHead_fail (e : HttpError) : req.SameHead (req.fail e) := by
  rw [fail]
  split <;> exact ⟨rfl, rfl, rfl, rfl⟩

theorem sameHead_body (data : List Byte) : req.SameHead (req.body data) := by
  rw [body]
  split_ifs
  · exact req.sameHead_fail _
  · exact ⟨rfl, rfl, rfl, rfl⟩
  · dsimp only
    split
    · refine SameHead.trans ?_ (sameHead_fail _ _)
      exact ⟨rfl, rfl, rfl, rfl⟩
    · exact ⟨rfl, rfl, rfl, rfl⟩

theorem sameHead_bodyStatic (data : List Byte) : req.SameHead (req.bodyStatic data) := by
  rw [bodyStatic]
  split_ifs
  · exact req.sameHead_fail _
  · exact ⟨rfl, rfl, rfl, rfl⟩
  · exact ⟨rfl, rfl, rfl, rfl⟩

end Request

/-! ## A request by the calls that made it -/

/-- A call of the builder. -/
inductive RequestOp
  | header (f : Field) (value : List Byte)
  | headerNamed (name value : List Byte)
  | headerU64 (f : Field) (value : ℕ)
  | body (data : List Byte)
  | bodyStatic (data : List Byte)
  | expectContinue (on : Bool)
  | retry (times : ℕ)
  | idempotent (on : Bool)
  | followRedirects (max : ℕ)

def Request.call (req : Request) : RequestOp → Request
  | .header f v => req.header f v
  | .headerNamed n v => req.headerNamed n v
  | .headerU64 f v => req.headerU64 f v
  | .body l => req.body l
  | .bodyStatic l => req.bodyStatic l
  | .expectContinue on => { req with expectContinue := on }
  | .retry times => { req with maxRetries := some times }
  | .idempotent on => { req with idempotent := some on }
  | .followRedirects max => { req with maxRedirects := some max }

def Request.build (req : Request) (ops : List RequestOp) : Request := ops.foldl Request.call req

/-- The header field a call writes. -/
def RequestOp.field : RequestOp → Option Field
  | header f _ => some f
  | headerNamed n _ => some (fieldFromName n)
  | headerU64 f _ => some f
  | _ => none

/-- The name of it. -/
def RequestOp.name : RequestOp → Option (List Byte)
  | header f _ => f.name.map ascii
  | headerNamed n _ => some n
  | headerU64 f _ => f.name.map ascii
  | _ => none

end Cornet.Http.Client
