import Cornet.Http.Client.Connection

/-!
# Http/Client/Send — retries and redirects (`src/http/client/client.cc`)

    send:   hop 0 ─ 3xx, followed ─▸ hop 1 ─ … ─▸ response          hop:   attempt ─ died unanswered ─▸ attempt ─ …

A `send` is a loop of hops, a hop a loop of attempts, an attempt one exchange on a connection of the
pool.  The pool and the peers behind it may do anything, so `Session.pool` says what each `borrow`
gives, whatever it is; all it is held to is that a connection it hands out has nothing unread.
Every exchange is put on record, with the request it was given and the state it left the connection
in.
-/

namespace Cornet.Http.Client

/-! ## Following a redirect -/

/-- `is_redirect`. -/
def isRedirect (s : Status) : Bool := s.code ∈ ([301, 302, 303, 307, 308] : List UInt16)

/-- `redirect_becomes_get`. -/
def redirectBecomesGet (s : Status) : Bool := s.code ∈ ([301, 302, 303] : List UInt16)

/-- `method_is_idempotent`. -/
def methodIsIdempotent : Server.Method → Bool
  | .get | .head | .put | .delete | .options | .trace => true
  | _ => false

/-- The text of an absolute url has at most this many bytes. -/
def kAbsolute : ℕ := 2048

/-- Where a redirect leads, if it names a url at all. -/
def redirectTarget (base : Url) (location : List Byte) : Option Url :=
  match base.resolve location kAbsolute with
  | .error _ => none
  | .ok text => (Url.parse text).toOption

/-- What a redirect leaves of a request's method and body. -/
def Request.rewritten (req : Request) (s : Status) : Request :=
  if redirectBecomesGet s then { req with method := .get }.dropBody else req

/-- `follow`: the request for the next hop, if the redirect is to be followed. -/
def follow (req : Request) (resp : Response) : Option Request :=
  if resp.location = [] then none
  else
    match redirectTarget req.url resp.location with
    | none => none
    | some target =>
      if !target.sameOrigin req.url && req.saw.authorization then none
      else some { req.rewritten resp.answer.status with url := target }

/-! ## Attempts and hops -/

/-- Nothing that was received waits to be parsed. -/
def Connection.Quiet (c : Connection) : Prop := c.attached = true → c.parser.hasPendingInput = false

/-- `lease_t`. -/
structure Lease where
  conn : Connection
  reused : Bool
  quiet : conn.Quiet

/-- An exchange on record. -/
structure Attempt where
  hop : ℕ
  req : Request
  lease : Lease
  /-- The connection when the exchange ended. -/
  after : Connection
  /-- An error, or none as long as it has not returned. -/
  outcome : Except (Option ReadError) Unit

/-- A `send` under way. -/
structure Session where
  pool : ℕ → Except ReadError Lease
  log : List Attempt := []

/-- What a `send` reads of `client_options_t`. -/
structure HttpClient where
  maxRetries : ℕ := 1
  maxRedirects : ℕ := 0

/-- A client's coroutines. -/
abbrev ClientTask (α : Type) := Coro Session ReadError α

open Coro

/-- `borrow`. -/
def borrow : ClientTask Lease := fun s =>
  let next := { s with pool := fun i => s.pool (i + 1) }
  match s.pool 0 with
  | .ok lease => (next, .ok lease)
  | .error e => (next, .error (some e))

/-- An exchange is run to its end and put on record. -/
def issue {α : Type} (run : Request → Task α) (hop : ℕ) (req : Request) (lease : Lease) :
    ClientTask (Connection × Except ReadError α) := fun s =>
  let r := run req lease.conn
  let s := { s with log := s.log ++ [⟨hop, req, lease, r.1, r.2.map fun _ => ()⟩] }
  match r with
  | (after, .ok a) => (s, .ok (after, .ok a))
  | (after, .error (some e)) => (s, .ok (after, .error e))
  | (_, .error none) => (s, .error none)

/-- `retryable`, but for the number of attempts. -/
def retryable (idempotent : Bool) (lease : Lease) (after : Connection) (e : ReadError) : Bool :=
  lease.reused && idempotent && !after.intake.responded && e != .sys eTimedOut

/-- The attempts of one hop, of which `tries` are left. -/
def attempts {α : Type} (run : Request → Task α) (hop : ℕ) (req : Request) (idempotent : Bool) :
    ℕ → ClientTask α
  | 0 => fail .invalidState
  | tries + 1 => do
    let lease ← borrow
    match ← issue run hop req lease with
    | (_, .ok a) => pure a
    | (after, .error e) =>
      if retryable idempotent lease after e && 0 < tries then attempts run hop req idempotent tries
        else fail e

namespace HttpClient

variable (cl : HttpClient)

/-- The retries a request is given. -/
def retries (req : Request) : ℕ := req.maxRetries.getD cl.maxRetries

/-- The redirects followed for it. -/
def redirects (req : Request) : ℕ := req.maxRedirects.getD cl.maxRedirects

end HttpClient

/-- Whether a request may be sent twice. -/
def Request.isIdempotent (req : Request) : Bool :=
  req.idempotent.getD (methodIsIdempotent req.method)

namespace HttpClient

variable (cl : HttpClient)

/-- One hop. -/
def hop {α : Type} (run : Request → Task α) (k : ℕ) (req : Request) : ClientTask α :=
  attempts run k req req.isIdempotent (1 + cl.retries req)

/-- The loop of `send`: hop `k`, with so many redirects left. -/
def hops (n : ℕ) : ℕ → ℕ → Request → ClientTask Response
  | 0, k, req => cl.hop (Connection.exchange n) k req
  | left + 1, k, req => do
    let resp ← cl.hop (Connection.exchange n) k req
    if !isRedirect resp.answer.status then pure resp
    else
      match follow req resp with
      | none => pure resp
      | some req => hops n left (k + 1) req

/-- `send`. -/
def send (n : ℕ) (req : Request) : ClientTask Response :=
  match req.error with
  | some e => fail (ofHttp e)
  | none => cl.hops n (cl.redirects req) 0 req

/-- `stream`: one hop, and the body is left to the reader. -/
def stream (n : ℕ) (req : Request) : ClientTask Unit :=
  match req.error with
  | some e => fail (ofHttp e)
  | none => cl.hop (Connection.beginExchange n) 0 req

end HttpClient

end Cornet.Http.Client
