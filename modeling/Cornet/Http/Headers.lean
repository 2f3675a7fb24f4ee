import Cornet.Http.Buffer
import Cornet.Http.Protocol

/-!
# Http/Headers — the header table of one message, and the buffers its entries point into
(`src/http/common/headers.cc`)

    entry = name ⟨off, len⟩ , value ⟨off, len⟩          ──resolve──▸  bytes of the head or the spill buffer

Entries are offsets, so a table means something only together with its buffers: `Inbound` bundles
the two, with the body buffer beside them.  It is `inbound_t` on the client, and the connection's
own members on the server.  The presence bitmap is what `has` computes from the entries.
-/

namespace Cornet.Http

/-! ## The spill buffer -/

/-- `spill_buffer_t`. -/
structure Spill where
  mem : Mem := Mem.zero
  used : ℕ := 0

namespace Spill

def kCapacity : ℕ := 512

variable (s : Spill)

/-- `spill_buffer_t::view`. -/
def view (off len : ℕ) : List Byte := s.mem.read off len

/-- `put` and `extend` copy alike; `put` also tells where the copy starts, which is `used`. -/
def put (l : List Byte) : Option Spill :=
  if kCapacity < s.used + l.length then none
  else some { mem := s.mem.write s.used l, used := s.used + l.length }

/-- `spill_buffer_t::clear`. -/
def clear : Spill := { s with used := 0 }

end Spill

/-! ## Entries -/

/-- One half of a `header_ref`: a window of the head buffer, or of the spill buffer. -/
structure Ref where
  off : ℕ := 0
  len : ℕ := 0
  spilled : Bool := false
  deriving DecidableEq, Repr

/-- `header_ref`. -/
structure HeaderRef where
  name : Ref := {}
  value : Ref := {}
  field : Field := .other
  trailer : Bool := false
  deriving DecidableEq, Repr

/-- The buffers a message is received into. -/
structure Inbound where
  head : HeadBuffer := {}
  spill : Spill := {}
  headers : List HeaderRef := []
  body : BodyBuffer := {}

namespace Inbound

variable (io : Inbound)

/-- `headers_t::resolve`. -/
def resolve (r : Ref) : List Byte :=
  if r.len = 0 then [] else if r.spilled then io.spill.view r.off r.len
    else io.head.view r.off r.len

/-- The entries of one kind. -/
def ofKind (trailer : Bool) : List HeaderRef := io.headers.filter (·.trailer == trailer)

/-- `headers_t::add`: headers and trailers have their own budgets. -/
def add (h : HeaderRef) (maxEntries : ℕ) : Option Inbound :=
  if maxEntries ≤ (io.ofKind h.trailer).length then none
  else some { io with headers := io.headers ++ [h] }

/-- `headers_t::has`. -/
def has (f : Field) : Bool := f != .other && (io.ofKind false).any (·.field == f)

/-- `headers_t::get`. -/
def get (f : Field) : List Byte :=
  if io.has f then
    (((io.ofKind false).find? (·.field == f)).map fun h => io.resolve h.value).getD []
  else []

/-- What is read off the table: names and values in arrival order, with the kind of each entry. -/
def table : List (List Byte × List Byte × Bool) :=
  io.headers.map fun h => (io.resolve h.name, io.resolve h.value, h.trailer)

end Inbound

/-! ## Token lists -/

def isOws (b : Byte) : Bool := b == 32 || b == 9

/-- The optional white space around a piece is dropped. -/
def trimOws (l : List Byte) : List Byte := ((l.dropWhile isOws).reverse.dropWhile isOws).reverse

/-- The loop of `contains_token`, over the pieces between commas. -/
def hasToken (value token : List Byte) : Bool :=
  (value.splitOnP (· == 44)).any fun piece => iequals (trimOws piece) token

/-- `headers_t::contains_token`. -/
def Inbound.containsToken (io : Inbound) (f : Field) (token : List Byte) : Bool :=
  let value := io.get f
  value != [] && hasToken value token

end Cornet.Http
