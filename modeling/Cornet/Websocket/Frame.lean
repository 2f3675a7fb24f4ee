import Cornet.Machinery.Endian

/-!
# Websocket/Frame — frame headers and masking (`src/websocket/common/frame.cc`, `protocol.h`)

    | fin rsv opcode | mask len7 | len16 or len64 | masking key | payload ⋯

`parse` reads one header at the start of a window, `writeFrameHeader` serializes one, `applyMask` is
the word-wise XOR.  A peer's frame is given by `WireFrame.bytes`: any frame the protocol allows it
to send us, masked in the role that masks.
-/

namespace Cornet.Websocket

/-- `opcode_t`. -/
inductive Opcode
  | continue | text | binary | close | ping | pong
  deriving DecidableEq, Repr

namespace Opcode

/-- The wire value. -/
def toByte : Opcode → Byte
  | .continue => 0x0
  | .text => 0x1
  | .binary => 0x2
  | .close => 0x8
  | .ping => 0x9
  | .pong => 0xA

/-- The cases of the decoder's `switch`; reserved values have none. -/
def ofByte (b : Byte) : Option Opcode :=
  if b = 0x0 then some .continue
  else if b = 0x1 then some .text
  else if b = 0x2 then some .binary
  else if b = 0x8 then some .close
  else if b = 0x9 then some .ping
  else if b = 0xA then some .pong
  else none

/-- `opcode_is_control`. -/
def isControl (op : Opcode) : Bool := 0x8 ≤ op.toByte

/-- `opcode_is_data`. -/
def isData (op : Opcode) : Bool := op == .text || op == .binary

end Opcode

/-- `role_t`. -/
inductive Role
  | client | server
  deriving DecidableEq, Repr

/-- `websocket_error_t`, as far as a session reports it. -/
inductive WebsocketError
  | reservedBits | invalidOpcode | unmaskedFrame | maskedFrame | fragmentedControl | controlTooLarge
  | nonCanonicalLength | messageTooLarge | continuationExpected | continuationUnexpected
  | invalidCloseCode | closed
  deriving DecidableEq, Repr

/-- The codes of `close_code_t` a session sends on its own. -/
inductive CloseCode
  | normal | goingAway | protocolError | messageTooBig
  deriving DecidableEq, Repr

def CloseCode.toNat : CloseCode → ℕ
  | .normal => 1000
  | .goingAway => 1001
  | .protocolError => 1002
  | .messageTooBig => 1009

/-- `close_code_valid`. -/
def closeCodeValid (code : ℕ) : Bool :=
  1000 ≤ code && code < 5000 && code != 1004 && code != 1005 && code != 1006 && code != 1015

def kMaxControlPayload : ℕ := 125

/-- `frame_t`. -/
structure Frame where
  fin : Bool := false
  opcode : Opcode := .continue
  payloadLen : ℕ := 0
  masked : Bool := false
  maskKey : UInt32 := 0
  headerLen : ℕ := 0
  deriving DecidableEq, Repr

/-- `frame_decoder_t::result_t`, with what `parse` leaves in `out` or `err_`. -/
inductive Parsed
  | needMore
  | frame (f : Frame)
  | error (e : WebsocketError)
  deriving DecidableEq, Repr

/-! ## Masking -/

/-- Byte `i` of the packed key: `char(key >> (i * 8))`. -/
def keyByte (key : UInt32) (i : ℕ) : Byte := (key >>> (UInt32.ofNat (8 * i))).toUInt8

/-- `std::memcpy` of four bytes into a word, on a little-endian host. -/
def loadWord (b₀ b₁ b₂ b₃ : Byte) : UInt32 :=
  b₀.toUInt32 ||| b₁.toUInt32 <<< 8 ||| b₂.toUInt32 <<< 16 ||| b₃.toUInt32 <<< 24

/-- The tail loop of `apply_mask`. -/
def maskTail (key : UInt32) : ℕ → List Byte → List Byte
  | _, [] => []
  | t, b :: bs => (b ^^^ keyByte key t) :: maskTail key (t + 1) bs

/-- The word loop. -/
def maskWords (key : UInt32) : List Byte → List Byte
  | b₀ :: b₁ :: b₂ :: b₃ :: bs =>
    let v := loadWord b₀ b₁ b₂ b₃ ^^^ key
    keyByte v 0 :: keyByte v 1 :: keyByte v 2 :: keyByte v 3 :: maskWords key bs
  | bs => maskTail key 0 bs

/-- `apply_mask`: byte-wise up to a key boundary, then whole words, then the tail. -/
def applyMask (key : UInt32) : ℕ → List Byte → List Byte
  | _, [] => []
  | offset, b :: bs =>
    if offset % 4 ≠ 0 then (b ^^^ keyByte key (offset % 4)) :: applyMask key (offset + 1) bs
    else maskWords key (b :: bs)

/-! ## Headers -/

/-- The extended length after a 7-bit length, and the bytes it takes. -/
def extendedLen (len : ℕ) (rest : List Byte) : Option (Except WebsocketError (ℕ × ℕ)) :=
  if len = 126 then
    if rest.length < 2 then none
    else
      let v := beNat (rest.take 2)
      if v ≤ kMaxControlPayload then some (.error .nonCanonicalLength) else some (.ok (v, 2))
  else if len = 127 then
    if rest.length < 8 then none
    else
      let v := beNat (rest.take 8)
      if 0x7FFFFFFFFFFFFFFF < v then some (.error .nonCanonicalLength)
      else if v ≤ 0xFFFF then some (.error .nonCanonicalLength)
      else some (.ok (v, 8))
  else some (.ok (len, 0))

/-- The masking key, packed, if it has arrived. -/
def takeKey : List Byte → Option UInt32
  | b₀ :: b₁ :: b₂ :: b₃ :: _ => some (loadWord b₀ b₁ b₂ b₃)
  | _ => none

/-- `frame_decoder_t::parse` from the length on: the masking key, and the frame. -/
def parseKey (fin : Bool) (op : Opcode) (masked : Bool) (rest : List Byte) :
    Option (Except WebsocketError (ℕ × ℕ)) → Parsed
  | none => .needMore
  | some (.error e) => .error e
  | some (.ok (v, ext)) =>
    if masked then
      match takeKey (rest.drop ext) with
      | none => .needMore
      | some key => .frame ⟨fin, op, v, masked, key, 2 + ext + 4⟩
    else .frame ⟨fin, op, v, masked, 0, 2 + ext⟩

/-- `frame_decoder_t::parse` from the masking policy on, with the fields of the first two bytes. -/
def parseRest (role : Role) (fin : Bool) (op : Opcode) (masked : Bool) (len : ℕ)
    (rest : List Byte) : Parsed :=
  if role = .server ∧ masked = false then .error .unmaskedFrame
  else if role = .client ∧ masked = true then .error .maskedFrame
  else if op.isControl = true ∧ fin = false then .error .fragmentedControl
  else if op.isControl = true ∧ kMaxControlPayload < len then .error .controlTooLarge
  else parseKey fin op masked rest (extendedLen len rest)

/-- `frame_decoder_t::parse` on a decoder that has not failed. -/
def parse (role : Role) : List Byte → Parsed
  | b₀ :: b₁ :: rest =>
    if b₀ &&& 0x70 ≠ 0 then .error .reservedBits
    else
      match Opcode.ofByte (b₀ &&& 0x0F) with
      | none => .error .invalidOpcode
      | some op => parseRest role (b₀ &&& 0x80 ≠ 0) op (b₁ &&& 0x80 ≠ 0) (b₁ &&& 0x7F).toNat rest
  | _ => .needMore

def keyBytes (key : UInt32) : List Byte :=
  [keyByte key 0, keyByte key 1, keyByte key 2, keyByte key 3]

/-- The length part of a header, under the mask bit. -/
def lenBytes (maskBit : Byte) (len : ℕ) : List Byte :=
  if len ≤ kMaxControlPayload then [maskBit ||| UInt8.ofNat len]
  else if len ≤ 0xFFFF then (maskBit ||| 126) :: beBytes 2 len
  else (maskBit ||| 127) :: beBytes 8 len

/-- `write_frame_header`. -/
def writeFrameHeader (fin : Bool) (op : Opcode) (len : ℕ) (maskKey : UInt32) : List Byte :=
  ((if fin then 0x80 else 0x00) ||| op.toByte) ::
    (lenBytes (if maskKey ≠ 0 then 0x80 else 0x00) len ++
      if maskKey ≠ 0 then keyBytes maskKey else [])

/-! ## What a peer sends -/

/-- A frame as the peer means it. -/
structure WireFrame where
  fin : Bool
  opcode : Opcode
  payload : List Byte
  /-- the masking key it picks, where its role masks -/
  key : UInt32 := 0
  deriving DecidableEq, Repr

/-- The payload under the key, from position `i` on: position `i` is XORed with key byte `i mod
4`. -/
def xorKey (key : UInt32) : ℕ → List Byte → List Byte
  | _, [] => []
  | i, b :: bs => (b ^^^ keyByte key (i % 4)) :: xorKey key (i + 1) bs

/-- The header a peer writes to a session of this role: clients mask, with any key. -/
def WireFrame.header (role : Role) (f : WireFrame) : List Byte :=
  ((if f.fin then 0x80 else 0x00) ||| f.opcode.toByte) ::
    match role with
    | .server => lenBytes 0x80 f.payload.length ++ keyBytes f.key
    | .client => lenBytes 0x00 f.payload.length

/-- The payload as it is on the wire. -/
def WireFrame.body (role : Role) (f : WireFrame) : List Byte :=
  match role with
  | .server => xorKey f.key 0 f.payload
  | .client => f.payload

def WireFrame.bytes (role : Role) (f : WireFrame) : List Byte := f.header role ++ f.body role

/-- What the protocol asks of a frame: a length that can be written, and control frames whole and
small. -/
structure WireFrame.Valid (f : WireFrame) : Prop where
  length_lt : f.payload.length < 2 ^ 63
  control : f.opcode.isControl = true → f.fin = true ∧ f.payload.length ≤ kMaxControlPayload

instance (f : WireFrame) : Decidable f.Valid :=
  decidable_of_iff (f.payload.length < 2 ^ 63 ∧
    (f.opcode.isControl = true → f.fin = true ∧ f.payload.length ≤ kMaxControlPayload))
    ⟨fun h => ⟨h.1, h.2⟩, fun h => ⟨h.length_lt, h.control⟩⟩

end Cornet.Websocket
