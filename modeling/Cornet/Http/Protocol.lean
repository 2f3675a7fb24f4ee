import Cornet.Machinery.Memory

/-!
# Http/Protocol — statuses, header fields and their text (`src/http/common/protocol.cc`)

    "HTTP/1.1 " code " " phrase "\r\n"          "Content-Length" ↦ Field.contentLength

Both tables of the source are kept entry by entry.  A status is its 16-bit wire value, so codes
outside the table are statuses too.
-/

namespace Cornet.Http

open List

/-- The bytes of a literal. -/
def ascii (s : String) : List Byte := s.toList.map fun c => UInt8.ofNat c.toNat

def crlf : List Byte := [13, 10]

/-! ## Numbers -/

/-- One decimal digit. -/
def digit (n : ℕ) : Byte := UInt8.ofNat (48 + n)

/-- `kDigitPairs`, the entry of `n`. -/
def digitPair (n : ℕ) : List Byte := [digit (n / 10), digit (n % 10)]

/-- The loop of `write_u64`, two digits a step; ten steps cover 64 bits. -/
def writePairs : ℕ → ℕ → List Byte
  | 0, _ => []
  | fuel + 1, v =>
    if 100 ≤ v then writePairs fuel (v / 100) ++ digitPair (v % 100)
    else if 10 ≤ v then digitPair v else [digit v]

/-- `write_u64`. -/
def writeU64 (v : ℕ) : List Byte := if v = 0 then [digit 0] else writePairs 10 v

/-- `kHexDigits`. -/
def hexDigit (n : ℕ) : Byte := if n < 10 then digit n else UInt8.ofNat (87 + n)

/-- The loop of `write_chunk_size`; sixteen steps cover 64 bits. -/
def writeHex : ℕ → ℕ → List Byte
  | 0, _ => []
  | fuel + 1, v => if v = 0 then [] else writeHex fuel (v / 16) ++ [hexDigit (v % 16)]

/-- `write_chunk_size`: the size in hexadecimal and the line end. -/
def writeChunkSize (v : ℕ) : List Byte :=
  (if v = 0 then [digit 0] else writeHex 16 v) ++ crlf

theorem length_writePairs_le : ∀ fuel v, (writePairs fuel v).length ≤ 2 * fuel
  | 0, _ => le_rfl
  | fuel + 1, v => by
      have ih := length_writePairs_le fuel (v / 100)
      rw [writePairs]
      split
      · rw [length_append]
        change _ + 2 ≤ _
        omega
      · split
        · change 2 ≤ _
          omega
        · change 1 ≤ _
          omega

/-- Twenty bytes hold any number `write_u64` writes. -/
theorem length_writeU64_le (v : ℕ) : (writeU64 v).length ≤ 20 := by
  rw [writeU64]
  split
  · change 1 ≤ 20
    omega
  · exact length_writePairs_le 10 v

theorem length_writeU64_pos (v : ℕ) : 1 ≤ (writeU64 v).length := by
  rw [writeU64]
  split
  · exact le_rfl
  · rw [writePairs]
    split
    · rw [length_append]
      exact Nat.le_add_left 1 _ |>.trans (Nat.add_le_add_left (by decide : 1 ≤ 2) _)
    · split
      · change 1 ≤ 2
        omega
      · exact le_rfl

/-- The number a string of digits stands for. -/
def decimal (l : List Byte) : ℕ := l.foldl (fun n b => 10 * n + (b.toNat - 48)) 0

def isDigit (b : Byte) : Bool := 48 ≤ b.toNat && b.toNat ≤ 57

theorem toNat_digit {n : ℕ} (h : n < 10) : (digit n).toNat = 48 + n := by
  rw [digit, UInt8.toNat_ofNat']
  omega

theorem decimal_append_digitPair (l : List Byte) {n : ℕ} (h : n < 100) :
    decimal (l ++ digitPair n) = 100 * decimal l + n := by
  have h₁ := toNat_digit (n := n / 10) (by omega)
  have h₂ := toNat_digit (n := n % 10) (by omega)
  rw [decimal, foldl_append, digitPair]
  simp only [foldl_cons, foldl_nil, h₁, h₂]
  change _ = 100 * l.foldl _ 0 + n
  omega

theorem decimal_writePairs : ∀ fuel v, v < 100 ^ fuel → decimal (writePairs fuel v) = v
  | 0, v, h => by
      change 0 = v
      omega
  | fuel + 1, v, h => by
      rw [writePairs]
      split
      · rw [decimal_append_digitPair _ (Nat.mod_lt v (by decide)),
          decimal_writePairs fuel (v / 100) (by rw [Nat.div_lt_iff_lt_mul (by decide)]; omega)]
        omega
      · split
        · exact (decimal_append_digitPair [] (by omega)).trans (by simp [decimal])
        · have h₁ := toNat_digit (n := v) (by omega)
          simp only [decimal, foldl_cons, foldl_nil, h₁]
          omega

/-- **A number is read back** from its digits. -/
theorem decimal_writeU64 {v : ℕ} (h : v < 100 ^ 10) : decimal (writeU64 v) = v := by
  rw [writeU64]
  split
  · rename_i h0
    rw [h0]
    rfl
  · exact decimal_writePairs 10 v h

theorem isDigit_digit {n : ℕ} (h : n < 10) : isDigit (digit n) = true := by
  rw [isDigit, toNat_digit h, Bool.and_eq_true, decide_eq_true_eq, decide_eq_true_eq]
  omega

theorem isDigit_digitPair {n : ℕ} (h : n < 100) : ∀ b ∈ digitPair n, isDigit b = true := by
  intro b hb
  rcases mem_cons.mp hb with rfl | hb
  · exact isDigit_digit (by omega)
  · rw [mem_singleton.mp hb]
    exact isDigit_digit (by omega)

theorem isDigit_writePairs : ∀ fuel v, ∀ b ∈ writePairs fuel v, isDigit b = true
  | 0, _ => nofun
  | fuel + 1, v => by
      intro b hb
      rw [writePairs] at hb
      split at hb
      · rcases mem_append.mp hb with hb | hb
        · exact isDigit_writePairs fuel _ b hb
        · exact isDigit_digitPair (Nat.mod_lt v (by decide)) b hb
      · split at hb
        · exact isDigit_digitPair (by omega) b hb
        · rw [mem_singleton.mp hb]
          exact isDigit_digit (by omega)

theorem isDigit_writeU64 (v : ℕ) : ∀ b ∈ writeU64 v, isDigit b = true := by
  rw [writeU64]
  split
  · intro b hb
    rw [mem_singleton.mp hb]
    exact isDigit_digit (by decide)
  · exact isDigit_writePairs 10 v

theorem length_writeHex_le : ∀ fuel v, (writeHex fuel v).length ≤ fuel
  | 0, _ => le_rfl
  | fuel + 1, v => by
      have ih := length_writeHex_le fuel (v / 16)
      rw [writeHex]
      split
      · exact Nat.zero_le _
      · rw [length_append]
        exact Nat.succ_le_succ ih

/-- Eighteen bytes hold any size line. -/
theorem length_writeChunkSize_le (v : ℕ) : (writeChunkSize v).length ≤ 18 := by
  have h := length_writeHex_le 16 v
  rw [writeChunkSize, length_append]
  change _ + 2 ≤ 18
  split
  · change 1 + 2 ≤ 18
    omega
  · omega

/-- The value of a hexadecimal digit. -/
def hexValue (b : Byte) : ℕ := if b.toNat < 58 then b.toNat - 48 else b.toNat - 87

/-- The number a string of hexadecimal digits stands for. -/
def hexadecimal (l : List Byte) : ℕ := l.foldl (fun n b => 16 * n + hexValue b) 0

def isHex (b : Byte) : Bool := isDigit b || (97 ≤ b.toNat && b.toNat ≤ 102)

theorem hexDigit_spec {n : ℕ} (h : n < 16) : hexValue (hexDigit n) = n ∧
    isHex (hexDigit n) = true := by
  interval_cases n <;> decide

theorem hexadecimal_writeHex : ∀ fuel v, v < 16 ^ fuel → hexadecimal (writeHex fuel v) = v
  | 0, v, h => by
      change 0 = v
      omega
  | fuel + 1, v, h => by
      rw [writeHex]
      split
      · exact (‹v = 0›).symm
      · have ih := hexadecimal_writeHex fuel (v / 16)
          (by rw [Nat.div_lt_iff_lt_mul (by decide)]; omega)
        have hlast := (hexDigit_spec (n := v % 16) (Nat.mod_lt v (by decide))).1
        rw [hexadecimal] at ih ⊢
        rw [foldl_append, ih, foldl_cons, foldl_nil, hlast]
        omega

theorem isHex_writeHex : ∀ fuel v, ∀ b ∈ writeHex fuel v, isHex b = true
  | 0, _ => nofun
  | fuel + 1, v => by
      intro b hb
      rw [writeHex] at hb
      split at hb
      · cases hb
      · rcases mem_append.mp hb with hb | hb
        · exact isHex_writeHex fuel _ b hb
        · rw [mem_singleton.mp hb]
          exact (hexDigit_spec (Nat.mod_lt v (by decide))).2

/-- **A size is read back** from the start of its line. -/
theorem hexadecimal_writeChunkSize {v : ℕ} (h : v < 16 ^ 16) (l : List Byte) :
    hexadecimal ((writeChunkSize v ++ l).takeWhile isHex) = v := by
  have hline (digits : List Byte) (hd : ∀ b ∈ digits, isHex b = true) :
      (digits ++ crlf ++ l).takeWhile isHex = digits := by
    rw [append_assoc, takeWhile_append_of_pos hd]
    exact append_nil digits
  rw [writeChunkSize]
  split
  · rw [hline _ (by decide +kernel), ‹v = 0›]
    rfl
  · rw [hline _ (isHex_writeHex 16 v)]
    exact hexadecimal_writeHex 16 v h

/-- The digits of a number as it is usually written: no zero leads, but in `0` itself. -/
structure Canonical (isDigit : Byte → Bool) (l : List Byte) : Prop where
  digits : ∀ b ∈ l, isDigit b = true
  ne_nil : l ≠ []
  leading : l.head? = some (digit 0) → l = [digit 0]

/-- The text of a number other than 0 starts with a digit other than 0. -/
theorem exists_leading_writePairs : ∀ fuel v, v ≠ 0 → v < 100 ^ fuel →
    ∃ n l, n ≠ 0 ∧ n < 10 ∧ writePairs fuel v = digit n :: l
  | 0, v, h0, h => by omega
  | fuel + 1, v, h0, h => by
      rw [writePairs]
      split
      · obtain ⟨n, l, hn, hlt, hl⟩ := exists_leading_writePairs fuel (v / 100) (by omega) (by omega)
        exact ⟨n, l ++ digitPair (v % 100), hn, hlt, by rw [hl, cons_append]⟩
      · split
        · exact ⟨v / 10, [digit (v % 10)], by omega, by omega, rfl⟩
        · exact ⟨v, [], h0, by omega, rfl⟩

theorem exists_leading_writeHex : ∀ fuel v, v ≠ 0 → v < 16 ^ fuel →
    ∃ n l, n ≠ 0 ∧ n < 16 ∧ writeHex fuel v = hexDigit n :: l
  | 0, v, h0, h => by omega
  | fuel + 1, v, h0, h => by
      rw [writeHex, if_neg h0]
      by_cases hv : v / 16 = 0
      · refine ⟨v % 16, [], by omega, by omega, ?_⟩
        rw [hv]
        cases fuel <;> rfl
      · obtain ⟨n, l, hn, hlt, hl⟩ := exists_leading_writeHex fuel (v / 16) hv (by omega)
        exact ⟨n, l ++ [hexDigit (v % 16)], hn, hlt, by rw [hl, cons_append]⟩

/-- Digits of which the leading one is not `0`. -/
theorem Canonical.of_cons {isDigit : Byte → Bool} {l t : List Byte} {b : Byte}
    (hdigits : ∀ b ∈ l, isDigit b = true)
    (hl : l = b :: t) (hb : b ≠ digit 0) : Canonical isDigit l where
  digits := hdigits
  ne_nil := hl ▸ cons_ne_nil b t
  leading hhead := absurd (Option.some.inj ((congrArg List.head? hl).symm.trans hhead)) hb

theorem canonical_writeU64 {v : ℕ} (h : v < 100 ^ 10) : Canonical isDigit (writeU64 v) := by
  by_cases hv : v = 0
  · rw [hv]
    exact ⟨isDigit_writeU64 0, cons_ne_nil _ _, fun _ => rfl⟩
  · obtain ⟨n, l, hn, hlt, hl⟩ := exists_leading_writePairs 10 v hv h
    refine .of_cons (isDigit_writeU64 v) ((if_neg hv).trans hl) fun heq => hn ?_
    have := congrArg UInt8.toNat heq
    rw [toNat_digit hlt, toNat_digit (by decide)] at this
    omega

theorem exists_writeChunkSize {v : ℕ} (h : v < 16 ^ 16) :
    ∃ digits, writeChunkSize v = digits ++ crlf ∧ Canonical isHex digits ∧
      hexadecimal digits = v := by
  by_cases hv : v = 0
  · exact ⟨[digit 0], by
      rw [hv]; rfl, ⟨by decide +kernel, cons_ne_nil _ _, fun _ => rfl⟩, by rw [hv]; rfl⟩
  · obtain ⟨n, l, hn, hlt, hl⟩ := exists_leading_writeHex 16 v hv h
    refine ⟨writeHex 16 v,
      by rw [writeChunkSize, if_neg hv], .of_cons (isHex_writeHex 16 v) hl fun heq => hn ?_,
      hexadecimal_writeHex 16 v h⟩
    exact (hexDigit_spec hlt).1.symm.trans (congrArg hexValue heq)

/-- **Numbers as text.**  `write_u64` writes the usual decimal digits of every 64-bit number and
`write_chunk_size` its hexadecimal ones and the line end, in at most 20 and 18 bytes; both are read
back, so no two numbers have one text. -/
theorem numbers_as_text (v : UInt64) :
    Canonical isDigit (writeU64 v.toNat) ∧ (writeU64 v.toNat).length ≤ 20 ∧
      decimal (writeU64 v.toNat) = v.toNat ∧
      (∃ digits, writeChunkSize v.toNat = digits ++ crlf ∧ Canonical isHex digits ∧
        hexadecimal digits = v.toNat) ∧
      (writeChunkSize v.toNat).length ≤ 18 ∧
      ∀ w : UInt64, (writeU64 v.toNat = writeU64 w.toNat ↔ v = w) ∧
        (writeChunkSize v.toNat = writeChunkSize w.toNat ↔ v = w) := by
  have hlt (w : UInt64) : w.toNat < 100 ^ 10 := w.toNat_lt.trans (by decide)
  have hlt' (w : UInt64) : w.toNat < 16 ^ 16 := w.toNat_lt.trans_le (by decide)
  refine ⟨canonical_writeU64 (hlt v), length_writeU64_le _, decimal_writeU64 (hlt v),
    exists_writeChunkSize (hlt' v),
    length_writeChunkSize_le _, fun w =>
      ⟨⟨fun h => ?_, fun h => h ▸ rfl⟩, ⟨fun h => ?_, fun h => h ▸ rfl⟩⟩⟩
  · have hd := congrArg decimal h
    rw [decimal_writeU64 (hlt v), decimal_writeU64 (hlt w)] at hd
    exact UInt64.toNat_inj.mp hd
  · obtain ⟨d, hv, -, hd⟩ := exists_writeChunkSize (hlt' v)
    obtain ⟨d', hw, -, hd'⟩ := exists_writeChunkSize (hlt' w)
    have hsame : d = d' := append_cancel_right (hv.symm.trans (h.trans hw))
    exact UInt64.toNat_inj.mp (hd.symm.trans ((congrArg hexadecimal hsame).trans hd'))

/-! ## Methods and versions -/

/-- `method_t`. -/
inductive Server.Method
  | delete | get | head | post | put | connect | options | trace | patch | unknown
  deriving DecidableEq, Repr

/-- `method_name`. -/
def Server.Method.name : Server.Method → String
  | get => "GET" | head => "HEAD" | post => "POST" | put => "PUT" | delete => "DELETE"
  | connect => "CONNECT" | options => "OPTIONS" | trace => "TRACE" | patch => "PATCH"
  | unknown => "UNKNOWN"

/-- `version_t`. -/
inductive Version
  | http10 | http11 | unknown
  deriving DecidableEq, Repr

/-! ## Statuses -/

/-- `status_t`. -/
structure Status where
  code : UInt16
  deriving DecidableEq, Repr

/-- `CORNET_STATUS_MAP`. -/
def kStatusMap : List (UInt16 × String) :=
  [(100, "Continue"), (101, "Switching Protocols"), (200, "OK"), (201, "Created"),
   (202, "Accepted"), (204, "No Content"), (205, "Reset Content"), (206, "Partial Content"),
   (301, "Moved Permanently"), (302, "Found"), (303, "See Other"), (304, "Not Modified"),
   (307, "Temporary Redirect"), (308, "Permanent Redirect"), (400, "Bad Request"),
   (401, "Unauthorized"), (403, "Forbidden"), (404, "Not Found"), (405, "Method Not Allowed"),
   (406, "Not Acceptable"), (408, "Request Timeout"), (409, "Conflict"), (410, "Gone"),
   (411, "Length Required"), (412, "Precondition Failed"), (413, "Content Too Large"),
   (414, "URI Too Long"), (415, "Unsupported Media Type"), (417, "Expectation Failed"),
   (422, "Unprocessable Content"), (426, "Upgrade Required"), (429, "Too Many Requests"),
   (431, "Request Header Fields Too Large"), (500, "Internal Server Error"),
   (501, "Not Implemented"), (502, "Bad Gateway"), (503, "Service Unavailable"),
   (504, "Gateway Timeout"), (505, "HTTP Version Not Supported")]

namespace Status

def ok : Status := ⟨200⟩
def interim : Status := ⟨100⟩
def notFound : Status := ⟨404⟩
def internalServerError : Status := ⟨500⟩

variable (s : Status)

/-- `reason_phrase`. -/
def reasonPhrase : String := (kStatusMap.lookup s.code).getD "Unknown"

/-- `status_line`, pre-rendered for the codes of the table. -/
def statusLine : Option (List Byte) :=
  (kStatusMap.lookup s.code).map fun phrase =>
    ascii "HTTP/1.1 " ++ writeU64 s.code.toNat ++ ascii " " ++ ascii phrase ++ crlf

/-- `status_forbids_body`. -/
def forbidsBody : Bool := (100 ≤ s.code && s.code < 200) || s.code == 204 || s.code == 304

/-- `status_is_informational`. -/
def isInformational : Bool := 100 ≤ s.code && s.code < 200

/-- `status_forces_close`. -/
def forcesClose : Bool := s.code ∈ ([400, 408, 413, 414, 431, 500, 501, 503, 505] : List UInt16)

end Status

/-! ## Header fields -/

/-- `field_t`. -/
inductive Field
  | host | contentLength | contentType | transferEncoding | connection | accept | acceptEncoding
  | acceptLanguage | userAgent | expect | upgrade | date | server | location | cookie | setCookie
  | authorization | referer | range | ifNoneMatch | ifModifiedSince | eTag | cacheControl | origin
  | other
  deriving DecidableEq, Repr

/-- `kFieldText`, the name of a field. -/
def Field.name : Field → Option String
  | host => "Host" | contentLength => "Content-Length" | contentType => "Content-Type"
  | transferEncoding => "Transfer-Encoding" | connection => "Connection" | accept => "Accept"
  | acceptEncoding => "Accept-Encoding" | acceptLanguage => "Accept-Language"
  | userAgent => "User-Agent" | expect => "Expect" | upgrade => "Upgrade" | date => "Date"
  | server => "Server" | location => "Location" | cookie => "Cookie" | setCookie => "Set-Cookie"
  | authorization => "Authorization" | referer => "Referer" | range => "Range"
  | ifNoneMatch => "If-None-Match" | ifModifiedSince => "If-Modified-Since" | eTag => "ETag"
  | cacheControl => "Cache-Control" | origin => "Origin" | other => none

/-- The name of a field, as it is written. -/
def Field.bytes (f : Field) : List Byte := (f.name.map ascii).getD []

/-- `field_prefix`; `Other` has none, and nothing is written for it. -/
def Field.namePrefix (f : Field) : List Byte :=
  match f.name with
  | some n => ascii n ++ ascii ": "
  | none => []

/-- The names `field_from_name` compares with, in the order it does. -/
def kFieldNames : List (String × Field) :=
  [("host", .host), ("date", .date), ("etag", .eTag), ("range", .range), ("accept", .accept),
   ("expect", .expect), ("server", .server), ("cookie", .cookie), ("origin", .origin),
   ("upgrade", .upgrade), ("referer", .referer), ("location", .location),
   ("connection", .connection), ("user-agent", .userAgent), ("set-cookie", .setCookie),
   ("content-type", .contentType), ("authorization", .authorization),
   ("if-none-match", .ifNoneMatch), ("cache-control", .cacheControl),
   ("content-length", .contentLength), ("accept-encoding", .acceptEncoding),
   ("accept-language", .acceptLanguage), ("transfer-encoding", .transferEncoding),
   ("if-modified-since", .ifModifiedSince)]

/-- The case bit set in every byte of a word. -/
def lowered (l : List Byte) : List Byte := l.map (· ||| 0x20)

/-- `HTTP_M8`: the lengths, the first word and the last word agree.  The two words of a 17-byte name
leave its ninth byte out. -/
def sameWords (name lit : List Byte) : Bool :=
  name.length == lit.length && lowered (name.take 8) == lowered (lit.take 8) &&
    lowered (name.drop (lit.length - 8)) == lowered (lit.drop (lit.length - 8))

/-- `field_from_name`. -/
def fieldFromName (name : List Byte) : Field :=
  ((kFieldNames.find? fun e => sameWords name (ascii e.1)).map Prod.snd).getD .other

/-- `field_forbidden_in_trailer`. -/
def Field.forbiddenInTrailer (f : Field) : Bool :=
  f ∈ [contentLength, transferEncoding, contentType, host, connection, upgrade, expect, range,
    cacheControl, authorization, cookie, setCookie, date, location]

/-- `iequals`. -/
def iequals (a b : List Byte) : Bool := lowered a == lowered b

end Cornet.Http
