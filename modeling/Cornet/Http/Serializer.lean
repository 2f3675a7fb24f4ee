import Cornet.Http.Protocol

/-!
# Http/Serializer — the append-only output buffer and what is written into it

    | staged …………… size | room …… cap |      put · clear · view off len

`src/http/common/serializer.cc`.  A buffer latches its first failure and ignores every write after
it.  `clear` moves the size back and leaves the bytes: a view taken by offset reads whatever stands
there when it is read.  `OutBuffer.Adds` says what a chain of writes does to a buffer, and is the
one fact the users of the serializer need.
-/

namespace Cornet.Http

open List

/-- The errors of `http_error_t` the response side raises. -/
inductive HttpError
  | outputOverflow | invalidState | invalidHeader
  deriving DecidableEq, Repr

/-- `out_buffer_t`. -/
structure OutBuffer where
  mem : Mem := Mem.zero
  cap : ℕ
  size : ℕ := 0
  err : Option HttpError := none

/-- The length of a view passed as `uint32_t`: what is left of it. -/
def clip (l : List Byte) : List Byte := l.take (l.length % 2 ^ 32)

theorem clip_of_lt {l : List Byte} (h : l.length < 2 ^ 32) : clip l = l := by
  rw [clip, Nat.mod_eq_of_lt h, take_length]

namespace OutBuffer

variable (b : OutBuffer)

/-- `out_buffer_t::remaining`. -/
def remaining : ℕ := b.cap - b.size

/-- `out_buffer_t::failed`. -/
def failed : Bool := b.err.isSome

/-- `out_buffer_t::view`. -/
def view (off len : ℕ) : List Byte := b.mem.read off len

/-- `out_buffer_t::clear`. -/
def clear : OutBuffer := { b with size := 0, err := none }

/-- The first failure stays. -/
def fail (e : HttpError) : OutBuffer := if b.err.isSome then b else { b with err := some e }

/-- The body of `put` and `put_u64`: copy `l` if `need` bytes are free. -/
def append (need : ℕ) (l : List Byte) : OutBuffer :=
  if b.err.isSome then b
  else if b.remaining < need then { b with err := some .outputOverflow }
  else { b with mem := b.mem.write b.size l, size := b.size + l.length }

/-- `out_buffer_t::put`. -/
def put (l : List Byte) : OutBuffer := b.append (clip l).length (clip l)

/-- `out_buffer_t::put_crlf`. -/
def putCrlf : OutBuffer := b.put crlf

/-- `put_u64` asks for the longest number's room. -/
def putU64 (v : ℕ) : OutBuffer := b.append 20 (writeU64 v)

end OutBuffer

/-! ## The serializer -/

namespace Serializer

/-- `has_crlf`. -/
def hasCrlf (l : List Byte) : Bool := 13 ∈ l || 10 ∈ l

variable (out : OutBuffer)

/-- `serializer_t::request_line`. -/
def requestLine (m : Server.Method) (path query : List Byte) (v : Version) : OutBuffer :=
  let out := (out.put (ascii m.name)).put (ascii " ")
  let out := if path = [] then out.put (ascii "/") else out.put path
  let out := if query = [] then out else (out.put (ascii "?")).put query
  if v = .http10 then out.put (ascii " HTTP/1.0\r\n") else out.put (ascii " HTTP/1.1\r\n")

/-- `serializer_t::status_line`. -/
def statusLine (s : Status) : OutBuffer :=
  match s.statusLine with
  | some line => out.put line
  | none =>
    ((((out.put (ascii "HTTP/1.1 ")).putU64 s.code.toNat).put (ascii " ")).put
      (ascii s.reasonPhrase)).putCrlf

/-- `serializer_t::header`. -/
def header (f : Field) (value : List Byte) : OutBuffer :=
  if hasCrlf value then out.fail .invalidHeader
  else ((out.put f.namePrefix).put value).putCrlf

/-- `header` for a name outside the table. -/
def headerNamed (name value : List Byte) : OutBuffer :=
  if hasCrlf name || hasCrlf value then out.fail .invalidHeader
  else (((out.put name).put (ascii ": ")).put value).putCrlf

/-- `serializer_t::header_u64`. -/
def headerU64 (f : Field) (value : ℕ) : OutBuffer :=
  ((out.put f.namePrefix).putU64 value).putCrlf

/-- `serializer_t::date_header`. -/
def dateHeader (date : List Byte) : OutBuffer :=
  if date = [] then out else ((out.put (Field.namePrefix .date)).put date).putCrlf

end Serializer

/-! ## What a chain of writes does -/

namespace OutBuffer

variable {b b₁ b₂ : OutBuffer} {l l₁ l₂ : List Byte} {off len v : ℕ}

/-- `b'` is `b` after more writes: nothing staged is lost, and a failure of `b` would still show. -/
structure Grows (b b' : OutBuffer) : Prop where
  cap_eq : b'.cap = b.cap
  size_le : b.size ≤ b'.size
  keeps : ∀ {off len}, off + len ≤ b.size → b'.view off len = b.view off len
  err_none : b'.err = none → b.err = none

/-- The writes amount to `l`: if `b'` did not fail, `l` stands where `b` ended. -/
structure Adds (b : OutBuffer) (l : List Byte) (b' : OutBuffer) : Prop extends Grows b b' where
  size_eq : b'.err = none → b'.size = b.size + l.length
  added : b'.err = none → b'.view b.size l.length = l

theorem Grows.refl (b : OutBuffer) : b.Grows b := ⟨rfl, le_rfl, fun _ => rfl, id⟩

theorem Grows.trans (h₁ : b.Grows b₁) (h₂ : b₁.Grows b₂) : b.Grows b₂ where
  cap_eq := h₂.cap_eq.trans h₁.cap_eq
  size_le := h₁.size_le.trans h₂.size_le
  keeps h := (h₂.keeps (h.trans h₁.size_le)).trans (h₁.keeps h)
  err_none h := h₁.err_none (h₂.err_none h)

/-- What only latches an error adds anything one likes. -/
theorem adds_of_err (h : b₁.err ≠ none) (hc : b₁.cap = b.cap) (hs : b₁.size = b.size)
    (hm : b₁.mem = b.mem) : b.Adds l b₁ where
  cap_eq := hc
  size_le := hs.ge
  keeps _ := by rw [view, hm, view]
  err_none h' := absurd h' h
  size_eq h' := absurd h' h
  added h' := absurd h' h

theorem Adds.refl (b : OutBuffer) : b.Adds [] b := ⟨Grows.refl b, fun _ => rfl, fun _ => rfl⟩

theorem Adds.trans (h₁ : b.Adds l₁ b₁) (h₂ : b₁.Adds l₂ b₂) : b.Adds (l₁ ++ l₂) b₂ where
  toGrows := h₁.toGrows.trans h₂.toGrows
  size_eq h := by
    rw [h₂.size_eq h, h₁.size_eq (h₂.err_none h), length_append, Nat.add_assoc]
  added h := by
    have h' := h₂.err_none h
    have hsize := h₁.size_eq h'
    rw [length_append, view, Mem.read_add, ← hsize]
    exact congrArg₂ (· ++ ·) ((h₂.keeps hsize.ge).trans (h₁.added h')) (h₂.added h)

theorem adds_append (need : ℕ) (l : List Byte) : b.Adds l (b.append need l) := by
  rw [append]
  split
  · exact adds_of_err (by rintro h; simp_all) rfl rfl rfl
  · split
    · exact adds_of_err (by simp) rfl rfl rfl
    · exact
        { cap_eq := rfl
          size_le := Nat.le_add_right _ _
          keeps := fun h => Mem.read_write_of_disjoint (.inl h)
          err_none := id
          size_eq := fun _ => rfl
          added := fun _ => Mem.read_write_self }

theorem adds_fail (e : HttpError) : b.Adds l (b.fail e) := by
  rw [fail]
  split
  · exact adds_of_err (by rintro h; simp_all) rfl rfl rfl
  · exact adds_of_err (by simp) rfl rfl rfl

theorem adds_put (l : List Byte) : b.Adds (clip l) (b.put l) := adds_append _ _

theorem adds_putU64 (v : ℕ) : b.Adds (writeU64 v) (b.putU64 v) := adds_append _ _

theorem adds_putCrlf : b.Adds crlf b.putCrlf := adds_put crlf

/-- A literal is far below 4 GiB. -/
theorem adds_put_of_lt (h : l.length < 2 ^ 32) : b.Adds l (b.put l) := by
  have := adds_put (b := b) l
  rwa [clip_of_lt h] at this

/-- Room enough, and the write goes through. -/
theorem err_append_of_le {need : ℕ} (h : b.err = none) (hroom : need ≤ b.remaining) :
    (b.append need l).err = none := by
  rw [append, if_neg (by simp [h]), if_neg (by omega)]
  exact h

/-! ## When a chain of writes fits -/

/-- The buffer has not failed and has room for `n` bytes. -/
def Fits (b : OutBuffer) (n : ℕ) : Prop := b.err = none ∧ n ≤ b.remaining

theorem fits_append {need n : ℕ} (hneed : l.length ≤ need) :
    (b.append need l).Fits n ↔ b.Fits (max need (l.length + n)) := by
  rw [Fits, Fits, append]
  split
  · rename_i h
    rw [Option.isSome_iff_ne_none] at h
    simp [h]
  · rename_i h
    have herr : b.err = none := by simpa using h
    split
    · simp only [reduceCtorEq, false_and, false_iff, not_and, not_le]
      omega
    · simp only [remaining, herr, true_and] at *
      omega

theorem fits_put {n : ℕ} : (b.put l).Fits n ↔ b.Fits ((clip l).length + n) := by
  rw [put, fits_append le_rfl, max_eq_right (Nat.le_add_right _ _)]

theorem fits_put_of_lt {n : ℕ} (h : l.length < 2 ^ 32) : (b.put l).Fits n ↔
    b.Fits (l.length + n) := by
  rw [fits_put, clip_of_lt h]

theorem fits_putCrlf {n : ℕ} : b.putCrlf.Fits n ↔ b.Fits (2 + n) := fits_put

theorem fits_putU64 {n : ℕ} : (b.putU64 v).Fits n ↔ b.Fits (max 20 ((writeU64 v).length + n)) :=
  fits_append (length_writeU64_le v)

theorem err_eq_none_iff_fits : b.err = none ↔ b.Fits 0 := by simp [Fits]

/-! ## Exact contents -/

/-- The buffer holds exactly `l`, unfailed, in a block of the pool. -/
structure Holds (b : OutBuffer) (l : List Byte) : Prop where
  err_eq : b.err = none
  size_eq : b.size = l.length
  view_eq : b.view 0 l.length = l
  cap_le : 4096 ≤ b.cap

theorem Holds.clear (h : b.Holds l) : b.clear.Holds [] := ⟨rfl, rfl, rfl, h.cap_le⟩

theorem Holds.put (h : b.Holds l₁) (hl : l₂.length < 2 ^ 32)
    (hroom : l₁.length + l₂.length ≤ b.cap) :
    (b.put l₂).Holds (l₁ ++ l₂) := by
  have hadds := adds_put_of_lt (b := b) hl
  have herr : (b.put l₂).err = none := by
    refine err_append_of_le h.err_eq ?_
    rw [clip_of_lt hl, remaining, h.size_eq]
    omega
  have hkeeps := hadds.keeps (show 0 + l₁.length ≤ b.size by rw [h.size_eq, Nat.zero_add])
  have hadded := hadds.added herr
  refine ⟨herr, ?_, ?_, hadds.cap_eq ▸ h.cap_le⟩
  · rw [hadds.size_eq herr, h.size_eq, length_append]
  · rw [length_append, view, Mem.read_add, Nat.zero_add]
    rw [h.size_eq] at hadded
    exact congrArg₂ (· ++ ·) (hkeeps.trans h.view_eq) hadded

end OutBuffer

/-! ## The text of each line -/

/-- The status line of any code, tabulated or composed. -/
def Status.text (s : Status) : List Byte :=
  ascii "HTTP/1.1 " ++ writeU64 s.code.toNat ++ ascii " " ++ ascii s.reasonPhrase ++ crlf

/-- **The code is read back** from the start of a status line. -/
theorem Status.code_of_take_text {s : Status} {x : List Byte}
    (h : (s.text ++ x).take 13 = ascii "HTTP/1.1 500 ") : s.code = 500 := by
  have hsplit := take_append_drop 13 (s.text ++ x)
  have hprefix : ascii "HTTP/1.1 500 " = ascii "HTTP/1.1 " ++ (ascii "500" ++ ascii " ") :=
    by decide
  rw [h, Status.text, hprefix] at hsplit
  simp only [append_assoc] at hsplit
  have hcode := congrArg (List.takeWhile isDigit) (append_cancel_left hsplit)
  rw [takeWhile_append_of_pos (isDigit_writeU64 _),
    takeWhile_append_of_pos (by decide +kernel)] at hcode
  have hblank (l : List Byte) : List.takeWhile isDigit (ascii " " ++ l) = [] := rfl
  rw [hblank, hblank, append_nil, append_nil] at hcode
  have hvalue := congrArg decimal hcode
  rw [decimal_writeU64 (lt_trans (UInt16.toNat_lt s.code) (by decide))] at hvalue
  exact UInt16.toNat_inj.mp (hvalue.symm.trans (by decide))

def requestText (m : Server.Method) (path query : List Byte) : List Byte :=
  ascii m.name ++ ascii " " ++ (if path = [] then ascii "/" else clip path) ++
    (if query = [] then [] else ascii "?" ++ clip query) ++ ascii " HTTP/1.1\r\n"

def headerText (f : Field) (value : List Byte) : List Byte := f.namePrefix ++ clip value ++ crlf

def namedText (name value : List Byte) : List Byte := clip name ++ ascii ": " ++ clip value ++ crlf

def numberText (f : Field) (value : ℕ) : List Byte := f.namePrefix ++ writeU64 value ++ crlf

def dateText (date : List Byte) : List Byte :=
  if date = [] then [] else Field.namePrefix .date ++ clip date ++ crlf

/-- Every phrase of the table is short. -/
theorem length_phrase_le : ∀ e ∈ kStatusMap, (ascii e.2).length ≤ 31 := by decide +kernel

theorem length_reasonPhrase_le (s : Status) : (ascii s.reasonPhrase).length ≤ 31 := by
  rw [Status.reasonPhrase]
  cases h : kStatusMap.lookup s.code with
  | none => decide
  | some v =>
    obtain ⟨l₁, l₂, hmap, -⟩ := lookup_eq_some_iff.mp h
    exact length_phrase_le (s.code, v) (hmap ▸ mem_append_right _ mem_cons_self)

theorem length_namePrefix_le (f : Field) : f.namePrefix.length ≤ 19 := by
  cases f <;> decide

theorem length_statusText_le (s : Status) : s.text.length ≤ 63 := by
  have h₁ := length_writeU64_le s.code.toNat
  have h₂ := length_reasonPhrase_le s
  have h₃ : (ascii "HTTP/1.1 ").length = 9 := by decide
  have h₄ : (ascii " ").length = 1 := by decide
  have h₅ : crlf.length = 2 := rfl
  simp only [Status.text, length_append]
  omega

namespace Serializer

open OutBuffer

variable {out : OutBuffer} (s : Status) (f : Field) (name value : List Byte)

theorem adds_statusLine : out.Adds s.text (statusLine out s) := by
  have htext := length_statusText_le s
  rw [statusLine]
  cases h : kStatusMap.lookup s.code with
  | some phrase =>
    have hline : s.statusLine = some s.text := by
      rw [Status.statusLine, Status.text, Status.reasonPhrase, h]
      rfl
    rw [hline]
    exact adds_put_of_lt (by omega)
  | none =>
    have hline : s.statusLine = none := by
      rw [Status.statusLine, h]
      rfl
    have hphrase := length_reasonPhrase_le s
    rw [hline]
    exact ((((adds_put_of_lt (l := ascii "HTTP/1.1 ") (by decide)).trans
      (adds_putU64 _)).trans
      (adds_put_of_lt (l := ascii " ") (by decide))).trans
      (adds_put_of_lt (l := ascii s.reasonPhrase) (by omega))).trans
      adds_putCrlf

theorem adds_requestLine (m : Server.Method) (path query : List Byte) :
    out.Adds (requestText m path query) (requestLine out m path query .http11) := by
  have hname : (ascii m.name).length < 2 ^ 32 := by cases m <;> decide
  have hstart := (adds_put_of_lt (b := out) hname).trans
    (adds_put_of_lt (l := ascii " ") (by decide))
  have hpath {b : OutBuffer} :
      b.Adds (if path = [] then ascii "/" else clip path)
        (if path = [] then b.put (ascii "/") else b.put path) := by
    split
    · exact adds_put_of_lt (by decide)
    · exact adds_put path
  have hquery {b : OutBuffer} :
      b.Adds (if query = [] then [] else ascii "?" ++ clip query)
        (if query = [] then b else (b.put (ascii "?")).put query) := by
    split
    · exact OutBuffer.Adds.refl b
    · exact (adds_put_of_lt (by decide)).trans (adds_put query)
  exact ((hstart.trans hpath).trans hquery).trans (adds_put_of_lt (by decide))

theorem adds_header : out.Adds (headerText f value) (header out f value) := by
  have hname := length_namePrefix_le f
  rw [header]
  split
  · exact adds_fail _
  · exact ((adds_put_of_lt (by omega)).trans (adds_put value)).trans
      adds_putCrlf

theorem adds_headerNamed : out.Adds (namedText name value) (headerNamed out name value) := by
  rw [headerNamed]
  split
  · exact adds_fail _
  · exact (((adds_put name).trans (adds_put (ascii ": "))).trans
      (adds_put value)).trans adds_putCrlf

theorem adds_headerU64 (v : ℕ) : out.Adds (numberText f v) (headerU64 out f v) := by
  have hname := length_namePrefix_le f
  exact ((adds_put_of_lt (by omega)).trans (adds_putU64 v)).trans
    adds_putCrlf

theorem adds_dateHeader (date : List Byte) : out.Adds (dateText date) (dateHeader out date) := by
  rw [dateHeader, dateText]
  split
  · exact OutBuffer.Adds.refl out
  · exact ((adds_put_of_lt (by decide)).trans (adds_put date)).trans
      adds_putCrlf

end Serializer

end Cornet.Http
