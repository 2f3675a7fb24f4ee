import Cornet.Machinery.Memory

/-!
# Http/Buffer — pooled blocks, the head buffer and the body buffer (`src/http/common/buffer.cc`)

    head:  | consumed | unread | room |          body:  | view | room |
           0          r        w      cap               0      size   cap

The allocator is taken to succeed.  Both buffers keep raw memory: bytes outside the window stay as
they were.
-/

namespace Cornet.Http

open List

/-! ## The pool -/

/-- `buffer_pool_t::kClassSize`. -/
def kClassSize : List ℕ := [4 <<< 10, 16 <<< 10, 64 <<< 10, 256 <<< 10]

/-- The capacity of the block `acquire` hands out: the smallest class that fits, or exactly what was
asked for above the largest. -/
def acquire (minBytes : ℕ) : ℕ := (kClassSize.find? (minBytes ≤ ·)).getD minBytes

/-- A block is of some class, or above all of them and exact. -/
theorem acquire_cases (n : ℕ) :
    (acquire n ∈ kClassSize ∧ n ≤ acquire n) ∨ (acquire n = n ∧ 256 <<< 10 < n) := by
  cases h : kClassSize.find? (n ≤ ·) with
  | some c =>
    refine .inl ?_
    rw [acquire, h]
    exact ⟨mem_of_find?_eq_some h, by simpa using find?_some h⟩
  | none =>
    refine .inr ⟨by rw [acquire, h]; rfl, ?_⟩
    simpa using find?_eq_none.mp h (256 <<< 10) (by decide)

theorem le_acquire (n : ℕ) : n ≤ acquire n := by
  rcases acquire_cases n with h | h
  · exact h.2
  · exact h.1.ge

theorem kClassSize_bounds : ∀ c ∈ kClassSize, 4096 ≤ c ∧ c < 2 ^ 32 := by decide

theorem min_le_acquire (n : ℕ) : 4096 ≤ acquire n := by
  rcases acquire_cases n with h | h
  · exact (kClassSize_bounds _ h.1).1
  · have hn := h.2
    rw [h.1]
    simp only [Nat.shiftLeft_eq] at hn
    omega

theorem acquire_lt {n : ℕ} (h : n < 2 ^ 32) : acquire n < 2 ^ 32 := by
  rcases acquire_cases n with hn | hn
  · exact (kClassSize_bounds _ hn.1).2
  · rwa [hn.1]

/-! ## The head buffer -/

/-- `head_buffer_t`. -/
structure HeadBuffer where
  mem : Mem := Mem.zero
  cap : ℕ := 0
  r : ℕ := 0
  w : ℕ := 0
  parsing : Bool := false

namespace HeadBuffer

variable (b : HeadBuffer)

/-- A freshly attached block. -/
def reset (cap : ℕ) : HeadBuffer := { cap := cap }

/-- `head_buffer_t::readable`. -/
def readable : ℕ := b.w - b.r

/-- The length of `writable()`. -/
def room : ℕ := b.cap - b.w

def view (off len : ℕ) : List Byte := b.mem.read off len

/-- The window between the cursors. -/
def unread : List Byte := b.view b.r b.readable

/-- Bytes land in `writable()` and are committed. -/
def put (l : List Byte) : HeadBuffer := { b with mem := b.mem.write b.w l, w := b.w + l.length }

/-- `head_buffer_t::consume`. -/
def consume (n : ℕ) : HeadBuffer := { b with r := b.r + n }

/-- Bytes at the read cursor are changed in place. -/
def patch (l : List Byte) : HeadBuffer := { b with mem := b.mem.write b.r l }

/-- `head_buffer_t::compact`. -/
def compact : HeadBuffer :=
  if b.r = 0 then b
  else { b with mem := b.mem.write 0 b.unread, r := 0, w := b.readable }

/-- `head_buffer_t::rewind_to`. -/
def rewindTo (pos : ℕ) : HeadBuffer := { b with r := pos, w := pos }

/-- `head_buffer_t::begin_message`. -/
def beginMessage : HeadBuffer := { b with parsing := true }

/-- `head_buffer_t::end_message`. -/
def endMessage : HeadBuffer := { b with parsing := false }

/-- The cursors are in order. -/
structure Ok : Prop where
  r_le : b.r ≤ b.w
  w_le : b.w ≤ b.cap

variable {b} {l : List Byte} {n : ℕ}

@[simp] theorem length_unread : b.unread.length = b.readable := Mem.length_read

theorem ok_reset (cap : ℕ) : (reset cap).Ok := ⟨le_rfl, Nat.zero_le _⟩

theorem Ok.put (hb : b.Ok) (hl : l.length ≤ b.room) : (b.put l).Ok := by
  have h₁ := hb.r_le
  have h₂ := hb.w_le
  simp only [room] at hl
  constructor
  · change b.r ≤ b.w + l.length
    omega
  · change b.w + l.length ≤ b.cap
    omega

theorem Ok.unread_put (hb : b.Ok) : (b.put l).unread = b.unread ++ l := by
  have h := hb.r_le
  have hsplit : b.w + l.length - b.r = b.readable + l.length := by
    simp only [readable]
    omega
  have hw : b.r + b.readable = b.w := by
    simp only [readable]
    omega
  change (b.mem.write b.w l).read b.r (b.w + l.length - b.r) = b.mem.read b.r b.readable ++ l
  rw [hsplit, Mem.read_add, hw, Mem.read_write_self,
    Mem.read_write_of_disjoint (.inl hw.le)]

theorem Ok.consume (hb : b.Ok) (hn : n ≤ b.readable) : (b.consume n).Ok := by
  have h := hb.r_le
  simp only [readable] at hn
  refine ⟨?_, hb.w_le⟩
  change b.r + n ≤ b.w
  omega

theorem unread_consume (hn : n ≤ b.readable) :
    (b.consume n).unread = b.unread.drop n := by
  have hsplit := b.mem.read_split b.r hn
  have hlen : b.w - (b.r + n) = b.readable - n := by
    simp only [readable]
    omega
  change b.mem.read (b.r + n) (b.w - (b.r + n)) = (b.mem.read b.r b.readable).drop n
  rw [hsplit, hlen, drop_append_of_le_length (by simp), drop_of_length_le (by simp),
    nil_append]

theorem Ok.patch (hb : b.Ok) : (b.patch l).Ok := ⟨hb.r_le, hb.w_le⟩

theorem unread_patch (hl : l.length ≤ b.readable) :
    (b.patch l).unread = l ++ b.unread.drop l.length := by
  have hsplit := b.mem.read_split b.r hl
  change (b.mem.write b.r l).read b.r b.readable = l ++ (b.mem.read b.r b.readable).drop l.length
  rw [(b.mem.write b.r l).read_split b.r hl, Mem.read_write_self,
    Mem.read_write_of_disjoint (.inr le_rfl), hsplit, drop_append_of_le_length (by simp),
    drop_of_length_le (by simp), nil_append]

theorem Ok.compact (hb : b.Ok) : b.compact.Ok := by
  rw [HeadBuffer.compact]
  split
  · exact hb
  · have h := hb.w_le
    refine ⟨Nat.zero_le _, ?_⟩
    change b.w - b.r ≤ b.cap
    omega

theorem unread_compact : b.compact.unread = b.unread := by
  rw [HeadBuffer.compact]
  split
  · rfl
  · change (b.mem.write 0 b.unread).read 0 b.readable = b.unread
    rw [← length_unread, Mem.read_write_self]

theorem room_compact : b.compact.room = b.cap - b.readable := by
  rw [HeadBuffer.compact]
  split
  · rename_i h
    simp [room, readable, h]
  · rfl

theorem cap_compact : b.compact.cap = b.cap := by
  rw [HeadBuffer.compact]
  split <;> rfl

end HeadBuffer

/-! ## The body buffer -/

/-- `body_buffer_t`. -/
structure BodyBuffer where
  mem : Mem := Mem.zero
  size : ℕ := 0
  cap : ℕ := 0

/-- How an append ends: in the buffer, refused, or past the end of the block. -/
inductive Appended
  | ok (b : BodyBuffer)
  | outputOverflow
  | overrun

namespace BodyBuffer

variable (b : BodyBuffer)

def view : List Byte := b.mem.read 0 b.size

/-- `body_buffer_t::clear`. -/
def clear : BodyBuffer := { b with size := 0 }

/-- `reserve_exact`: a block whose capacity is what was asked for, or none from 4 GiB on. -/
def reserveExact (expected : ℕ) : Option BodyBuffer :=
  if expected = 0 then some {} else if 0xffffffff < expected then none else some { cap := expected }

/-- `grow`, whose argument is a 32-bit number. -/
def grow (bytes : ℕ) : BodyBuffer :=
  if bytes % 2 ^ 32 ≤ b.cap then b
  else { b with mem := Mem.zero.write 0 b.view, cap := acquire (bytes % 2 ^ 32) }

/-- `append`; its bounds check is in 32-bit arithmetic. -/
def append (l : List Byte) : Appended :=
  if l = [] then .ok b
  else if b.cap < (b.size + l.length) % 2 ^ 32 then .outputOverflow
  else if b.cap < b.size + l.length then .overrun
  else .ok { b with mem := b.mem.write b.size l, size := b.size + l.length }

/-- The block is a real one, and holds what the buffer says it does. -/
structure Ok : Prop where
  size_le : b.size ≤ b.cap
  cap_lt : b.cap < 2 ^ 32

variable {b} {l : List Byte} {n : ℕ}

@[simp] theorem length_view : b.view.length = b.size := Mem.length_read

@[simp] theorem view_clear : b.clear.view = [] := rfl

theorem ok_new : ({} : BodyBuffer).Ok := ⟨le_rfl, Nat.two_pow_pos _⟩

theorem Ok.clear (hb : b.Ok) : b.clear.Ok := ⟨Nat.zero_le _, hb.cap_lt⟩

@[simp] theorem view_grow : (b.grow n).view = b.view := by
  rw [grow]
  split
  · rfl
  · change (Mem.zero.write 0 b.view).read 0 b.size = b.view
    rw [← length_view, Mem.read_write_self]

@[simp] theorem size_grow : (b.grow n).size = b.size := by
  rw [← length_view, view_grow, length_view]

theorem Ok.grow (hb : b.Ok) : (b.grow n).Ok := by
  refine ⟨?_, ?_⟩
  · rw [size_grow, BodyBuffer.grow]
    split
    · exact hb.size_le
    · have := hb.size_le
      have := le_acquire (n % 2 ^ 32)
      change b.size ≤ acquire _
      omega
  · rw [BodyBuffer.grow]
    split
    · exact hb.cap_lt
    · exact acquire_lt (Nat.mod_lt _ (Nat.two_pow_pos _))

theorem le_cap_grow (h : n < 2 ^ 32) : n ≤ (b.grow n).cap := by
  rw [BodyBuffer.grow, Nat.mod_eq_of_lt h]
  split
  · assumption
  · exact le_acquire n

/-- What fits is appended. -/
theorem Ok.append_le (hb : b.Ok) (h : b.size + l.length ≤ b.cap) :
    ∃ b', b.append l = .ok b' ∧ b'.Ok ∧ b'.cap = b.cap ∧ b'.view = b.view ++ l := by
  have hcap := hb.cap_lt
  rw [append]
  split
  · rename_i hl
    subst hl
    exact ⟨b, rfl, hb, rfl, (append_nil _).symm⟩
  · rw [Nat.mod_eq_of_lt (by omega), if_neg (not_lt.mpr h), if_neg (not_lt.mpr h)]
    refine ⟨_, rfl, ⟨h, hcap⟩, rfl, ?_⟩
    change (b.mem.write b.size l).read 0 (b.size + l.length) = b.view ++ l
    rw [Mem.read_add, Nat.zero_add, Mem.read_write_self,
      Mem.read_write_of_disjoint (.inl (Nat.zero_add _).le)]
    rfl

/-- **Growing and appending below 4 GiB** appends. -/
theorem Ok.append_grow (hb : b.Ok) (h : b.size + l.length < 2 ^ 32) :
    ∃ b', (b.grow (b.size + l.length)).append l = .ok b' ∧ b'.Ok ∧ b'.view = b.view ++ l := by
  have hcap := le_cap_grow (b := b) h
  obtain ⟨b', happend, hok, -, hview⟩ :=
    (hb.grow (n := b.size + l.length)).append_le (l := l) (by rwa [size_grow])
  exact ⟨b', happend, hok, by rw [hview, view_grow]⟩

/-- **From 4 GiB on the checks pass and the copy runs past the block**: the 32-bit sums wrap. -/
theorem Ok.overrun_grow (hb : b.Ok) (hl : l.length < 2 ^ 32) (h : 2 ^ 32 ≤ b.size + l.length) :
    (b.grow (b.size + l.length)).append l = .overrun := by
  have h₁ := hb.size_le
  have h₂ := hb.cap_lt
  have hmod : (b.size + l.length) % 2 ^ 32 = b.size + l.length - 2 ^ 32 := by
    rw [Nat.mod_eq_sub_mod h, Nat.mod_eq_of_lt (by omega)]
  have hgrow : b.grow (b.size + l.length) = b := by
    rw [BodyBuffer.grow, hmod, if_pos (by omega)]
  rw [hgrow, append, hmod, if_neg, if_neg (by omega), if_pos (by omega)]
  rintro rfl
  simp only [length_nil, Nat.add_zero] at h
  omega

end BodyBuffer

end Cornet.Http
