import Cornet.Machinery.Endian

/-!
# Websocket/Sha1 — the digest of the opening handshake (`sha1_t` in `src/websocket/common/handshake.cc`)

    update  |── block ──|── block ──|── rest ──|          rest: fewer than 64 bytes
    final                           |── rest ──| 80 00 … 00 | length |

However a message is cut into `update` calls, the blocks that are compressed are those of the padded
message.  Nothing is used of the compression function but that it is one.
-/

namespace Cornet.Websocket

open List

namespace Sha1

/-! ## Compression -/

/-- `h_`, and the five working variables. -/
structure Words where
  a : UInt32
  b : UInt32
  c : UInt32
  d : UInt32
  e : UInt32
  deriving DecidableEq, Repr

def initial : Words := ⟨0x67452301, 0xEFCDAB89, 0x98BADCFE, 0x10325476, 0xC3D2E1F0⟩

/-- `sha1_t::rol`. -/
def rol (v n : UInt32) : UInt32 := v <<< n ||| v >>> (32 - n)

/-- The first sixteen words of the schedule. -/
def wordsOf : List Byte → List UInt32
  | b₀ :: b₁ :: b₂ :: b₃ :: l =>
    (b₀.toUInt32 <<< 24 ||| b₁.toUInt32 <<< 16 ||| b₂.toUInt32 <<< 8 ||| b₃.toUInt32) :: wordsOf l
  | _ => []

/-- The rest of them, the latest first. -/
def extend : ℕ → List UInt32 → List UInt32
  | 0, w => w
  | n + 1, w => extend n (rol (w.getD 2 0 ^^^ w.getD 7 0 ^^^ w.getD 13 0 ^^^ w.getD 15 0) 1 :: w)

/-- The function and the constant of a round. -/
def mix (i : ℕ) (s : Words) : UInt32 × UInt32 :=
  if i < 20 then (s.b &&& s.c ||| ~~~s.b &&& s.d, 0x5A827999)
  else if i < 40 then (s.b ^^^ s.c ^^^ s.d, 0x6ED9EBA1)
  else if i < 60 then (s.b &&& s.c ||| s.b &&& s.d ||| s.c &&& s.d, 0x8F1BBCDC)
  else (s.b ^^^ s.c ^^^ s.d, 0xCA62C1D6)

def round (s : Words) (w : UInt32 × ℕ) : Words :=
  let (f, k) := mix w.2 s
  ⟨rol s.a 5 + f + s.e + k + w.1, s.a, rol s.b 30, s.c, s.d⟩

/-- `sha1_t::compress`. -/
def compress (h : Words) (block : List Byte) : Words :=
  let s := ((extend 64 (wordsOf block).reverse).reverse.zipIdx).foldl round h
  ⟨h.a + s.a, h.b + s.b, h.c + s.c, h.d + s.d, h.e + s.e⟩

/-- The digest as it is written out. -/
def Words.bytes (h : Words) : List Byte :=
  [h.a, h.b, h.c, h.d, h.e].flatMap fun v => beBytes 4 v.toNat

/-! ## Streaming -/

/-- `sha1_t`; the block is never full between two calls. -/
structure State where
  h : Words := initial
  block : { l : List Byte // l.length < 64 } := ⟨[], by decide⟩
  /-- `total_`, 64 bits -/
  total : ℕ := 0

/-- The loop of `update`. -/
def absorb (s : State) (data : List Byte) : State :=
  if _hdata : data = [] then s
  else
    let take := min (64 - s.block.1.length) data.length
    let block := s.block.1 ++ data.take take
    if hfull : block.length < 64 then absorb { s with block := ⟨block, hfull⟩ } (data.drop take)
    else absorb { s with h := compress s.h block, block := ⟨[], by decide⟩ } (data.drop take)
termination_by data.length
decreasing_by
  all_goals
    have := length_pos_iff.mpr _hdata
    have := s.block.2
    rw [length_drop]
    omega

/-- `sha1_t::update`. -/
def update (s : State) (data : List Byte) : State :=
  absorb { s with total := (s.total + data.length) % 2 ^ 64 } data

/-- `sha1_t::final`. -/
def final (s : State) : List Byte :=
  let bits := s.total * 8 % 2 ^ 64
  let s := update s [0x80]
  let used := s.block.1.length
  let want := if used ≤ 56 then 56 - used else 64 + 56 - used
  let s := update s (List.replicate want 0)
  (update s (beBytes 8 bits)).h.bytes

/-! ## Blocks -/

/-- The whole blocks of a text. -/
def blocks (l : List Byte) : List (List Byte) :=
  if l.length < 64 then [] else l.take 64 :: blocks (l.drop 64)
termination_by l.length
decreasing_by
  rw [length_drop]
  omega

/-- FIPS 180 padding: as few zeros as fill up a block with the length at its end. -/
def pad (l : List Byte) : List Byte :=
  l ++ 0x80 :: (List.replicate ((119 - l.length % 64) % 64) 0 ++ beBytes 8 (8 * l.length))

/-- The digest of a message: the five words behind its last block, the highest byte of each
first. -/
def digest (l : List Byte) : List Byte :=
  let h := (blocks (pad l)).foldl compress initial
  beBytes 4 h.a.toNat ++ beBytes 4 h.b.toNat ++ beBytes 4 h.c.toNat ++ beBytes 4 h.d.toNat ++
    beBytes 4 h.e.toNat

theorem Words.bytes_eq (h : Words) : h.bytes = beBytes 4 h.a.toNat ++ beBytes 4 h.b.toNat ++
    beBytes 4 h.c.toNat ++ beBytes 4 h.d.toNat ++ beBytes 4 h.e.toNat := by
  simp [Words.bytes]

theorem blocks_concat {b : List Byte} (hb : b.length = 64) : ∀ l : List Byte, l.length % 64 = 0 →
    blocks (l ++ b) = blocks l ++ [b] := by
  intro l
  fun_induction blocks l with
  | case1 l hshort =>
    intro hl
    obtain rfl : l = [] := length_eq_zero_iff.mp (by omega)
    rw [nil_append, blocks, if_neg (by omega), ← hb, take_length, drop_length, blocks,
      if_pos (by decide), nil_append]
  | case2 l hlong ih =>
    intro hl
    rw [blocks, if_neg (by rw [length_append]; omega), take_append_of_le_length (by omega),
      drop_append_of_le_length (by omega), ih (by rw [length_drop]; omega), cons_append]

/-- The state after the message `l`. -/
structure State.Holds (s : State) (l : List Byte) : Prop where
  blocks_eq : ∃ done, l = done ++ s.block.1 ∧ done.length % 64 = 0 ∧
    s.h = (blocks done).foldl compress initial

variable {s : State} {l : List Byte}

theorem State.Holds.length_block (h : s.Holds l) : s.block.1.length = l.length % 64 := by
  obtain ⟨done, rfl, hdone, -⟩ := h.blocks_eq
  have := s.block.2
  rw [length_append]
  omega

/-- With nothing left in the block the words are those of all blocks. -/
theorem State.Holds.h_eq (h : s.Holds l) (hl : l.length % 64 = 0) : s.h = (blocks l).foldl compress
    initial := by
  have hnil := length_eq_zero_iff.mp (h.length_block.trans hl)
  obtain ⟨done, rfl, -, hh⟩ := h.blocks_eq
  rw [hh, hnil, append_nil]

/-- **Data is absorbed** behind what was there. -/
theorem holds_absorb (s : State) (data : List Byte) : ∀ l, s.Holds l → (absorb s data).Holds
    (l ++ data) := by
  fun_induction absorb s data with
  | case1 s => exact fun l h => by rwa [append_nil]
  | case2 s data _ take block hfull ih =>
    rintro l ⟨done, rfl, hdone, hh⟩
    have := ih (done ++ block) ⟨done, rfl, hdone, hh⟩
    rwa [append_assoc, append_assoc, take_append_drop, ← append_assoc] at this
  | case3 s data _ take block hfull ih =>
    rintro l ⟨done, rfl, hdone, hh⟩
    have hblock : block.length = 64 := by
      have := s.block.2
      simp only [block, take, length_append, length_take, not_lt] at hfull ⊢
      omega
    have := ih (done ++ block) ⟨done ++ block, (append_nil _).symm, by rw [length_append]; omega, by
      rw [blocks_concat hblock done hdone, foldl_concat, hh]⟩
    rwa [append_assoc, append_assoc, take_append_drop, ← append_assoc] at this

theorem State.Holds.update (h : s.Holds l) (data : List Byte) : (update s data).Holds (l ++ data) :=
  holds_absorb _ data l ⟨h.blocks_eq⟩

theorem total_absorb (s : State) (data : List Byte) : (absorb s data).total = s.total := by
  fun_induction absorb s data with
  | case1 => rfl
  | case2 _ _ _ _ _ _ ih | case3 _ _ _ _ _ _ ih => exact ih

/-- The calls of `update`. -/
theorem updates (pieces : List (List Byte)) :
    (pieces.foldl update {}).Holds pieces.flatten ∧
      (pieces.foldl update {}).total = pieces.flatten.length % 2 ^ 64 := by
  induction pieces using List.reverseRecOn with
  | nil => exact ⟨⟨[], rfl, rfl, by rw [blocks, if_pos (by decide)]; rfl⟩, rfl⟩
  | append_singleton pieces piece ih =>
    rw [foldl_concat, flatten_concat, length_append]
    refine ⟨ih.1.update piece, ?_⟩
    rw [update, total_absorb]
    change ((pieces.foldl update {}).total + piece.length) % 2 ^ 64 = _
    rw [ih.2, Nat.mod_add_mod]

/-- **`final` pads.** -/
theorem final_eq (h : s.Holds l) (htotal : s.total = l.length) (hl : l.length < 2 ^ 61) : final
    s = digest l := by
  have h₁ := h.update [0x80]
  have hused : (update s [0x80]).block.1.length = (l.length + 1) % 64 := by
    rw [h₁.length_block, length_append]
    rfl
  have hwant : (if (l.length + 1) % 64 ≤ 56 then 56 - (l.length + 1) % 64
    else 64 + 56 - (l.length + 1) % 64) =
      (119 - l.length % 64) % 64 := by
    split_ifs <;> omega
  have hpad := (h₁.update (List.replicate ((119 - l.length % 64) % 64) 0)).update
    (beBytes 8 (8 * l.length))
  rw [final, htotal, Nat.mod_eq_of_lt (by omega), Nat.mul_comm l.length 8]
  rw [hused, hwant, hpad.h_eq ?_, digest, pad, Words.bytes_eq]
  · simp only [append_assoc, cons_append, nil_append]
  · simp only [length_append, length_singleton, length_replicate, length_beBytes]
    omega

/-- **Streaming.**  However a message is cut into `update` calls, `final` yields its digest: the
compression function folded over the blocks of the padded message, which are all of it. -/
theorem streaming (pieces : List (List Byte)) (hlen : pieces.flatten.length < 2 ^ 61) :
    final (pieces.foldl update {}) = digest pieces.flatten ∧
      (pad pieces.flatten).length % 64 = 0 := by
  obtain ⟨hholds, htotal⟩ := updates pieces
  refine ⟨final_eq hholds (htotal.trans (Nat.mod_eq_of_lt (by omega))) hlen, ?_⟩
  simp only [pad, length_append, length_cons, length_replicate, length_beBytes]
  omega

theorem streaming_abc : final ([[97], [98, 99]].foldl update {}) = digest [97, 98, 99] :=
  (streaming [[97], [98, 99]] (by decide)).1

-- the digest of "abc" that FIPS 180 gives
example : digest [97, 98, 99] = [0xa9, 0x99, 0x3e, 0x36, 0x47, 0x06, 0x81, 0x6a, 0xba, 0x3e,
    0x25, 0x71, 0x78, 0x50, 0xc2, 0x6c, 0x9c, 0xd0, 0xd8, 0x9d] := by decide +kernel

end Sha1

end Cornet.Websocket
