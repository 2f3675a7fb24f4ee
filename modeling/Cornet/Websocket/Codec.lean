import Cornet.Websocket.Frame

/-!
# Websocket/Codec — the decoder reads what a peer writes, at any split

    parse (header ++ rest) = frame            parse (a proper part of the header) = needMore

and `applyMask` is the byte-wise XOR with the cycled key, so unmasking in runs is unmasking whole.
-/

namespace Cornet.Websocket

open List

/-! ## Masking -/

variable {key : UInt32} {l l' : List Byte} {i : ℕ}

theorem keyBytes_loadWord (b₀ b₁ b₂ b₃ : Byte) :
    keyBytes (loadWord b₀ b₁ b₂ b₃) = [b₀, b₁, b₂, b₃] := by
  simp only [keyBytes, keyByte, List.cons.injEq, and_true]
  refine ⟨?_, ?_, ?_, ?_⟩ <;> apply UInt8.eq_of_toBitVec_eq <;> ext i hi <;> interval_cases i <;>
    simp [loadWord]

theorem loadWord_keyBytes (key : UInt32) :
    loadWord (keyByte key 0) (keyByte key 1) (keyByte key 2) (keyByte key 3) = key := by
  apply UInt32.eq_of_toBitVec_eq
  ext i hi
  simp only [loadWord, keyByte, UInt32.toBitVec_or, UInt32.toBitVec_shiftLeft]
  simp [-UInt32.toUInt32_toUInt8]
  interval_cases i <;> simp

theorem keyByte_xor (a b : UInt32) (i : ℕ) : keyByte (a ^^^ b) i = keyByte a i ^^^ keyByte b i := by
  apply UInt8.eq_of_toBitVec_eq
  simp [keyByte, BitVec.ushiftRight_xor_distrib, BitVec.setWidth_xor]

@[simp] theorem length_xorKey : ∀ (i : ℕ) (l : List Byte), (xorKey key i l).length = l.length
  | _, [] => rfl
  | i, b :: l => by rw [xorKey, length_cons, length_cons, length_xorKey (i + 1) l]

/-- Masking in pieces, with the running offset, is masking whole. -/
theorem xorKey_append : ∀ (i : ℕ) (l : List Byte),
    xorKey key i (l ++ l') = xorKey key i l ++ xorKey key (i + l.length) l'
  | _, [] => rfl
  | i, b :: l => by
      rw [cons_append, xorKey, xorKey, xorKey_append (i + 1) l, length_cons,
        Nat.add_right_comm i 1]
      rfl

theorem xorKey_take : ∀ (i n : ℕ) (l : List Byte),
    (xorKey key i l).take n = xorKey key i (l.take n)
  | _, 0, _ => rfl
  | _, _ + 1, [] => rfl
  | i, n + 1, b :: l => by rw [xorKey, take_succ_cons, xorKey_take, take_succ_cons, xorKey]

theorem xorKey_drop : ∀ (i n : ℕ) (l : List Byte),
    (xorKey key i l).drop n = xorKey key (i + n) (l.drop n)
  | _, 0, _ => rfl
  | _, _ + 1, [] => rfl
  | i, n + 1, b :: l => by
      rw [xorKey, drop_succ_cons, xorKey_drop, drop_succ_cons, Nat.add_right_comm,
        Nat.add_assoc]

/-- Masking twice is the identity. -/
@[simp] theorem xorKey_xorKey : ∀ (i : ℕ) (l : List Byte), xorKey key i (xorKey key i l) = l
  | _, [] => rfl
  | i, b :: l => by
      rw [xorKey, xorKey, xorKey_xorKey (i + 1) l, UInt8.xor_assoc, UInt8.xor_self, UInt8.xor_zero]

theorem xorKey_add_four : ∀ (i : ℕ) (l : List Byte), xorKey key (i + 4) l = xorKey key i l
  | _, [] => rfl
  | i, b :: l => by
      rw [xorKey, xorKey, Nat.add_mod_right, Nat.add_right_comm i 4 1, xorKey_add_four (i + 1) l]

theorem xorKey_mod (i : ℕ) (l : List Byte) : xorKey key (i % 4) l = xorKey key i l := by
  induction i using Nat.strong_induction_on with
  | _ i ih =>
    by_cases h : i < 4
    · rw [Nat.mod_eq_of_lt h]
    · obtain ⟨j, rfl⟩ : ∃ j, i = j + 4 := ⟨i - 4, by omega⟩
      rw [Nat.add_mod_right, ih j (by omega), xorKey_add_four]

theorem maskTail_eq : ∀ (t : ℕ) (l : List Byte), t + l.length ≤ 4 →
    maskTail key t l = xorKey key t l
  | _, [], _ => rfl
  | t, b :: l, h => by
      rw [length_cons] at h
      rw [maskTail, xorKey, maskTail_eq (t + 1) l (by omega), Nat.mod_eq_of_lt (by omega)]

theorem maskWords_eq : ∀ l : List Byte, maskWords key l = xorKey key 0 l
  | [] => rfl
  | [_] => maskTail_eq 0 _ (by simp)
  | [_, _] => maskTail_eq 0 _ (by simp)
  | [_, _, _] => maskTail_eq 0 _ (by simp)
  | b₀ :: b₁ :: b₂ :: b₃ :: l => by
      obtain ⟨h₀, h₁, h₂, h₃, -⟩ : _ ∧ _ ∧ _ ∧ _ ∧ _ := by
        simpa only [keyBytes, List.cons.injEq] using keyBytes_loadWord b₀ b₁ b₂ b₃
      simp only [maskWords, keyByte_xor, h₀, h₁, h₂, h₃, maskWords_eq l]
      simp only [xorKey]
      rw [← xorKey_add_four 0 l]

/-- **`apply_mask` is the byte-wise XOR with the cycled key.** -/
theorem applyMask_eq : ∀ (i : ℕ) (l : List Byte), applyMask key i l = xorKey key i l
  | _, [] => rfl
  | i, b :: l => by
      rw [applyMask]
      split
      · rw [applyMask_eq (i + 1) l, xorKey]
      · rename_i h
        rw [maskWords_eq, ← xorKey_mod i, not_not.mp h]

/-- A text masked run by run, with the running offset. -/
def maskRuns (key : UInt32) : ℕ → List (List Byte) → List Byte
  | _, [] => []
  | i, run :: runs => applyMask key i run ++ maskRuns key (i + run.length) runs

theorem maskRuns_eq (key : UInt32) : ∀ (i : ℕ) (runs : List (List Byte)),
    maskRuns key i runs = xorKey key i runs.flatten
  | _, [] => rfl
  | i, run :: runs => by rw [maskRuns, applyMask_eq, maskRuns_eq, flatten_cons, xorKey_append]

theorem xorKey_eq_mapIdx (key : UInt32) : ∀ (i : ℕ) (l : List Byte),
    xorKey key i l = l.mapIdx fun j b => b ^^^ keyByte key ((i + j) % 4)
  | _, [] => rfl
  | i, b :: l => by
      rw [xorKey, xorKey_eq_mapIdx key (i + 1) l, mapIdx_cons]
      simp only [Nat.add_zero, Nat.add_assoc, Nat.add_comm 1]

/-- **`apply_mask`.**  Position `j` is XORed with key byte `(offset + j) mod 4`; runs with the
running offset give the same as the whole; and twice is not at all. -/
theorem applyMask_spec (key : UInt32) (offset : ℕ) (l : List Byte) :
    applyMask key offset l = l.mapIdx (fun j b => b ^^^ keyByte key ((offset + j) % 4)) ∧
      (∀ runs, maskRuns key offset runs = applyMask key offset runs.flatten) ∧
      applyMask key offset (applyMask key offset l) = l := by
  refine ⟨(applyMask_eq offset l).trans (xorKey_eq_mapIdx key offset l), fun runs => ?_, ?_⟩
  · rw [maskRuns_eq, applyMask_eq]
  · rw [applyMask_eq, applyMask_eq, xorKey_xorKey]

/-! ## Headers -/

/-- The 7-bit length field. -/
def len7 (n : ℕ) : ℕ := if n ≤ kMaxControlPayload then n else if n ≤ 0xFFFF then 126 else 127

/-- The extended length field. -/
def extBytes (n : ℕ) : List Byte :=
  if n ≤ kMaxControlPayload then [] else if n ≤ 0xFFFF then beBytes 2 n else beBytes 8 n

theorem lenBytes_eq (maskBit : Byte) (n : ℕ) :
    lenBytes maskBit n = (maskBit ||| UInt8.ofNat (len7 n)) :: extBytes n := by
  rw [lenBytes, len7, extBytes]
  split
  · rfl
  · split <;> rfl

theorem len7_lt (n : ℕ) : len7 n < 128 := by
  rw [len7]
  split
  · exact lt_of_le_of_lt ‹_› (by decide)
  · split <;> decide

theorem extendedLen_extBytes {n : ℕ} (h : n < 2 ^ 63) (rest : List Byte) :
    extendedLen (len7 n) (extBytes n ++ rest) = some (.ok (n, (extBytes n).length)) := by
  by_cases h₁ : n ≤ kMaxControlPayload
  · have h₂ : n ≠ 126 ∧ n ≠ 127 := by
      simp only [kMaxControlPayload] at h₁
      omega
    simp [extendedLen, len7, extBytes, h₁, h₂]
  · by_cases h₂ : n ≤ 0xFFFF
    · have hv : beNat (beBytes 2 n) = n := beNat_beBytes (by omega)
      have hlen : ¬ 2 + rest.length < 2 := by omega
      simp [extendedLen, len7, extBytes, h₁, h₂, hv, hlen]
    · have hv : beNat (beBytes 8 n) = n := beNat_beBytes (by omega)
      have h₃ : ¬ 0x7FFFFFFFFFFFFFFF < n := by omega
      simp [extendedLen, len7, extBytes, h₁, h₂, h₃, hv]

/-- An extended length that has not arrived in full is waited for. -/
theorem extendedLen_take {n k : ℕ} (rest : List Byte) (hk : k < (extBytes n).length) :
    extendedLen (len7 n) ((extBytes n ++ rest).take k) = none := by
  by_cases h₁ : n ≤ kMaxControlPayload
  · simp [extBytes, h₁] at hk
  · by_cases h₂ : n ≤ 0xFFFF
    · simp [extendedLen, len7, extBytes, h₁, h₂] at hk ⊢
      omega
    · simp [extendedLen, len7, extBytes, h₁, h₂] at hk ⊢
      omega

theorem first_byte (fin : Bool) (op : Opcode) :
    ((if fin then 0x80 else 0x00) ||| op.toByte) &&& 0x70 = 0 ∧
      Opcode.ofByte (((if fin then 0x80 else 0x00) ||| op.toByte) &&& 0x0F) = some op ∧
      decide (((if fin then 0x80 else 0x00) ||| op.toByte) &&& 0x80 ≠ 0) = fin := by
  cases fin <;> cases op <;> decide

theorem second_byte (n : ℕ) (hn : n < 128) :
    (decide ((0x80 ||| UInt8.ofNat n) &&& 0x80 ≠ 0) = true ∧
      ((0x80 ||| UInt8.ofNat n) &&& 0x7F).toNat = n) ∧
    (decide ((0x00 ||| UInt8.ofNat n) &&& 0x80 ≠ 0) = false ∧
      ((0x00 ||| UInt8.ofNat n) &&& 0x7F).toNat = n) := by
  revert n
  decide +kernel

def maskBit : Role → Byte
  | .server => 0x80
  | .client => 0x00

/-- The masking key of a header. -/
def keyPart (key : UInt32) : Role → List Byte
  | .server => keyBytes key
  | .client => []

theorem header_eq (role : Role) (f : WireFrame) : f.header role =
    ((if f.fin then 0x80 else 0x00) ||| f.opcode.toByte) ::
      (maskBit role ||| UInt8.ofNat (len7 f.payload.length)) ::
        (extBytes f.payload.length ++ keyPart f.key role) := by
  cases role
  · simp only [WireFrame.header, lenBytes_eq, keyPart, append_nil]
    rfl
  · simp only [WireFrame.header, lenBytes_eq, keyPart]
    rfl

theorem parse_cons_cons (role : Role) (fin : Bool) (op : Opcode) {n : ℕ} (hn : n < 128)
    (rest : List Byte) :
    parse role (((if fin then 0x80 else 0x00) ||| op.toByte) :: (maskBit role ||| UInt8.ofNat n) ::
      rest) = parseRest role fin op (role == .server) n rest := by
  obtain ⟨hrsv, hofByte, hfin⟩ := first_byte fin op
  obtain ⟨⟨hs, hsn⟩, hc, hcn⟩ := second_byte n hn
  cases role with
  | server =>
    rw [parse, if_neg (not_not.mpr hrsv), hofByte, hfin, show maskBit .server = 0x80 from rfl, hs,
      hsn]
    rfl
  | client =>
    rw [parse, if_neg (not_not.mpr hrsv), hofByte, hfin, show maskBit .client = 0x00 from rfl, hc,
      hcn]
    rfl

variable {role : Role} {f : WireFrame}

theorem parseRest_of_valid (hf : f.Valid) (rest : List Byte) :
    parseRest role f.fin f.opcode (role == .server) (len7 f.payload.length) rest =
      parseKey f.fin f.opcode (role == .server) rest
        (extendedLen (len7 f.payload.length) rest) := by
  have hfrag : ¬ (f.opcode.isControl = true ∧ f.fin = false) := fun h => by
    have := (hf.control h.1).1
    simp_all
  have hlong : ¬ (f.opcode.isControl = true ∧ kMaxControlPayload < len7 f.payload.length) := by
    intro h
    have hle := (hf.control h.1).2
    rw [len7, if_pos hle] at h
    omega
  rw [parseRest, if_neg (by cases role <;> simp), if_neg (by cases role <;> simp), if_neg hfrag,
    if_neg hlong]

/-- The frame the decoder reports for a header. -/
def WireFrame.decoded (role : Role) (f : WireFrame) : Frame :=
  { fin := f.fin
    opcode := f.opcode
    payloadLen := f.payload.length
    masked := role == .server
    maskKey := if role = .server then f.key else 0
    headerLen := (f.header role).length }

/-- **A whole header is read back**, whatever follows it. -/
theorem parse_header (hf : f.Valid) (rest : List Byte) :
    parse role (f.header role ++ rest) = .frame (f.decoded role) := by
  rw [header_eq, cons_append, cons_append, parse_cons_cons role f.fin f.opcode (len7_lt _),
    parseRest_of_valid hf, append_assoc, extendedLen_extBytes hf.length_lt]
  cases role with
  | client =>
    simp [parseKey, WireFrame.decoded, header_eq, keyPart]
    omega
  | server =>
    simp [parseKey, WireFrame.decoded, header_eq, keyPart, keyBytes, takeKey, loadWord_keyBytes]
    omega

/-- **A header that has not arrived in full is waited for**, never refused. -/
theorem parse_take_header (hf : f.Valid) (rest : List Byte) {k : ℕ}
    (hk : k < (f.header role).length) : parse role
      ((f.header role ++ rest).take k) = .needMore := by
  rw [header_eq] at hk ⊢
  rcases k with _ | _ | k
  · rfl
  · rfl
  · rw [cons_append, cons_append, take_succ_cons, take_succ_cons,
      parse_cons_cons role f.fin f.opcode (len7_lt _), parseRest_of_valid hf, append_assoc]
    simp only [length_cons, length_append] at hk
    by_cases hext : k < (extBytes f.payload.length).length
    · rw [extendedLen_take _ hext]
      rfl
    · -- the length is there, so the header is masked and its key is not
      obtain ⟨j, rfl⟩ := Nat.exists_eq_add_of_le (not_lt.mp hext)
      rw [take_length_add_append, extendedLen_extBytes hf.length_lt]
      cases role with
      | client =>
        simp only [keyPart, length_nil] at hk
        omega
      | server =>
        have hj : j < 4 := by
          simp only [keyPart, keyBytes, length_cons, length_nil] at hk
          omega
        simp only [parseKey, beq_self_eq_true, if_true, drop_left, keyPart, keyBytes]
        interval_cases j <;> rfl

end Cornet.Websocket
