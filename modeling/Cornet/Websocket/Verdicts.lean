import Cornet.Websocket.Receiver

/-!
# Websocket/Verdicts — what one header decides

    w ──parse──▸ needMore            w ++ x ──▸ anything
    w ──parse──▸ frame f, error e    w ++ x ──▸ the same

An accepted window starts with the one header its fields have (`exists_header`), so writing and
parsing are inverse to each other.  No rule of the decoder looks past the bytes whose arrival it has
checked: a verdict survives every extension of the window, and reading piece by piece reaches the
verdict that reading at once does.
-/

namespace Cornet.Websocket

open List

variable {role : Role} {w : List Byte} {f : Frame}

/-! ## Accepted headers -/

theorem first_byte_eq (b : Byte) {op : Opcode} (hrsv : b &&& 0x70 = 0)
    (hop : Opcode.ofByte (b &&& 0x0F) = some op) :
    b = (if decide (b &&& 0x80 ≠ 0) then 0x80 else 0x00) ||| op.toByte := by
  revert b op
  have h : ∀ n < 256, UInt8.ofNat n &&& 0x70 = 0 →
      ∀ op ∈ Opcode.ofByte (UInt8.ofNat n &&& 0x0F), UInt8.ofNat n =
        (if decide (UInt8.ofNat n &&& 0x80 ≠ 0) then 0x80 else 0x00) ||| op.toByte := by
    decide +kernel
  intro b op hrsv hop
  simpa [hop] using h b.toNat b.toNat_lt (by simpa using hrsv)

/-- The mask bit and the 7-bit length make up the second byte. -/
theorem second_byte_eq (b : Byte) :
    b = (if b &&& 0x80 ≠ 0 then 0x80 else 0x00) ||| UInt8.ofNat (b &&& 0x7F).toNat := by
  have h : ∀ n < 256, UInt8.ofNat n = (if UInt8.ofNat n &&& 0x80 ≠ 0 then 0x80 else 0x00) |||
      UInt8.ofNat (UInt8.ofNat n &&& 0x7F).toNat := by
    decide +kernel
  simpa using h b.toNat b.toNat_lt

/-- An accepted length is written in the shortest form there is for it. -/
theorem extendedLen_eq_ok {len v ext : ℕ} {rest : List Byte} (hlen : len < 128)
    (h : extendedLen len rest = some (.ok (v, ext))) :
    v < 2 ^ 63 ∧ len = len7 v ∧ ext = (extBytes v).length ∧ rest.take ext = extBytes v := by
  simp only [extendedLen] at h
  split_ifs at h with h126 hshort hv h127 hshort hbig hv
  · simp at h
  · obtain ⟨rfl, rfl⟩ : beNat (rest.take 2) = v ∧ 2 = ext := by simpa using h
    have hl : (rest.take 2).length = 2 := by simpa using not_lt.mp hshort
    have hlt := beNat_lt (rest.take 2)
    have hback := beBytes_beNat (rest.take 2)
    rw [hl] at hlt hback
    have hle : beNat (rest.take 2) ≤ 0xFFFF := by omega
    refine ⟨by omega, ?_⟩
    simp [len7, extBytes, hv, hle, hback, h126, hl]
  · simp at h
  · simp at h
  · obtain ⟨rfl, rfl⟩ : beNat (rest.take 8) = v ∧ 8 = ext := by simpa using h
    have hl : (rest.take 8).length = 8 := by simpa using not_lt.mp hshort
    have hback := beBytes_beNat (rest.take 8)
    rw [hl] at hback
    have hcontrol : ¬ beNat (rest.take 8) ≤ kMaxControlPayload := by
      simp only [kMaxControlPayload]
      omega
    refine ⟨by omega, ?_⟩
    simp [len7, extBytes, hv, hcontrol, hback, h127, hl]
  · obtain ⟨rfl, rfl⟩ : len = v ∧ 0 = ext := by simpa using h
    have hle : len ≤ kMaxControlPayload := by
      simp only [kMaxControlPayload]
      omega
    refine ⟨by omega, ?_⟩
    simp [len7, extBytes, hle]

theorem takeKey_eq_some {l : List Byte} {key : UInt32} (h : takeKey l = some key) :
    l.take 4 = keyBytes key := by
  match l, h with
  | b₀ :: b₁ :: b₂ :: b₃ :: l, h =>
    obtain rfl : loadWord b₀ b₁ b₂ b₃ = key := by simpa [takeKey] using h
    rw [keyBytes_loadWord]
    rfl

theorem le_of_len7_le {n : ℕ} (h : len7 n ≤ kMaxControlPayload) : n ≤ kMaxControlPayload := by
  rw [len7] at h
  split_ifs at h with hle hmid
  · exact hle
  · exact absurd h (by decide)
  · exact absurd h (by decide)

/-- What an accepted header is made of after its first two bytes. -/
theorem parseKey_eq_frame {fin : Bool} {op : Opcode} {len : ℕ} {rest : List Byte} (hlen : len < 128)
    (h : parseKey fin op (role == .server) rest (extendedLen len rest) = .frame f) :
    ∃ v key, v < 2 ^ 63 ∧ len = len7 v ∧ extBytes v ++ keyPart key role <+: rest ∧
      f = ⟨fin, op, v, role == .server, if role = .server then key else 0,
        2 + (extBytes v ++ keyPart key role).length⟩ := by
  match hext : extendedLen len rest, h with
  | some (.ok (v, ext)), h =>
    obtain ⟨hv, hlen7, hlength, htake⟩ := extendedLen_eq_ok hlen hext
    cases role with
    | client =>
      refine ⟨v, 0, hv, hlen7, ?_, ?_⟩
      · simpa [keyPart, ← htake] using take_prefix _ rest
      · simpa [parseKey, keyPart, hlength] using h.symm
    | server =>
      cases hkey : takeKey (rest.drop ext) with
      | none => simp [parseKey, hkey] at h
      | some key =>
        refine ⟨v, key, hv, hlen7, ?_, ?_⟩
        · rw [keyPart, ← takeKey_eq_some hkey, ← htake, ← take_add]
          exact take_prefix _ rest
        · obtain rfl : f = _ := by simpa [parseKey, hkey] using h.symm
          simp [keyPart, keyBytes, hlength, add_assoc]

/-- The mask bit has to be the one of the role. -/
theorem parseRest_eq_frame {fin masked : Bool} {op : Opcode} {len : ℕ} {rest : List Byte}
    (h : parseRest role fin op masked len rest = .frame f) :
    masked = (role == .server) ∧ (op.isControl = true → fin = true ∧ len ≤ kMaxControlPayload) ∧
      parseKey fin op (role == .server) rest (extendedLen len rest) = .frame f := by
  rw [parseRest] at h
  split_ifs at h with hunmasked hmasked hfrag hlong
  obtain rfl : masked = (role == .server) := by
    cases role <;> cases masked <;> simp_all
  refine ⟨rfl, fun hop => ⟨?_, ?_⟩, h⟩
  · simpa [hop] using hfrag
  · simpa [hop] using hlong

/-- **An accepted window starts with a header**, of a frame that may be sent. -/
theorem exists_header (h : parse role w = .frame f) :
    ∃ (g : WireFrame) (rest : List Byte), g.Valid ∧ w = g.header role ++ rest ∧
      f = g.decoded role := by
  match w, h with
  | b₀ :: b₁ :: rest, h =>
    rw [parse] at h
    split_ifs at h with hrsv
    cases hop : Opcode.ofByte (b₀ &&& 0x0F) with
    | none => simp [hop] at h
    | some op =>
      simp only [hop] at h
      obtain ⟨hmask, hcontrol, h⟩ := parseRest_eq_frame h
      have hlen : (b₁ &&& 0x7F).toNat < 128 := by
        rw [UInt8.toNat_and]
        exact lt_of_le_of_lt Nat.and_le_right (by decide)
      obtain ⟨v, key, hv, hlen7, ⟨tail, rfl⟩, rfl⟩ := parseKey_eq_frame hlen h
      have h₀ := first_byte_eq b₀ (not_not.mp hrsv) hop
      have h₁ : b₁ = maskBit role ||| UInt8.ofNat (len7 v) := by
        rw [← hlen7]
        nth_rewrite 1 [second_byte_eq b₁]
        congr 1
        cases role with
        | client => exact if_neg (of_decide_eq_false hmask)
        | server => exact if_pos (of_decide_eq_true hmask)
      refine ⟨⟨b₀ &&& 0x80 ≠ 0, op, List.replicate v 0, key⟩, tail,
        ⟨by simpa using hv, fun hop => ?_⟩,
        ?_, ?_⟩
      · obtain ⟨hfin, hle⟩ := hcontrol hop
        refine ⟨hfin, ?_⟩
        have hcontrol := le_of_len7_le (hlen7 ▸ hle)
        simpa using hcontrol
      · rw [header_eq, h₁]
        simpa using h₀
      · simp [WireFrame.decoded, header_eq]
        omega

/-! ## Writing and parsing -/

/-- A header that masks with a key other than zero, or does not mask, is one `write_frame_header`
writes. -/
theorem header_eq_writeFrameHeader {g : WireFrame} (h : role = .server → g.key ≠ 0) :
    g.header role = writeFrameHeader g.fin g.opcode g.payload.length
      (if role = .server then g.key else 0) := by
  cases role with
  | client => simp [WireFrame.header, writeFrameHeader]
  | server => simp [WireFrame.header, writeFrameHeader, h rfl]

/-- The role a header with this key is meant for. -/
def roleOf (maskKey : UInt32) : Role := if maskKey ≠ 0 then .server else .client

theorem roleOf_eq_server {maskKey : UInt32} : roleOf maskKey = .server ↔ maskKey ≠ 0 := by
  rw [roleOf]
  split_ifs with h <;> simpa using h

/-- **Writing and parsing a header are inverse to each other**: what is written is read back,
whatever follows, and what is accepted is, byte for byte, what is written for its fields. -/
theorem writeFrameHeader_parse_inverse :
    (∀ (fin : Bool) (op : Opcode) (len : ℕ) (key : UInt32) (rest : List Byte), len < 2 ^ 63 →
      (op.isControl = true → fin = true ∧ len ≤ kMaxControlPayload) →
      parse (roleOf key) (writeFrameHeader fin op len key ++ rest) =
        .frame ⟨fin, op, len, key ≠ 0, key, (writeFrameHeader fin op len key).length⟩) ∧
    ∀ (role : Role) (w : List Byte) (f : Frame), parse role w = .frame f →
      (f.masked = true → f.maskKey ≠ 0) →
      roleOf f.maskKey = role ∧ f.headerLen ≤ w.length ∧
        w.take f.headerLen = writeFrameHeader f.fin f.opcode f.payloadLen f.maskKey := by
  constructor
  · intro fin op len key rest hlen hcontrol
    have hvalid : WireFrame.Valid ⟨fin, op, List.replicate len 0, key⟩ :=
      ⟨by simpa using hlen, fun hop => by simpa using hcontrol hop⟩
    have hkey : (if roleOf key = .server then key else 0) = key := by
      by_cases h : key = 0 <;> simp [roleOf, h]
    have hheader : WireFrame.header (roleOf key) ⟨fin, op, List.replicate len 0, key⟩ =
        writeFrameHeader fin op len key := by
      refine (header_eq_writeFrameHeader fun h => roleOf_eq_server.mp h).trans ?_
      rw [length_replicate, hkey]
    have hread : parse (roleOf key) _ = _ := parse_header hvalid rest
    rw [hheader] at hread
    rw [hread, WireFrame.decoded, hheader, hkey]
    by_cases h : key = 0 <;> simp [roleOf, h]
  · intro role w f h hkey
    obtain ⟨g, rest, hg, rfl, rfl⟩ := exists_header h
    have hne : role = .server → g.key ≠ 0 := by
      rintro rfl
      simpa [WireFrame.decoded] using hkey
    refine ⟨?_, by simp [WireFrame.decoded], ?_⟩
    · cases role with
      | client => rfl
      | server => simp [WireFrame.decoded, roleOf, hne rfl]
    · rw [WireFrame.decoded, take_left, header_eq_writeFrameHeader hne]

theorem writeFrameHeader_parse_inverse_text :
    parse .server (writeFrameHeader true .text 70000 0x4B53414D ++ [0x00]) =
        .frame ⟨true, .text, 70000, true, 0x4B53414D, 14⟩ ∧
      [0x89, 0x05] = writeFrameHeader true .ping 5 0 :=
  ⟨writeFrameHeader_parse_inverse.1 true .text 70000 0x4B53414D [0x00] (by decide) (by decide),
    (writeFrameHeader_parse_inverse.2 .client [0x89, 0x05, 0x48] ⟨true, .ping, 5, false, 0, 2⟩
      (by decide)
      (by decide)).2.2⟩

/-! ## Verdicts and splitting -/

theorem extendedLen_append {len : ℕ} {rest : List Byte} {r : Except WebsocketError (ℕ × ℕ)}
    (h : extendedLen len rest = some r) (x : List Byte) : extendedLen len (rest ++ x) = some r := by
  have grows {k : ℕ} (hk : ¬ rest.length < k) :
      ¬ (rest ++ x).length < k ∧ (rest ++ x).take k = rest.take k := by
    rw [length_append]
    exact ⟨by omega, take_append_of_le_length (not_lt.mp hk)⟩
  by_cases h126 : len = 126
  · by_cases hshort : rest.length < 2
    · simp [extendedLen, h126, hshort] at h
    · rw [extendedLen, if_pos h126, if_neg hshort] at h
      rw [extendedLen, if_pos h126, if_neg (grows hshort).1, (grows hshort).2]
      exact h
  · by_cases h127 : len = 127
    · by_cases hshort : rest.length < 8
      · simp [extendedLen, h127, hshort] at h
      · rw [extendedLen, if_neg h126, if_pos h127, if_neg hshort] at h
        rw [extendedLen, if_neg h126, if_pos h127, if_neg (grows hshort).1, (grows hshort).2]
        exact h
    · rw [extendedLen, if_neg h126, if_neg h127] at h ⊢
      exact h

theorem parseKey_error_append {fin masked : Bool} {op : Opcode} {len : ℕ} {rest : List Byte}
    {e : WebsocketError} (h : parseKey fin op masked rest (extendedLen len rest) = .error e)
    (x : List Byte) : parseKey fin op masked (rest ++ x) (extendedLen len (rest ++ x)) = .error
      e := by
  match hext : extendedLen len rest, h with
  | some (.error e'), h =>
    rw [extendedLen_append hext]
    exact h
  | some (.ok (v, ext)), h =>
    rw [parseKey] at h
    split at h
    · split at h <;> cases h
    · cases h

theorem parse_error_append {e : WebsocketError} (h : parse role w = .error e) (x : List Byte) :
    parse role (w ++ x) = .error e := by
  match w, h with
  | b₀ :: b₁ :: rest, h =>
    rw [cons_append, cons_append]
    rw [parse] at h ⊢
    split_ifs at h ⊢ with hrsv
    · exact h
    · cases hop : Opcode.ofByte (b₀ &&& 0x0F) with
      | none => simpa [hop] using h
      | some op =>
        simp only [hop, parseRest] at h ⊢
        split_ifs at h ⊢
        · exact h
        · exact h
        · exact h
        · exact h
        · exact parseKey_error_append h x

/-- **A verdict is final**: no byte that comes later changes it. -/
theorem parse_append (h : parse role w ≠ .needMore) (x : List Byte) :
    parse role (w ++ x) = parse role w := by
  cases hw : parse role w with
  | needMore => exact absurd hw h
  | error e => exact parse_error_append hw x
  | frame f =>
    obtain ⟨g, rest, hg, rfl, rfl⟩ := exists_header hw
    rw [append_assoc, parse_header hg]

/-- A header is accepted at its last byte, not before. -/
theorem parse_take_of_lt {k : ℕ} (h : parse role w = .frame f) (hk : k < f.headerLen) :
    parse role (w.take k) = .needMore := by
  obtain ⟨g, rest, hg, rfl, rfl⟩ := exists_header h
  exact parse_take_header hg rest hk

namespace Session

/-- The header loop of `step`: the window is parsed, and while it wants more the next read is
added. -/
def awaitHeader (s : Session) : List (List Byte) → Parsed
  | [] => parse s.role s.inp.unread
  | l :: reads =>
    match parse s.role s.inp.unread with
    | .needMore => (s.filled l).awaitHeader reads
    | v => v

/-- Each read brings no more than `fill` has room for. -/
def Fits (s : Session) : List (List Byte) → Prop
  | [] => True
  | l :: reads => l.length ≤ s.fillBuffer.room ∧ (s.filled l).Fits reads

/-- **Reading piece by piece gives the verdict on the whole.** -/
theorem awaitHeader_eq {s : Session} {reads : List (List Byte)} (hs : s.inp.Ok) (h : s.Fits reads) :
    s.awaitHeader reads = parse s.role (s.inp.unread ++ reads.flatten) := by
  induction reads generalizing s with
  | nil => simp [awaitHeader]
  | cons l reads ih =>
    obtain ⟨hl, hreads⟩ := h
    have hok := Receiver.ok_fillBuffer hs
    have hunread : (s.filled l).inp.unread = s.inp.unread ++ l :=
      hok.unread_put.trans (congrArg (· ++ l) (Receiver.unread_fillBuffer s))
    rw [awaitHeader, flatten_cons, ← append_assoc]
    split
    · rw [ih (hok.put hl) hreads, hunread]
      rfl
    · rename_i v hv
      rw [append_assoc, parse_append hv]

end Session

/-- **The decoder is incremental**: on a fresh decoder a verdict is the verdict on every extension,
a header is waited for up to its last byte, and so the loop of `step` reaches the same verdict
however the bytes are split over reads. -/
theorem parse_incremental (role : Role) :
    (∀ w x : List Byte, parse role w ≠ .needMore → parse role (w ++ x) = parse role w) ∧
    (∀ (w : List Byte) (f : Frame), parse role w = .frame f →
      f.headerLen ≤ w.length ∧ ∀ k < f.headerLen, parse role (w.take k) = .needMore) ∧
    ∀ (s : Session) (reads : List (List Byte)), s.role = role → s.inp.Ok → s.Fits reads →
      s.awaitHeader reads = parse role (s.inp.unread ++ reads.flatten) := by
  refine ⟨fun w x h => parse_append h x, fun w f h => ⟨?_, fun k hk => parse_take_of_lt h hk⟩, ?_⟩
  · obtain ⟨g, rest, -, rfl, rfl⟩ := exists_header h
    simp [WireFrame.decoded]
  · rintro s reads rfl hs hreads
    exact Session.awaitHeader_eq hs hreads

/-- A Ping of two bytes whose header comes one byte at a time. -/
theorem parse_incremental_ping :
    parse .client ([0x89, 0x02] ++ [0x68, 0x69]) = .frame ⟨true, .ping, 2, false, 0, 2⟩ ∧
      parse .client ([0x89, 0x02].take 1) = .needMore ∧
        (Session.new .client 100 0 [] 1).awaitHeader [[0x89], [0x02], [0x68, 0x69]] =
          .frame ⟨true, .ping, 2, false, 0, 2⟩ := by
  obtain ⟨hext, hcut, hreads⟩ := parse_incremental .client
  have hping : parse .client [0x89, 0x02] = .frame ⟨true, .ping, 2, false, 0, 2⟩ := by decide
  refine ⟨(hext _ _ (by decide)).trans hping, (hcut _ _ hping).2 1 (by decide), ?_⟩
  exact (hreads (.new .client 100 0 [] 1) [[0x89], [0x02], [0x68, 0x69]] rfl ⟨by decide, by decide⟩
    ⟨by decide, by decide, by decide, trivial⟩).trans (by decide)

end Cornet.Websocket
