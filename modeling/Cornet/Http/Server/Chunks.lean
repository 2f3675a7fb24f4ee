import Cornet.Http.Server.Framing

/-!
# Http/Server/Chunks — what the body writer puts on the wire

    write d   ↦   [head]  size CRLF  d  CRLF            finish   ↦   [head]  0 CRLF CRLF

One call of the writer is one to three writes to the transport.  Either all of its bytes leave and
the staging buffer is empty again, or a write fails among them and the call is given up there.
-/

namespace Cornet.Http.Server

open List

/-- A chunk on the wire; an empty write sends nothing. -/
def chunkText (data : List Byte) : List Byte :=
  if data = [] then [] else writeChunkSize data.length ++ data ++ crlf

/-- The chunked coding of RFC 9112 read back, without extensions and trailers: what the chunks carry
and what is behind the last one. -/
def decodeChunks : ℕ → List Byte → Option (List Byte × List Byte)
  | 0, _ => none
  | fuel + 1, l =>
    let digits := l.takeWhile isHex
    let n := hexadecimal digits
    let rest := l.drop (digits.length + 2)
    if digits = [] ∨ (l.drop digits.length).take 2 ≠ crlf ∨ (rest.drop n).take 2 ≠ crlf then none
    else if n = 0 then some ([], rest.drop 2)
    else (decodeChunks fuel (rest.drop (n + 2))).map fun r => (rest.take n ++ r.1, r.2)

theorem decodeChunks_chunk {data : List Byte} (hlt : data.length < 16 ^ 16) (fuel : ℕ)
    (l : List Byte) :
    decodeChunks (fuel + 1) (writeChunkSize data.length ++ (data ++ (crlf ++ l))) =
      if data = [] then some ([], l) else (decodeChunks fuel l).map fun r =>
        (data ++ r.1, r.2) := by
  obtain ⟨digits, heq, hcanonical, hval⟩ := exists_writeChunkSize hlt
  have htake : (digits ++ crlf ++ (data ++ (crlf ++ l))).takeWhile isHex = digits := by
    rw [append_assoc, takeWhile_append_of_pos hcanonical.digits]
    exact append_nil digits
  have hdrop : (digits ++ crlf ++ (data ++ (crlf ++ l))).drop (digits.length + 2) = data ++
    (crlf ++ l) :=
    drop_left' (length_append ..)
  have htwo : (data ++ (crlf ++ l)).drop (data.length + 2) = l := by
    rw [← append_assoc]
    exact drop_left' (length_append ..)
  rw [heq, decodeChunks, htake, hval, hdrop, append_assoc, drop_left, drop_left, take_left, htwo,
    if_neg (by
    simp [hcanonical.ne_nil, crlf])]
  by_cases hd : data = [] <;> simp [hd, crlf]

/-- **What the writer sends is read back**: the data of all writes, and what is behind it
untouched. -/
theorem decodeChunks_chunks {chunks : List (List Byte)} (hlt : ∀ d ∈ chunks, d.length < 16 ^ 16)
    (l : List Byte) :
    ∀ fuel > chunks.length, decodeChunks fuel (chunks.flatMap chunkText ++ (Conn.kTerm ++ l)) = some
      (chunks.flatten, l) := by
  induction chunks with
  | nil =>
    rintro (_ | fuel) hfuel
    · cases hfuel
    · rw [show Conn.kTerm = writeChunkSize 0 ++ crlf by decide +kernel, append_assoc]
      exact (decodeChunks_chunk (by decide) fuel l).trans (if_pos rfl)
  | cons d chunks ih =>
    rintro (_ | fuel) hfuel
    · cases hfuel
    · have ih := ih fun x hx => hlt x (mem_cons_of_mem _ hx)
      rw [flatMap_cons, flatten_cons, chunkText]
      split_ifs with hd
      · rw [hd, nil_append, nil_append]
        exact ih _ (Nat.lt_of_succ_lt hfuel)
      · have hchunk := decodeChunks_chunk (hlt d mem_cons_self) fuel
          (chunks.flatMap chunkText ++ (Conn.kTerm ++ l))
        rw [if_neg hd, ih fuel (Nat.lt_of_succ_lt_succ hfuel), Option.map_some] at hchunk
        simpa only [append_assoc] using hchunk

namespace Conn

variable {c c₁ c₂ : Conn} {l l₁ l₂ : List Byte}

/-- All of `l` has left, and the staging buffer is empty again. -/
structure Whole (c : Conn) (l : List Byte) (c' : Conn) : Prop where
  wire_eq : c'.wire = c.wire ++ l
  later : ∃ k, c'.socket = fun i => c.socket (k + i)
  idle : c'.streamOut.Holds []

/-- A write failed: a part of `l` has left, and the call was given up there. -/
structure Cut (c : Conn) (l : List Byte) (c' : Conn) : Prop where
  part : ∃ p t, l = p ++ t ∧ t ≠ [] ∧ c'.wire = c.wire ++ p
  failed : ∃ k, c.socket k ≠ none ∧ c'.socket = fun i => c.socket (k + 1 + i)

/-- `c'` is `c` after the writer gave `l` to the transport: all of it left, or a write failed in
it. -/
def Puts (c : Conn) (l : List Byte) (c' : Conn) : Prop := c.Whole l c' ∨ c.Cut l c'

theorem Whole.alive (h : c.Whole l c₁) (halive : c.socket = live) : c₁.socket = live := by
  obtain ⟨k, hk⟩ := h.later
  rw [hk, halive]
  rfl

theorem Cut.not_alive (h : c.Cut l c₁) : c.socket ≠ live := by
  obtain ⟨k, hk, -⟩ := h.failed
  intro halive
  rw [halive] at hk
  exact hk rfl

theorem Whole.whole (h₁ : c.Whole l₁ c₁) (h₂ : c₁.Whole l₂ c₂) : c.Whole (l₁ ++ l₂) c₂ := by
  obtain ⟨k₁, hk₁⟩ := h₁.later
  obtain ⟨k₂, hk₂⟩ := h₂.later
  refine ⟨by rw [h₂.wire_eq, h₁.wire_eq, append_assoc], ⟨k₁ + k₂, ?_⟩, h₂.idle⟩
  rw [hk₂, hk₁]
  simp only [Nat.add_assoc]

theorem Whole.cut (h₁ : c.Whole l₁ c₁) (h₂ : c₁.Cut l₂ c₂) : c.Cut (l₁ ++ l₂) c₂ := by
  obtain ⟨k₁, hk₁⟩ := h₁.later
  obtain ⟨k₂, hne, hk₂⟩ := h₂.failed
  obtain ⟨p, t, hsplit, ht, hwire⟩ := h₂.part
  rw [hk₁] at hne
  refine ⟨⟨l₁ ++ p, t, by rw [hsplit, append_assoc], ht, ?_⟩, k₁ + k₂, hne, ?_⟩
  · rw [hwire, h₁.wire_eq, append_assoc]
  · rw [hk₂, hk₁]
    simp only [Nat.add_assoc]

theorem Whole.puts (h₁ : c.Whole l₁ c₁) (h₂ : c₁.Puts l₂ c₂) : c.Puts (l₁ ++ l₂) c₂ :=
  h₂.imp h₁.whole h₁.cut

/-- A call that was given up keeps the rest back. -/
theorem Cut.append (h : c.Cut l₁ c₁) (l₂ : List Byte) : c.Cut (l₁ ++ l₂) c₁ := by
  obtain ⟨p, t, hsplit, ht, hwire⟩ := h.part
  exact ⟨⟨p, t ++ l₂, by rw [hsplit, append_assoc], by simp [ht], hwire⟩, h.failed⟩

/-! ## The transport -/

theorem send_ok (h : (c.send l).2 = true) : (c.send l).1.wire = c.wire ++ l := by
  rw [send] at h ⊢
  dsimp only at h ⊢
  cases hs : c.socket 0 with
  | none => rfl
  | some n =>
    rw [hs, taken, decide_eq_true_iff] at h
    rw [taken, take_of_length_le h]

theorem send_cut (h : (c.send l).2 = false) : c.socket 0 ≠ none ∧
    ∃ p t, l = p ++ t ∧ t ≠ [] ∧ (c.send l).1.wire = c.wire ++ p := by
  rw [send] at h ⊢
  dsimp only at h ⊢
  cases hs : c.socket 0 with
  | none =>
    rw [hs] at h
    cases h
  | some n =>
    rw [hs, taken, decide_eq_false_iff_not] at h
    refine ⟨by simp, l.take n, l.drop n, (take_append_drop n l).symm, ?_, rfl⟩
    rwa [Ne, drop_eq_nil_iff]

@[simp] theorem streamOut_send : (c.send l).1.streamOut = c.streamOut := rfl

@[simp] theorem headersStaged_send : (c.send l).1.headersStaged = c.headersStaged := rfl

theorem send_of_alive (h : c.socket = live) (l : List Byte) :
    c.send l = ({ c with wire := c.wire ++ l }, true) := by
  have hc : c = { c with socket := live } := by rw [← h]
  rw [hc]
  rfl

theorem sendAll_of_alive (ls : List (List Byte)) {c : Conn} (h : c.socket = live) :
    sendAll ls c = ({ c with wire := c.wire ++ ls.flatten }, true) := by
  induction ls generalizing c with
  | nil =>
    rw [flatten_nil, append_nil]
    rfl
  | cons l ls ih =>
    rw [sendAll, send_of_alive h, if_pos rfl, flatten_cons, ← append_assoc]
    exact ih (c := { c with wire := c.wire ++ l }) h

/-! ## Flushing the stream -/

/-- The header section, if it has not left yet. -/
def unsent (c : Conn) : List Byte := if c.headersStaged then c.stagedHead else []

theorem flushStream_of_holds (h : c.streamOut.Holds l) (hl : l ≠ []) : c.flushStream =
    (let s := { c with headersStaged := false }.send (c.unsent ++ l)
     if s.2 then ({ s.1 with streamOut := s.1.streamOut.clear }, true) else (s.1, false)) := by
  have hsize : c.streamOut.size ≠ 0 := by
    rw [h.size_eq]
    exact fun h0 => hl (length_eq_zero_iff.mp h0)
  have hbytes : c.streamBytes = c.unsent ++ l := by
    rw [streamBytes, h.size_eq, h.view_eq]
    rfl
  rw [flushStream, if_neg (by simp [OutBuffer.failed, h.err_eq]), if_neg hsize, hbytes]

/-- **One flush**: the bytes leave, or the write fails. -/
theorem flushStream_spec (h : c.streamOut.Holds l) (hl : l ≠ []) :
    c.flushStream.1.headersStaged = false ∧ c.flushStream.1.streamFinished = c.streamFinished ∧
      (c.flushStream.2 = true ∧ c.Whole (c.unsent ++ l) c.flushStream.1 ∨
        c.flushStream.2 = false ∧ c.Cut (c.unsent ++ l) c.flushStream.1) := by
  rw [flushStream_of_holds h hl]
  dsimp only
  cases hs : ({ c with headersStaged := false }.send (c.unsent ++ l)).2 with
  | true =>
    rw [if_pos rfl]
    exact ⟨rfl, rfl, .inl ⟨rfl, send_ok hs, ⟨1, rfl⟩, h.clear⟩⟩
  | false =>
    obtain ⟨hfailed, hpart⟩ := send_cut hs
    rw [if_neg (by simp)]
    refine ⟨rfl, rfl, .inr ⟨rfl, hpart, 0, hfailed, ?_⟩⟩
    simp only [Nat.zero_add]
    rfl

/-! ## The writer's calls -/

theorem holds_stage (h : c.streamOut.Holds l₁) (l₂ : List Byte) (hl : l₂.length < 2 ^ 32)
    (hroom : l₁.length + l₂.length ≤ c.streamOut.cap) : (c.stage l₂).streamOut.Holds (l₁ ++ l₂) :=
  h.put hl hroom

/-- Staging is not sending. -/
theorem Puts.of_stage (h : (c.stage l₁).Puts l₂ c₁) : c.Puts l₂ c₁ :=
  h.imp (fun h => ⟨h.wire_eq, h.later, h.idle⟩) fun h => ⟨h.part, h.failed⟩

theorem writeChunkSize_ne_nil (v : ℕ) : writeChunkSize v ≠ [] := by
  rw [writeChunkSize]
  simp [crlf]

/-- A chunk that does not fit the staging buffer, in three writes. -/
theorem writeLarge_spec {line data : List Byte} (hidle : c.streamOut.Holds [])
    (hline : line.length ≤ 18) (hne : line ≠ []) :
    (c.writeLarge line data).headersStaged = false ∧
      (c.writeLarge line data).streamFinished = c.streamFinished ∧
      c.Puts (c.unsent ++ (line ++ data ++ crlf)) (c.writeLarge line data) := by
  have hcap := hidle.cap_le
  have hstaged : (c.stage line).streamOut.Holds line :=
    holds_stage hidle _ (by omega) (by simp only [length_nil]; omega)
  obtain ⟨hun, hfin, ⟨hok, hline⟩ | ⟨hok, hcut⟩⟩ := flushStream_spec hstaged hne
  all_goals
    have htext : c.unsent ++ (line ++ data ++ crlf) = c.unsent ++ line ++ (data ++ crlf) := by
      simp only [append_assoc]
    rw [writeLarge, htext]
    dsimp only
    rw [hok]
  · rw [if_pos rfl]
    have hline : c.Whole (c.unsent ++ line) (c.stage line).flushStream.1 :=
      ⟨hline.1, hline.2, hline.3⟩
    generalize (c.stage line).flushStream.1 = c₁ at *
    cases h₂ : (c₁.send data).2 with
    | false =>
      obtain ⟨hfailed, hpart⟩ := send_cut h₂
      rw [if_neg (by simp)]
      have hcut : c₁.Cut data (c₁.send data).1 :=
        ⟨hpart, 0, hfailed, by simp only [Nat.zero_add]; rfl⟩
      exact ⟨hun, hfin, .inr (hline.cut (hcut.append crlf))⟩
    | true =>
      rw [if_pos rfl]
      have hdata : c₁.Whole data (c₁.send data).1 := ⟨send_ok h₂, ⟨1, rfl⟩, hline.idle⟩
      have hroom₂ : ([] : List Byte).length + crlf.length ≤ (c₁.send data).1.streamOut.cap :=
        le_trans (by decide) hdata.idle.cap_le
      obtain ⟨hun₃, hfin₃, hend⟩ := flushStream_spec
        (holds_stage hdata.idle crlf (by decide) hroom₂) (by simp [crlf])
      have hunsent : ((c₁.send data).1.stage crlf).unsent = [] := if_neg (by simp [stage, hun])
      rw [hunsent] at hend
      have hputs : (c₁.send data).1.Puts crlf ((c₁.send data).1.stage crlf).flushStream.1 :=
        Puts.of_stage (hend.imp And.right And.right)
      exact ⟨hun₃, hfin₃.trans hfin, hline.puts (hdata.puts hputs)⟩
  · rw [if_neg (by simp)]
    have hcut : c.Cut (c.unsent ++ line) (c.stage line).flushStream.1 := ⟨hcut.1, hcut.2⟩
    exact ⟨hun, hfin, .inr (hcut.append _)⟩

/-- **A chunk.** -/
theorem write_spec {data : List Byte} (hidle : c.streamOut.Holds [])
    (hsrc : c.resp.source = .streaming) (hhead : c.headOut.err = none) (hhdr : c.hdrOut.err = none)
    (hne : data ≠ []) (hl : data.length + 20 < 2 ^ 32) :
    (c.write data).headersStaged = false ∧ (c.write data).streamFinished = c.streamFinished ∧
      c.Puts (c.unsent ++ chunkText data) (c.write data) := by
  have hcap := hidle.cap_le
  have hmod : data.length % 2 ^ 32 = data.length := Nat.mod_eq_of_lt (by omega)
  have hpos := length_pos_iff.mpr hne
  have hline := length_writeChunkSize_le data.length
  have hrem : c.streamOut.remaining = c.streamOut.cap := by
    rw [OutBuffer.remaining, hidle.size_eq]
    rfl
  rw [write, hmod, if_neg (by simp [hsrc, OutBuffer.failed, hhead, hhdr, hne]), chunkText,
    if_neg hne]
  split
  · rename_i hfits
    rw [Nat.mod_eq_of_lt (by omega), hrem] at hfits
    have h₁ : (c.stage (writeChunkSize data.length)).streamOut.Holds (writeChunkSize data.length) :=
      holds_stage hidle _ (by omega) (by simp only [length_nil]; omega)
    have h₂ := holds_stage h₁ data (by omega)
      (by rw [stage, (OutBuffer.adds_put _).cap_eq]; omega)
    have h₃ := holds_stage h₂ crlf (by decide) (by
      rw [stage, stage, (OutBuffer.adds_put _).cap_eq, (OutBuffer.adds_put _).cap_eq,
        length_append]
      change _ + 2 ≤ _
      omega)
    obtain ⟨hun, hfin, hend⟩ := flushStream_spec h₃ (by simp [crlf])
    exact ⟨hun, hfin, (Puts.of_stage (hend.imp And.right And.right)).of_stage.of_stage⟩
  · exact writeLarge_spec hidle hline (writeChunkSize_ne_nil _)

/-- **The last chunk**, after which the stream counts as finished. -/
theorem finish_spec (hidle : c.streamOut.Holds []) (hsrc : c.resp.source = .streaming) :
    c.finish.headersStaged = false ∧
      (c.Whole (c.unsent ++ kTerm) c.finish ∧ c.finish.streamFinished = true ∨
        c.Cut (c.unsent ++ kTerm) c.finish ∧ c.finish.streamFinished = c.streamFinished) := by
  have hcap := hidle.cap_le
  have hlen : kTerm.length = 5 := by decide
  have hstaged : (c.stage kTerm).streamOut.Holds kTerm :=
    holds_stage hidle _ (by omega) (by simp only [length_nil]; omega)
  obtain ⟨hun, hfin, ⟨hok, hall⟩ | ⟨hok, hcut⟩⟩ := flushStream_spec hstaged (by decide)
  all_goals
    rw [finish, if_neg (by simp [hsrc])]
    dsimp only
    rw [hok]
  · rw [if_pos rfl]
    exact ⟨hun, .inl ⟨⟨hall.wire_eq, hall.later, hall.idle⟩, rfl⟩⟩
  · rw [if_neg (by simp)]
    exact ⟨hun, .inr ⟨⟨hcut.part, hcut.failed⟩, hfin⟩⟩

/-! ## Reading chunks back -/

/-- A chunked body is read from the front: what follows a chunk of it is a chunked body. -/
theorem chunks_after {d z : List Byte} {ds : List (List Byte)} (hd : d ≠ [])
    (hl : d.length < 16 ^ 16)
    (hds : ∀ x ∈ ds, x.length < 16 ^ 16) (h : chunkText d ++ z = ds.flatMap chunkText ++ kTerm) :
    ∃ ds' : List (List Byte), (∀ x ∈ ds', x.length < 16 ^ 16) ∧
      z = ds'.flatMap chunkText ++ kTerm := by
  have hread (r : List Byte) : hexadecimal ((chunkText d ++ r).takeWhile isHex) = d.length := by
    rw [chunkText, if_neg hd, append_assoc, append_assoc]
    exact hexadecimal_writeChunkSize hl _
  have hpos := length_pos_iff.mpr hd
  induction ds with
  | nil =>
    have hsize := hread z
    rw [h] at hsize
    have hzero : hexadecimal ((([] : List (List Byte)).flatMap chunkText ++ kTerm).takeWhile
      isHex) = 0 := by
      decide
    omega
  | cons x ds ih =>
    rw [flatMap_cons, append_assoc] at h
    by_cases hx : x = []
    · have hnone : chunkText x = [] := if_pos hx
      rw [hnone, nil_append] at h
      exact ih (fun y hy => hds y (mem_cons_of_mem _ hy)) h
    · have hlen : d.length = x.length := by
        rw [← hread z, h, chunkText, if_neg hx, append_assoc, append_assoc]
        exact hexadecimal_writeChunkSize (hds x mem_cons_self) _
      refine ⟨ds, fun y hy => hds y (mem_cons_of_mem _ hy), (append_inj h ?_).2⟩
      rw [chunkText, chunkText, if_neg hd, if_neg hx, hlen]
      simp only [length_append, hlen]

/-- A chunked body starts with a size. -/
theorem isHex_head (ds : List (List Byte)) :
    ∃ b l, ds.flatMap chunkText ++ kTerm = b :: l ∧ isHex b = true := by
  induction ds with
  | nil => exact ⟨48, _, rfl, by decide⟩
  | cons d ds ih =>
    by_cases hd : d = []
    · obtain ⟨b, l, heq, hb⟩ := ih
      exact ⟨b, l, by rw [flatMap_cons, chunkText, if_pos hd, nil_append, heq], hb⟩
    · have hne : d.length ≠ 0 := fun h0 => hd (length_eq_zero_iff.mp h0)
      have hdigits : (writeHex 16 d.length) ≠ [] := by
        rw [writeHex, if_neg hne]
        simp
      obtain ⟨b, l, hb⟩ := exists_cons_of_ne_nil hdigits
      refine ⟨b, l ++ crlf ++ d ++ crlf ++ (ds.flatMap chunkText ++ kTerm), ?_,
        isHex_writeHex 16 d.length b (by rw [hb]; exact mem_cons_self)⟩
      rw [flatMap_cons, chunkText, if_neg hd, writeChunkSize, if_neg hne, hb]
      simp only [cons_append, append_assoc]

end Conn

end Cornet.Http.Server
