import Cornet.Http.Server.Pipelining

/-!
# Http/Server/ErrorResponse — the response the framework writes itself

    write_error(500)   ↦   | head | Content-Type | CRLF | phrase |        staged like any other, if there is room

The error response is an exchange of the framework's own, so what it stages is known already; new is
when there is room for it, and what a handler cannot have touched before it: the queue, the options
and the clock.
-/

namespace Cornet.Http.Server

open OutBuffer

/-- The error response to `q`, as an exchange of its own. -/
def errorExchange (q : Req) (status : Status) : Exchange where
  head := q.head
  keepAlive := false
  expectsContinue := q.expectsContinue
  carried := q.carried
  date := q.date
  before := [.status status, .header .contentType (ascii "text/plain; charset=utf-8")]
  kind := .static (ascii status.reasonPhrase)

/-- The error response without its interim response. -/
def errorBytes (o : Options) (q : Req) (status : Status) : List Byte :=
  (errorExchange q status).headBytes o ++ ((errorExchange q status).lines ++ crlf) ++
    (errorExchange q status).payload

theorem own_errorExchange (o : Options) (q : Req) (status : Status) :
    (errorExchange q status).own o = (errorExchange q status).interim ++ errorBytes o q status := by
  simp only [Exchange.own, errorBytes, List.append_assoc]

namespace Staging

variable {s : Staging}

theorem err_fail (b : OutBuffer) (e : HttpError) : (b.fail e).err ≠ none := by
  rw [OutBuffer.fail]
  split
  · rename_i h
    exact Option.isSome_iff_ne_none.mp h
  · simp

theorem source_errorDraft (s : Staging) (status : Status) :
    (s.errorDraft status).resp.source ≠ .streaming := by
  have h : (s.errorDraft status).resp.source = .external := rfl
  rw [h]
  exact nofun

theorem writeError_of_lt (headRequest : Bool) (status : Status) (h : s.pending.length < kPending) :
    s.writeError headRequest status =
      { (((s.errorDraft status).frameHead true).enqueue
          (pendingOf (s.errorDraft status) ((s.errorDraft status).frameHead true) headRequest)) with
        closeAfterFlush := true } := by
  have hpending : (s.errorDraft status).pending.length < kPending := h
  rw [writeError, Conn.frameResponse_of_lt (source_errorDraft s status) hpending]

/-- With no slot left, the error response fails its buffer. -/
theorem lt_of_writeError {headRequest : Bool} {status : Status}
    (h : (s.writeError headRequest status).headOut.err = none) : s.pending.length < kPending := by
  by_contra hfull
  have hpending : ¬(s.errorDraft status).pending.length < kPending := hfull
  rw [writeError, frameResponse, if_neg (source_errorDraft s status)] at h
  dsimp only at h
  rw [if_neg hpending] at h
  exact err_fail _ _ h

/-- **The error response**, if it can be staged at all. -/
theorem writeError_spec {q : Req} {status : Status} (hdate : s.date = q.date)
    (hok : (s.writeError q.head status).broken = false) :
    s.pending.length < kPending ∧ ∃ p, (s.writeError q.head status).pending = s.pending ++ [p] ∧
      (s.writeError q.head status).Within p ∧
      (s.writeError q.head status).render p = errorBytes s.opt q status ∧
      s.headOut.Adds ((errorExchange q status).headBytes s.opt)
        (s.writeError q.head status).headOut := by
  have hbegun : s.begin.resp.Begun := ⟨rfl, rfl, rfl, rfl, rfl⟩
  have hphrase := length_reasonPhrase_le status
  have hl : (errorExchange q status).kind.data.length < 2 ^ 32 := by
    change (ascii status.reasonPhrase).length < 2 ^ 32
    omega
  have hnb := Conn.not_broken_iff.mp (Conn.broken_of_grows (grows_writeError s q.head status) hok)
  have hd : s.begin.Drafted (s.errorDraft status) (errorExchange q status) :=
    drafted_handle (e := errorExchange q status) rfl hbegun hl hnb.2.2
  have hlt := lt_of_writeError (Conn.not_broken_iff.mp hok).1
  have heq := writeError_of_lt q.head status hlt
  have hframed : ((s.errorDraft status).frameHead true).Grows (s.writeError q.head status) := by
    rw [heq]
    exact ⟨.refl _, .refl _, .refl _⟩
  have herr := Conn.not_broken_iff.mp hok
  obtain ⟨hwithin, hrender, hfresh, -⟩ := hd.queued true hl hframed herr.1 herr.2.1
  have htext : headText s.begin.opt s.begin.date (errorExchange q status).status
      (errorExchange q status).saw false (errorExchange q status).kind.data.length true =
      (errorExchange q status).headBytes s.opt := by
    have hdate' : s.begin.date = q.date := hdate
    rw [hdate']
    rfl
  rw [htext] at hrender
  refine ⟨hlt, _, ?_, hwithin, ?_, ?_⟩
  · rw [heq]
    rfl
  · rw [hrender, hfresh rfl]
    rfl
  · rw [heq, ← htext]
    exact hd.adds_head true

/-! ## Room for it -/

/-- The bytes of `head_out_` the 500 asks for: `Content-Length` wants the longest number's room. -/
def errorNeed (s : Staging) : ℕ :=
  (Status.text .internalServerError).length +
    ((if s.opt.serveDate then (dateText s.date).length else 0) +
      ((if s.opt.serveServer then kHdrServer.length else 0) + ((kHdrConn true).length +
        ((Field.namePrefix .contentLength).length + 20))))

/-- The bytes of `hdr_out_` it asks for. -/
def kErrorLines : ℕ := (headerText .contentType (ascii "text/plain; charset=utf-8") ++ crlf).length

/-- The 500 can be staged. -/
def HasRoom (s : Staging) : Prop :=
  s.bodyOut.err = none ∧ s.pending.length < kPending ∧ s.headOut.Fits s.errorNeed ∧
    s.hdrOut.Fits kErrorLines

theorem fits_dateHeader {out : OutBuffer} {n : ℕ} (date : List Byte) :
    (Serializer.dateHeader out date).Fits n ↔ out.Fits ((dateText date).length + n) := by
  rw [Serializer.dateHeader, dateText]
  split
  · simp
  · rw [fits_putCrlf, fits_put, fits_put_of_lt (by decide)]
    simp only [List.length_append, Nat.add_assoc]
    rfl

theorem fits_putHead {r : Response} {out : OutBuffer} (hr : r.saw = {})
    (hsrc : r.source ≠ .streaming)
    (hstatus : r.status = .internalServerError) (hlen : r.bodyLen = 21) :
    ({ s with resp := r }.putHead out true).err = none ↔ out.Fits s.errorNeed := by
  have hlength : sendsLength { s with resp := r } = true := by
    simp [sendsLength, hr, hsrc, hstatus, Status.forbidsBody, Status.internalServerError]
  have hchunked : sendsChunked { s with resp := r } = false := by simp [sendsChunked, hsrc]
  have hline : Serializer.statusLine out .internalServerError =
      out.put (Status.text .internalServerError) := rfl
  have hpair : (kHdrServer ++ kHdrConn true).length = kHdrServer.length + (kHdrConn true).length :=
    List.length_append
  rw [putHead, hlength, hchunked, if_neg (by simp), if_pos rfl, Serializer.headerU64,
    err_eq_none_iff_fits, fits_putCrlf, fits_putU64,
    fits_put_of_lt (by decide), putConstants, hr, hstatus, hlen, hline, errorNeed]
  have hdigits : max 20 ((writeU64 21).length + (2 + 0)) = 20 := by decide
  rw [hdigits]
  dsimp only
  cases s.opt.serveDate <;> cases s.opt.serveServer <;>
    simp only [Bool.not_false, Bool.and_true, Bool.false_eq_true, if_true, if_false,
      fits_put_of_lt (l := kHdrServer ++ kHdrConn true) (by decide),
      fits_put_of_lt (l := kHdrConn true) (by decide), fits_dateHeader, hpair,
      fits_put_of_lt (l := Status.text .internalServerError) (by decide), Nat.add_assoc,
      Nat.zero_add]

/-- **The 500 is staged soundly** exactly when there is room for it. -/
theorem writeError_sound_iff (headRequest : Bool) :
    (s.writeError headRequest .internalServerError).broken = false ↔ s.HasRoom := by
  have hlines : ((Serializer.header s.hdrOut .contentType
      (ascii "text/plain; charset=utf-8")).putCrlf).err = none ↔ s.hdrOut.Fits kErrorLines := by
    have hplain : Serializer.hasCrlf (ascii "text/plain; charset=utf-8") = false := by decide
    rw [Serializer.header, hplain, if_neg (by simp), err_eq_none_iff_fits,
      fits_putCrlf, fits_putCrlf, fits_put_of_lt (by decide),
      fits_put_of_lt (by decide)]
    rfl
  rw [Conn.not_broken_iff, HasRoom]
  by_cases hlt : s.pending.length < kPending
  · have hhead :
        ({ s with resp := (s.errorDraft .internalServerError).resp }.putHead s.headOut
          true).err = none ↔ _ :=
      fits_putHead rfl (source_errorDraft s _) rfl rfl
    rw [writeError_of_lt headRequest _ hlt]
    change (putHead _ s.headOut true).err = none ∧ (OutBuffer.putCrlf _).err = none ∧
      s.bodyOut.err = none ↔ _
    rw [← hlines, ← hhead]
    constructor
    · rintro ⟨h₁, h₂, h₃⟩
      exact ⟨h₃, hlt, h₁, h₂⟩
    · rintro ⟨h₁, -, h₂, h₃⟩
      exact ⟨h₂, h₃, h₁⟩
  · exact iff_of_false (fun h => hlt (lt_of_writeError h.1)) fun h => hlt h.2.1

/-! ## What a handler leaves alone -/

/-- `s'` is `s` with other buffers and another response in flight: the queue, the options and the
clock are the same. -/
def Rests (s s' : Staging) : Prop :=
  s' = { s with headOut := s'.headOut, hdrOut := s'.hdrOut, bodyOut := s'.bodyOut, resp := s'.resp }

theorem Rests.trans {s₁ s₂ : Staging} (h₁ : s.Rests s₁) (h₂ : s₁.Rests s₂) : s.Rests s₂ := by
  rw [Rests] at h₁ h₂ ⊢
  rw [h₂, h₁]

theorem calls_rests : Calls fun s _ t => s.Rests t where
  refl _ := rfl
  trans := .trans
  status _ _ := rfl
  header _ _ _ _ := rfl
  fail _ _ := rfl
  gives _ h := by cases h <;> rfl

theorem rests_handle (ops : List Op) (s : Staging) : s.Rests (ops.foldl apply s) :=
  calls_rests.handle ops s fun _ _ => rfl

theorem source_failResp (s : Staging)
    (e : HttpError) : (s.failResp e).resp.source = s.resp.source := by
  rw [failResp, Response.fail]
  split <;> rfl

theorem calls_source : Calls fun s _ t => s.resp.source ≠ .streaming →
    t.resp.source ≠ .streaming where
  refl _ := id
  trans h h' := h' ∘ h
  status _ _ := id
  header _ _ _ _ := id
  fail s e h := by rwa [source_failResp]
  gives _ h hsrc := by
    cases h with
    | external | file => rintro ⟨⟩
    | copied data =>
      rw [putBody]
      dsimp only
      split
      · rw [Response.fail]
        split <;> exact hsrc
      · rintro ⟨⟩

/-- Only `chunked()` makes a response a stream. -/
theorem source_apply {op : Op} (hop : op.stages = true) (h : s.resp.source ≠ .streaming) :
    (s.apply op).resp.source ≠ .streaming :=
  calls_source.apply s op (by rintro rfl; cases hop) h

end Staging

end Cornet.Http.Server
