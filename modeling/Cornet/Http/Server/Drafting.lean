import Cornet.Http.Server.Isolation

/-!
# Http/Server/Drafting — the response that is framed, whatever its handler did

    calls of the handler ──▸ draft ──frame_response──▸ | status line | lines | CRLF | body |

A response is a status, lines and a body.  The lines are those `frame_head` adds and those the
handler wrote, each for a field; a handler writes no other.  The draft is the response that
`frame_response` finds at the end of a request: the handler's own, or the error response that takes
its place.
-/

namespace Cornet.Http.Server

open List

/-! ## Responses -/

/-- A response. -/
structure Framed where
  status : Status
  lines : List Line
  body : List Byte

/-- The header section. -/
def Framed.head (f : Framed) : List Byte := f.status.text ++ f.lines.flatMap Line.text ++ crlf

def Framed.text (f : Framed) : List Byte := f.head ++ f.body

/-- The lines of `frame_head`. -/
def headLines (o : Options) (date : List Byte) (status : Status) (saw : Saw) (streamed : Bool)
    (bodyLen : ℕ) (closeAfter : Bool) : List Line :=
  (if o.serveDate && !saw.date then [⟨.date, dateText date⟩] else []) ++
    ((if o.serveServer then [⟨.server, Staging.kHdrServer⟩] else []) ++
      (if !saw.connection then [⟨.connection, Staging.kHdrConn closeAfter⟩] else [])) ++
    (if !saw.contentLength && !saw.transferEncoding && !streamed && !status.forbidsBody
      then [⟨.contentLength, numberText .contentLength bodyLen⟩] else []) ++
    (if streamed && !saw.transferEncoding
      then [⟨.transferEncoding, headerText .transferEncoding (ascii "chunked")⟩] else [])

/-- A line that may be left out. -/
theorem flatMap_text_ite (p : Prop) [Decidable p] (l : Line) :
    (if p then [l] else []).flatMap Line.text = if p then l.text else [] := by
  split
  · exact flatMap_singleton ..
  · rfl

theorem headText_eq_lines (o : Options) (date : List Byte) (status : Status) (saw : Saw)
    (streamed : Bool)
    (bodyLen : ℕ) (closeAfter : Bool) : headText o date status saw streamed bodyLen closeAfter
      = status.text ++ (headLines o date status saw streamed bodyLen closeAfter).flatMap
        Line.text := by
  simp only [headText, headLines, flatMap_append, flatMap_text_ite, append_assoc]

/-! ## The lines of a handler -/

/-- The field a call writes. -/
def Op.field : Op → Option Field
  | .header f _ | .headerU64 f _ => some f
  | .headerNamed n _ => some (fieldFromName n)
  | _ => none

/-- The handler leaves framing to the connection. -/
def Unframed (ops : List Op) : Prop :=
  ∀ op ∈ ops, op.field ≠ some .contentLength ∧ op.field ≠ some .transferEncoding

instance (ops : List Op) : Decidable (Unframed ops) := inferInstanceAs (Decidable (∀ _ ∈ _, _))

namespace Staging

variable {s s₀ s₁ d t : Staging} {ls ls₁ : List Line} {data : List Byte}

theorem unframed_opLines {op : Op} (h : op.field ≠ some .contentLength ∧
    op.field ≠ some .transferEncoding) :
    ∀ l ∈ s.opLines op, l.field ≠ .contentLength ∧ l.field ≠ .transferEncoding := by
  intro l hl
  cases op with
  | header f v | headerU64 f v | headerNamed n v =>
    obtain rfl := mem_singleton.mp hl
    exact ⟨fun heq => h.1 (congrArg some heq), fun heq => h.2 (congrArg some heq)⟩
  | localFile content | file content =>
    cases content with
    | none =>
      simp only [opLines] at hl
      split at hl
      · obtain rfl := mem_singleton.mp hl
        exact ⟨by rintro ⟨⟩, by rintro ⟨⟩⟩
      · cases hl
    | some _ => cases hl
  | _ => cases hl

theorem unframed_linesOf : ∀ {ops : List Op} {s : Staging}, Unframed ops →
    ∀ l ∈ s.linesOf ops, l.field ≠ .contentLength ∧ l.field ≠ .transferEncoding
  | [], _, _, _, hl => by cases hl
  | op :: ops, s, h, l, hl => by
      rcases mem_append.mp hl with hl | hl
      · exact unframed_opLines (h op mem_cons_self) l hl
      · exact unframed_linesOf (fun o ho => h o (mem_cons_of_mem _ ho)) l hl

/-! ## Drafts -/

/-- `s` is `s₀` after some calls that wrote these lines; the body is whole, if its length fits. -/
structure Drafts (s₀ s : Staging) (ls : List Line) : Prop where
  hdr : s₀.hdrOut.Adds (ls.flatMap Line.text) s.hdrOut
  hdrOff_eq : s.resp.hdrOff = s₀.resp.hdrOff
  bare : s.resp.source = .none → s.resp.bodyLen = 0
  body : s.resp.bodyLen < 2 ^ 32 → ∃ data, s.Carries data

theorem drafts_begun (h : s.resp.Begun) : s.Drafts s [] := by
  refine ⟨.refl _, rfl, fun _ => h.bodyLen_eq, fun _ => ⟨[], ?_⟩⟩
  rw [Carries, h.source_eq]
  exact ⟨h.bodyLen_eq, rfl⟩

/-- What a response says about its body. -/
def sameBody (r r' : Response) : Prop :=
  r' = { r with status := r'.status, hdrEnd := r'.hdrEnd, saw := r'.saw, err := r'.err }

theorem sameBody_fail (r : Response) (e : HttpError) : sameBody r (r.fail e) := by
  rw [Response.fail]
  split <;> rfl

/-- Calls that leave the body alone. -/
theorem Drafts.of_sameBody (h : s₀.Drafts s ls) (hout : s₁.bodyOut = s.bodyOut)
    (hresp : sameBody s.resp s₁.resp)
    (hhdr : s.hdrOut.Adds (ls₁.flatMap Line.text) s₁.hdrOut) : s₀.Drafts s₁ (ls ++ ls₁) := by
  rw [sameBody] at hresp
  refine ⟨?_, ?_, ?_, ?_⟩
  · rw [flatMap_append]
    exact h.hdr.trans hhdr
  · rw [hresp]
    exact h.hdrOff_eq
  · rw [hresp]
    exact h.bare
  · intro hlen
    rw [hresp] at hlen
    obtain ⟨data, hdata⟩ := h.body hlen
    refine ⟨data, ?_⟩
    rw [Carries, hresp, hout]
    exact hdata

/-- Calls that write no line. -/
theorem Drafts.of_hdrOut_eq (h : s₀.Drafts s ls) (hhdr : s₁.hdrOut = s.hdrOut)
    (hoff : s₁.resp.hdrOff = s.resp.hdrOff) (hbare : s₁.resp.source = .none → s₁.resp.bodyLen = 0)
    (hbody : s₁.resp.bodyLen < 2 ^ 32 → ∃ data, s₁.Carries data) : s₀.Drafts s₁ ls :=
  ⟨hhdr ▸ h.hdr, hoff.trans h.hdrOff_eq, hbare, hbody⟩

theorem Drafts.putBody (h : s₀.Drafts s ls) (hsrc : s.resp.source = .none)
    (hroom : data.length ≤ s.bodyOut.remaining) : s₀.Drafts (s.putBody data) ls := by
  cases herr : (s.bodyOut.put data).err with
  | some e =>
    have hresp : (s.putBody data).resp = { s.resp with bodyOff := s.bodyOut.size }.fail e := by
      simp only [Staging.putBody, herr]
    have hsame := sameBody_fail { s.resp with bodyOff := s.bodyOut.size } e
    rw [← hresp, sameBody] at hsame
    have hzero : (s.putBody data).resp.bodyLen = 0 := by
      rw [hsame]
      exact h.bare hsrc
    refine h.of_hdrOut_eq rfl (by rw [hsame]) (fun _ => hzero) fun _ => ⟨[], ?_⟩
    rw [Carries, hzero, hsame, hsrc]
    exact ⟨rfl, rfl⟩
  | none =>
    have hresp : (s.putBody data).resp =
        { s.resp with bodyOff := s.bodyOut.size, bodyLen := data.length, source := .inline } := by
      simp only [Staging.putBody, herr]
    refine h.of_hdrOut_eq rfl (by rw [hresp]) (by rw [hresp]; rintro ⟨⟩) fun hlen => ⟨data, ?_⟩
    rw [hresp] at hlen
    exact (carries_putBody hlen ((OutBuffer.adds_put data).err_none herr) hroom).1

theorem calls_drafts (s₀ : Staging) : Calls fun s ls t => ∀ {ls₀}, s₀.Drafts s ls₀ →
    s₀.Drafts t (ls₀ ++ ls) where
  refl _ _ h := by rwa [append_nil]
  trans h h' _ hs := append_assoc .. ▸ h' (h hs)
  status _ _ _ h := by
    rw [append_nil]
    exact h.of_hdrOut_eq rfl rfl h.bare h.body
  header _ _ _ hl _ h := h.of_sameBody rfl rfl (by rw [flatMap_singleton]; exact hl _)
  fail s e _ h := h.of_sameBody rfl (sameBody_fail s.resp e) (.refl _)
  gives hsrc hgives _ h := by
    rw [append_nil]
    cases hgives with
    | copied data hroom => exact h.putBody hsrc hroom
    | external data | file data => exact h.of_hdrOut_eq rfl rfl nofun fun _ => ⟨data, rfl, rfl⟩

/-- **The calls of a handler** that does not stream. -/
theorem Drafts.handle (ops : List Op) (h : s₀.Drafts s ls) (hops : ∀ op ∈ ops, op ≠ .chunked) :
    s₀.Drafts (ops.foldl Staging.apply s) (ls ++ s.linesOf ops) :=
  (calls_drafts s₀).handle ops s (fun _ hmem => absurd rfl (hops _ hmem)) h

/-! ## What the calls leave alone -/

theorem saw_failResp (s : Staging) (e : HttpError) : (s.failResp e).resp.saw = s.resp.saw := by
  rw [failResp, Response.fail]
  split <;> rfl

/-- The fields of some lines, noted. -/
def noted (saw : Saw) (ls : List Line) : Saw := ls.foldl (fun saw l => saw.note l.field) saw

theorem calls_saw : Calls fun s ls t => t.resp.saw = noted s.resp.saw ls where
  refl _ := rfl
  trans h h' := by rw [h', h, noted, noted, noted, foldl_append]
  status _ _ := rfl
  header _ _ _ _ := rfl
  fail := saw_failResp
  gives _ h := by
    cases h with
    | external | file => rfl
    | copied data =>
      simp only [Staging.putBody, Response.fail]
      split
      · split <;> rfl
      · rfl

theorem saw_stageHeaders (s : Staging) : s.stageHeaders.resp.saw = s.resp.saw := by
  have hfail := saw_failResp s .invalidState
  rw [stageHeaders, frameHead, sealHeaders]
  dsimp only
  split
  · exact hfail
  · rfl

/-- **What a response has seen is the fields of its lines.** -/
theorem saw_apply (s : Staging) (op : Op) : (s.apply op).resp.saw = noted s.resp.saw
    (s.opLines op) :=
  calls_saw.apply s op fun _ => saw_stageHeaders s

theorem saw_handle (ops : List Op) (s : Staging) :
    (ops.foldl Staging.apply s).resp.saw = noted s.resp.saw (s.linesOf ops) :=
  calls_saw.handle ops s fun s _ => saw_stageHeaders s

/-- The framing headers a handler did not write. -/
def Clear (s : Staging) : Prop :=
  s.resp.saw.contentLength = false ∧ s.resp.saw.transferEncoding = false

theorem clear_noted : ∀ (ls : List Line) (saw : Saw), saw.contentLength = false ∧
    saw.transferEncoding = false →
    (∀ l ∈ ls, l.field ≠ .contentLength ∧ l.field ≠ .transferEncoding) →
      (noted saw ls).contentLength = false ∧ (noted saw ls).transferEncoding = false
  | [], _, hsaw, _ => hsaw
  | l :: ls, saw, hsaw, h => by
      refine clear_noted ls (saw.note l.field) ?_ fun l hl => h l (mem_cons_of_mem _ hl)
      obtain ⟨hlength, hencoding⟩ := h l mem_cons_self
      cases hfield : l.field <;> first | exact hsaw | exact absurd hfield hlength | exact absurd hfield hencoding

theorem clear_handle {ops : List Op} (h : s.Clear)
    (hops : Unframed ops) : (ops.foldl Staging.apply s).Clear := by
  rw [Clear, saw_handle]
  exact clear_noted _ _ h (unframed_linesOf hops)

theorem calls_streaming : Calls fun s _ t => s.resp.source = .streaming →
    t.resp.source = .streaming where
  refl _ := id
  trans h h' := h' ∘ h
  status _ _ := id
  header _ _ _ _ := id
  fail s e h := (source_failResp s e).trans h
  gives hnone _ h := by cases hnone.symm.trans h

/-- A stream stays one. -/
theorem streaming_handle {ops : List Op} (h : s.resp.source = .streaming) :
    (ops.foldl Staging.apply s).resp.source = .streaming :=
  calls_streaming.handle ops s (fun _ _ _ => rfl) h

/-- Who has not become a stream has not called `chunked()`. -/
theorem ne_chunked_of_source : ∀ {ops : List Op} {s : Staging},
    (ops.foldl Staging.apply s).resp.source ≠ .streaming → ∀ op ∈ ops, op ≠ .chunked
  | [], _, _, _, hop => by cases hop
  | o :: ops, s, h, op, hop => by
      rcases mem_cons.mp hop with rfl | hop
      · rintro rfl
        exact h (streaming_handle (s := s.apply .chunked) rfl)
      · exact ne_chunked_of_source (s := s.apply o) h op hop

/-! ## What framing queues -/

/-- The header section of a framed draft. -/
def frameOf (d : Staging) (closeAfter : Bool) (ls : List Line) (body : List Byte) : Framed where
  status := d.resp.status
  lines := headLines d.opt d.date d.resp.status d.resp.saw false d.resp.bodyLen closeAfter ++ ls
  body := body

/-- **The header section that is queued** is that of the draft, if its lines start where the
response does. -/
theorem Drafts.renderHead (h : s₀.Drafts d ls) (hsrc : d.resp.source ≠ .streaming)
    (haligned : s₀.resp.hdrOff = s₀.hdrOut.size) {headRequest closeAfter : Bool}
    (ht : (d.frameHead closeAfter).Grows t) (hok : t.broken = false) (body : List Byte) :
    t.renderHead (pendingOf d (d.frameHead closeAfter) headRequest) = (d.frameOf closeAfter ls
      body).head := by
  obtain ⟨hhead, hhdr, -⟩ := Conn.not_broken_iff.mp hok
  obtain ⟨hoff, hlen, hhoff, hhlen⟩ := pendingOf_windows d (d.frameHead closeAfter) headRequest
  have hadds := adds_putHead (s := d) d.headOut closeAfter
  rw [beq_false_of_ne hsrc] at hadds
  obtain ⟨-, hbytes⟩ := added_window hadds ht.head hhead
  obtain ⟨-, hfresh, -⟩ := window_of_adds (r := (d.frameHead closeAfter).resp)
    (h.hdr.trans OutBuffer.adds_putCrlf) ht.hdr hhdr (by simp [crlf]) rfl
  have hwindow := hfresh (h.hdrOff_eq.trans haligned)
  have hbytes' : t.headOut.view d.headOut.size
    ((d.frameHead closeAfter).headOut.size - d.headOut.size) = _ := hbytes
  rw [Staging.renderHead, hoff, hlen, hhoff, hhlen, hbytes', hwindow, headText_eq_lines]
  simp only [Framed.head, frameOf, flatMap_append, append_assoc]

/-- A response to a `HEAD` request, or with a status that forbids it, is queued without a body. -/
theorem renderBody_bodyless {headRequest : Bool} {framed : Staging}
    (h : headRequest = true ∨ framed.resp.status.forbidsBody = true) :
    t.renderBody (pendingOf s framed headRequest) = [] ∧
      (pendingOf s framed headRequest).bodyLen = 0 := by
  have hno : ¬(!framed.resp.status.forbidsBody && !headRequest && 0 <
    framed.resp.bodyLen) = true := by
    rcases h with h | h <;> simp [h]
  rw [pendingOf]
  dsimp only
  rw [if_neg hno]
  exact ⟨rfl, rfl⟩

/-- With no slot left, framing fails its buffer. -/
theorem lt_of_frameResponse {headRequest closeAfter : Bool} (hsrc : d.resp.source ≠ .streaming)
    (h : (d.frameResponse headRequest closeAfter).headOut.err = none) : d.pending.length <
      kPending := by
  by_contra hfull
  rw [frameResponse, if_neg hsrc] at h
  dsimp only at h
  rw [if_neg hfull] at h
  exact err_fail _ _ h

/-- The draft of the error response. -/
theorem drafts_errorDraft (s : Staging) (status : Status) : s.begin.Drafts (s.errorDraft status)
    [kTextLine] := by
  have hbegun : s.begin.Drafts s.begin [] := drafts_begun ⟨rfl, rfl, rfl, rfl, rfl⟩
  exact hbegun.handle [.status status, .header .contentType _, .bodyStatic _] (by simp)

end Staging

/-! ## The draft of a request -/

/-- A status line and nothing else. -/
def Pending.Interim (p : Pending) : Prop := p.hdrLen = 0 ∧ p.source = .none

namespace Conn

variable {c : Conn} {q : Req} {d : Staging}

/-- The response that `frame_response` finds after the handler of `q`, if it is to be queued; a
stream is not. -/
def draft (c : Conn) (q : Req) : Option Staging :=
  let h := c.handled q
  match q.drainError with
  | some status => some (h.errorDraft status)
  | none =>
    if h.respFailed then some (h.errorDraft .internalServerError)
    else if h.needsStreamingSettlement then
      if h.headersStaged then some (h.cleared.errorDraft .internalServerError) else none
    else if h.resp.source = .streaming then none
    else some h.toStaging

/-- The lines of the draft: the handler's, or the one of the error response in their place. -/
def draftLines (c : Conn) (q : Req) : List Line :=
  let h := c.handled q
  if q.drainError.isSome || h.respFailed || h.needsStreamingSettlement then [kTextLine]
  else (c.toStaging.prepare q).linesOf q.ops

/-- **What an answer does to the queue.** -/
theorem answer_draft (c : Conn) (q : Req) :
    match c.draft q with
    | some d => d.resp.source ≠ .streaming ∧ ∃ close b, (c.answer q).1.toStaging
        = { d.frameResponse q.head close with closeAfterFlush := b }
    | none => ∃ b b', (c.answer q).1.toStaging = { (c.handled q).toStaging with closing := b, closeAfterFlush := b' } := by
  have hanswer : c.answer q = (c.handled q).conclude q := rfl
  rw [hanswer, draft, conclude]
  generalize c.handled q = h
  cases hdrain : q.drainError with
  | some status => exact ⟨Staging.source_errorDraft _ _, true, true, rfl⟩
  | none =>
    dsimp only
    by_cases hfail : h.respFailed = true
    · rw [if_pos hfail, if_pos hfail]
      exact ⟨Staging.source_errorDraft _ _, true, true, rfl⟩
    rw [if_neg hfail, if_neg hfail]
    by_cases hopen : h.needsStreamingSettlement = true
    · rw [if_pos hopen, if_pos hopen, settleStreaming]
      by_cases hstaged : h.headersStaged = true
      · rw [if_pos hstaged, if_pos hstaged]
        exact ⟨Staging.source_errorDraft _ _, true, true, rfl⟩
      · rw [if_neg hstaged, if_neg hstaged]
        exact ⟨true, true, rfl⟩
    rw [if_neg hopen, if_neg hopen]
    by_cases hsrc : h.resp.source = .streaming
    · have hframe (close : Bool) : h.toStaging.frameResponse q.head close = h.toStaging :=
        if_pos hsrc
      rw [if_pos hsrc]
      dsimp only
      split
      · refine ⟨h.closing, true, ?_⟩
        change { h.toStaging.frameResponse q.head true with closeAfterFlush := true } = _
        rw [hframe]
      · refine ⟨h.closing, h.closeAfterFlush, ?_⟩
        exact hframe false
    · rw [if_neg hsrc]
      dsimp only
      refine ⟨hsrc, ?_⟩
      split
      · exact ⟨true, true, rfl⟩
      · exact ⟨false, _, rfl⟩

/-- Whoever dispatches `q` has begun its response, where its headers will stand. -/
structure Takes (c : Conn) (q : Req) : Prop where
  begun : q.carried = true → c.resp.Begun
  aligned : q.carried = true → c.resp.hdrOff = c.hdrOut.size

theorem Takes.prepare (h : c.Takes q) : (c.toStaging.prepare q).resp.Begun ∧
    (c.toStaging.prepare q).resp.hdrOff = (c.toStaging.prepare q).hdrOut.size := by
  rw [Staging.prepare]
  split
  · rename_i hq
    exact ⟨h.begun hq, h.aligned hq⟩
  · split
    · rw [Staging.writeContinue]
      dsimp only
      split <;> exact ⟨⟨rfl, rfl, rfl, rfl, rfl⟩, rfl⟩
    · exact ⟨⟨rfl, rfl, rfl, rfl, rfl⟩, rfl⟩

/-- What a draft is made of. -/
structure Drafted (q : Req) (d : Staging) (s₀ : Staging) (ls : List Line) : Prop where
  drafts : s₀.Drafts d ls
  aligned : s₀.resp.hdrOff = s₀.hdrOut.size
  unframed : Unframed q.ops → d.Clear ∧ ∀ l ∈ ls, l.field ≠ .contentLength ∧
    l.field ≠ .transferEncoding

theorem drafted_error (q : Req) (s : Staging) (status : Status) :
    Drafted q (s.errorDraft status) s.begin [kTextLine] where
  drafts := s.drafts_errorDraft status
  aligned := rfl
  unframed _ := by
    refine ⟨⟨rfl, rfl⟩, fun l hl => ?_⟩
    obtain rfl := mem_singleton.mp hl
    exact ⟨nofun, nofun⟩

/-- **Every queued response is a draft** on what its own handler, or the framework, wrote. -/
theorem drafted_of_draft (h : c.Takes q) (hd : c.draft q = some d) :
    ∃ s₀, Drafted q d s₀ (c.draftLines q) := by
  rw [draft] at hd
  rw [draftLines]
  split at hd
  · rename_i hdrain
    cases hd
    rw [hdrain]
    exact ⟨_, drafted_error q _ _⟩
  · rename_i hdrain
    rw [hdrain]
    split at hd
    · rename_i hfail
      cases hd
      rw [hfail]
      exact ⟨_, drafted_error q _ _⟩
    · rename_i hfail
      rw [Bool.eq_false_iff.mpr hfail]
      split at hd
      · rename_i hopen
        rw [hopen]
        split at hd
        · cases hd
          exact ⟨_, drafted_error q _ _⟩
        · cases hd
      · rename_i hopen
        rw [Bool.eq_false_iff.mpr hopen]
        split at hd
        · cases hd
        · rename_i hsrc
          cases hd
          obtain ⟨hbegun, haligned⟩ := h.prepare
          rw [toStaging_handled] at hsrc ⊢
          have hdrafts := (Staging.drafts_begun hbegun).handle _ (Staging.ne_chunked_of_source hsrc)
          refine ⟨_, hdrafts, haligned, fun hun => ⟨?_, Staging.unframed_linesOf hun⟩⟩
          refine Staging.clear_handle ?_ hun
          rw [Staging.Clear, hbegun.saw_eq]
          exact ⟨rfl, rfl⟩

/-! ## The queue -/

/-- What precedes the handler queues nothing but an interim response. -/
theorem pending_prepare (c : Conn) (q : Req) : ∃ news,
    (c.toStaging.prepare q).pending = c.pending ++ news ∧
    (∀ p ∈ news, p.Interim) ∧ (c.pending.length ≤ Staging.kPending →
      (c.toStaging.prepare q).pending.length ≤ Staging.kPending) := by
  have hnone : ∃ news, c.pending = c.pending ++ news ∧ (∀ p ∈ news, p.Interim) ∧
      (c.pending.length ≤ Staging.kPending → c.pending.length ≤ Staging.kPending) :=
    ⟨[], (append_nil _).symm, fun _ hp => absurd hp not_mem_nil, id⟩
  rw [Staging.prepare]
  split
  · exact hnone
  · split
    · rw [Staging.writeContinue]
      dsimp only
      split
      · rename_i hlt
        refine ⟨_, rfl, fun p hp => ?_, fun _ => ?_⟩
        · rw [mem_singleton.mp hp]
          exact ⟨rfl, rfl⟩
        · rw [Staging.enqueue, length_append, length_singleton]
          exact hlt
      · exact hnone
    · exact hnone

theorem pending_draft (hd : c.draft q = some d) : d.pending = (c.toStaging.prepare q).pending := by
  have hhandled := pending_handled c q
  rw [draft] at hd
  split at hd
  · cases hd
    exact hhandled
  · split at hd
    · cases hd
      exact hhandled
    · split at hd
      · split at hd <;> cases hd
        exact hhandled
      · split at hd <;> cases hd
        exact hhandled

end Conn

end Cornet.Http.Server
