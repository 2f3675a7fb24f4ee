import Cornet.Http.Server.Round

/-!
# Http/Server/Framing — the staging buffers only grow, and what is queued stays readable

    s ──call──▸ s'        s.Grows s'          p within s  ⟹  s'.render p = s.render p

Every call of a handler and every framing step appends to the staging buffers, so the windows
recorded by earlier responses keep their bytes; `settle_streaming` is the one exception.  Streaming
never touches what is staged.
-/

namespace Cornet.Http.Server

open Serializer

/-- The head of a response. -/
def headText (o : Options) (date : List Byte) (status : Status) (saw : Saw) (streamed : Bool)
    (bodyLen : ℕ) (closeAfter : Bool) : List Byte :=
  status.text ++ (if o.serveDate && !saw.date then dateText date else []) ++
    ((if o.serveServer then Staging.kHdrServer else []) ++
      (if !saw.connection then Staging.kHdrConn closeAfter else [])) ++
    (if !saw.contentLength && !saw.transferEncoding && !streamed && !status.forbidsBody
      then numberText .contentLength bodyLen else []) ++
    (if streamed && !saw.transferEncoding
      then headerText .transferEncoding (ascii "chunked") else [])

theorem le_length_statusText (s : Status) : 13 ≤ s.text.length := by
  have h₁ : 1 ≤ (writeU64 s.code.toNat).length := length_writeU64_pos _
  have h₂ : (ascii "HTTP/1.1 ").length = 9 := by decide
  have h₃ : (ascii " ").length = 1 := by decide
  have h₄ : crlf.length = 2 := rfl
  simp only [Status.text, List.length_append]
  omega

theorem le_length_headText (o : Options) (date : List Byte) (status : Status) (saw : Saw)
    (streamed : Bool) (bodyLen : ℕ) (closeAfter : Bool) :
    13 ≤ (headText o date status saw streamed bodyLen closeAfter).length := by
  have h := le_length_statusText status
  simp only [headText, List.length_append]
  omega

/-- A header line, and the field it is for. -/
structure Line where
  field : Field
  text : List Byte
  deriving DecidableEq, Repr

/-- The line `text` writes. -/
def kTextLine : Line := ⟨.contentType, headerText .contentType (ascii "text/plain; charset=utf-8")⟩

namespace Staging

variable {s s₁ s₂ : Staging}

/-! ## Framing, as writes -/

theorem adds_putConstants {out : OutBuffer} (closeAfter : Bool) :
    out.Adds ((if s.opt.serveServer then kHdrServer else []) ++
      (if !s.resp.saw.connection then kHdrConn closeAfter else []))
        (s.putConstants out closeAfter) := by
  have hconn : (kHdrServer ++ kHdrConn closeAfter).length < 2 ^ 32 := by
    cases closeAfter <;> decide
  rw [List.length_append] at hconn
  rw [putConstants]
  cases s.opt.serveServer <;> cases s.resp.saw.connection
  · exact OutBuffer.adds_put_of_lt (l := kHdrConn closeAfter) (by omega)
  · exact OutBuffer.Adds.refl out
  · exact OutBuffer.adds_put_of_lt (by rw [List.length_append]; exact hconn)
  · exact OutBuffer.adds_put_of_lt (l := kHdrServer) (by omega)

/-- A line that may be left out. -/
theorem adds_ite {out out' : OutBuffer} {p : Prop} [Decidable p] {l : List Byte}
    (h : out.Adds l out') : out.Adds (if p then l else []) (if p then out' else out) := by
  split
  · exact h
  · exact OutBuffer.Adds.refl out

/-- **The head as text.** -/
theorem adds_putHead (out : OutBuffer) (closeAfter : Bool) :
    out.Adds (headText s.opt s.date s.resp.status s.resp.saw (s.resp.source == .streaming)
      s.resp.bodyLen closeAfter) (s.putHead out closeAfter) :=
  ((((adds_statusLine s.resp.status).trans
    (adds_ite (adds_dateHeader s.date))).trans (adds_putConstants closeAfter)).trans
    (adds_ite (adds_headerU64 .contentLength s.resp.bodyLen))).trans
    (adds_ite (adds_header .transferEncoding (ascii "chunked")))

theorem adds_interim :
    s.headOut.Adds (Status.text .interim ++ crlf)
      (Serializer.statusLine s.headOut .interim).putCrlf :=
  (adds_statusLine .interim).trans OutBuffer.adds_putCrlf

/-! ## Growth -/

/-- Everything staged in `s` still stands in `s'`, and failures still show. -/
structure Grows (s s' : Staging) : Prop where
  head : s.headOut.Grows s'.headOut
  hdr : s.hdrOut.Grows s'.hdrOut
  body : s.bodyOut.Grows s'.bodyOut

theorem Grows.refl (s : Staging) : s.Grows s := ⟨.refl _, .refl _, .refl _⟩

theorem Grows.trans (h₁ : s.Grows s₁) (h₂ : s₁.Grows s₂) : s.Grows s₂ :=
  ⟨h₁.head.trans h₂.head, h₁.hdr.trans h₂.hdr, h₁.body.trans h₂.body⟩

theorem grows_frameHead (s : Staging) (closeAfter : Bool) : s.Grows (s.frameHead closeAfter) :=
  ⟨(adds_putHead s.headOut closeAfter).toGrows, OutBuffer.adds_putCrlf.toGrows, .refl _⟩

/-! ## What a call is made of -/

/-- The lines a call writes; a file that does not open is answered with a text. -/
def opLines (s : Staging) : Op → List Line
  | .header f v => [⟨f, headerText f v⟩]
  | .headerNamed n v => [⟨fieldFromName n, namedText n v⟩]
  | .headerU64 f v => [⟨f, numberText f v⟩]
  | .localFile none | .file none => if s.resp.source = .none then [kTextLine] else []
  | _ => []

def linesOf (s : Staging) : List Op → List Line
  | [] => []
  | op :: ops => s.opLines op ++ (s.apply op).linesOf ops

/-- A response is given its body. -/
inductive Gives (s : Staging) : Staging → Prop
  | external (data : List Byte) : Gives s (s.setExternal data)
  | copied (data : List Byte) (hroom : data.length ≤ s.bodyOut.remaining) : Gives s (s.putBody data)
  | file (content : List Byte) : Gives s (s.openFile (some content))

/-- A relation that follows the calls of a handler and the lines they write.  A call sets the
status, writes a line, fails, or gives a response without a body its body; `chunked()` is another
matter. -/
structure Calls (R : Staging → List Line → Staging → Prop) : Prop where
  refl : ∀ s, R s [] s
  trans : ∀ {s t u ls ls'}, R s ls t → R t ls' u → R s (ls ++ ls') u
  status : ∀ s status, R s [] (s.setStatus status)
  header : ∀ s (l : Line) {write}, (∀ out, OutBuffer.Adds out l.text (write out)) →
    R s [l] (s.putHeader l.field write)
  fail : ∀ s e, R s [] (s.failResp e)
  gives : ∀ {s t}, s.resp.source = .none → s.Gives t → R s [] t

section Calls

variable {R : Staging → List Line → Staging → Prop} (h : Calls R)

include h

theorem Calls.body (s : Staging) (data : List Byte) : R s [] (s.body data) := by
  rw [Staging.body]
  split
  · exact h.fail s _
  · rename_i hsrc
    split
    · exact h.gives (not_not.mp hsrc) (.external data)
    · exact h.gives (not_not.mp hsrc) (.copied data (by omega))

theorem Calls.openFile (hsrc : s.resp.source = .none) (content : Option (List Byte)) :
    R s (s.opLines (.file content)) (s.openFile content) := by
  cases content with
  | none =>
    rw [opLines, if_pos hsrc]
    exact h.trans (h.trans (h.status s .notFound) (h.header _ kTextLine fun _ => adds_header _ _))
      (h.body _ _)
  | some content => exact h.gives hsrc (.file content)

/-- **One call.** -/
theorem Calls.apply (s : Staging) (op : Op) (hchunked : op = .chunked → R s [] s.stageHeaders) :
    R s (s.opLines op) (s.apply op) := by
  have hfile {t : Staging} (ht : R s [] t) (content : Option (List Byte)) :
      R s (s.opLines (.file content)) (if s.resp.source ≠ .none then t
        else s.openFile content) := by
    split
    · rename_i hsrc
      cases content with
      | none => rwa [opLines, if_neg hsrc]
      | some _ => exact ht
    · rename_i hsrc
      exact h.openFile (not_not.mp hsrc) content
  cases op with
  | status st => exact h.status s st
  | header f v => exact h.header s ⟨f, headerText f v⟩ fun _ => adds_header f v
  | headerNamed n v =>
    exact h.header s ⟨fieldFromName n, namedText n v⟩ fun _ => adds_headerNamed n v
  | headerU64 f v => exact h.header s ⟨f, numberText f v⟩ fun _ => adds_headerU64 f v
  | body data => exact h.body s data
  | bodyStatic data =>
    change R s [] (s.bodyStatic data)
    rw [bodyStatic]
    split
    · exact h.fail s _
    · rename_i hsrc
      exact h.gives (not_not.mp hsrc) (.external data)
  | bodyOwned block =>
    change R s [] (s.bodyOwned block)
    rw [bodyOwned.eq_def]
    split
    · exact h.fail s _
    · rename_i hsrc
      cases block with
      | none => exact h.fail s _
      | some data => exact h.gives (not_not.mp hsrc) (.external data)
  | localFile content =>
    have hlines : s.opLines (.localFile content) = s.opLines (.file content) :=
      by cases content <;> rfl
    rw [hlines]
    exact hfile (h.fail s _) content
  | file content => exact hfile (h.refl s) content
  | fail e => exact h.fail s e
  | chunked => exact hchunked rfl
  | write _ | finish => exact h.refl s

/-- **The calls of a handler.** -/
theorem Calls.handle (ops : List Op) (s : Staging)
    (hchunked : ∀ s, .chunked ∈ ops → R s [] s.stageHeaders) :
    R s (s.linesOf ops) (ops.foldl Staging.apply s) := by
  induction ops generalizing s with
  | nil => exact h.refl s
  | cons op ops ih =>
    refine h.trans (h.apply s op fun hop => hchunked s (hop ▸ List.mem_cons_self))
      (ih _ fun t ht => ?_)
    exact hchunked t (List.mem_cons_of_mem op ht)

end Calls

theorem calls_grows : Calls fun s _ t => s.Grows t where
  refl := .refl
  trans := .trans
  status _ _ := ⟨.refl _, .refl _, .refl _⟩
  header _ _ _ h := ⟨.refl _, (h _).toGrows, .refl _⟩
  fail _ _ := ⟨.refl _, .refl _, .refl _⟩
  gives _ h := by
    cases h with
    | copied data => exact ⟨.refl _, .refl _, (OutBuffer.adds_put data).toGrows⟩
    | external | file => exact ⟨.refl _, .refl _, .refl _⟩

theorem grows_stageHeaders (s : Staging) : s.Grows s.stageHeaders := by
  have h := grows_frameHead { s with resp :=
    { (if s.resp.source ≠ .none then s.resp.fail .invalidState else s.resp) with
      source := .streaming } } false
  exact ⟨h.head, h.hdr, h.body⟩

theorem grows_handle (ops : List Op) (s : Staging) : s.Grows (ops.foldl apply s) :=
  calls_grows.handle ops s fun s _ => grows_stageHeaders s

theorem grows_frameResponse (s : Staging) (headRequest closeAfter : Bool) :
    s.Grows (s.frameResponse headRequest closeAfter) := by
  have h := grows_frameHead s closeAfter
  rw [frameResponse]
  split
  · exact .refl s
  · dsimp only
    split
    · exact ⟨h.head, h.hdr, h.body⟩
    · exact ⟨h.head.trans (OutBuffer.adds_fail (l := []) _).toGrows, h.hdr, h.body⟩

theorem grows_writeError (s : Staging) (headRequest : Bool) (status : Status) :
    s.Grows (s.writeError headRequest status) := by
  have hdraft : s.begin.Grows (s.errorDraft status) :=
    grows_handle [.status status, .header .contentType _, .bodyStatic _] s.begin
  have hframed := hdraft.trans (grows_frameResponse (s.errorDraft status) headRequest true)
  exact ⟨hframed.head, hframed.hdr, hframed.body⟩

theorem grows_prepare (s : Staging) (q : Req) : s.Grows (s.prepare q) := by
  rw [prepare]
  split
  · exact ⟨.refl _, .refl _, .refl _⟩
  · split
    · rw [writeContinue]
      dsimp only
      split <;> exact ⟨(adds_interim (s := s)).toGrows, .refl _, .refl _⟩
    · exact ⟨.refl _, .refl _, .refl _⟩

/-! ## Queued responses -/

/-- The windows of a queued response lie in what is staged. -/
structure Within (s : Staging) (p : Pending) : Prop where
  head : p.headOff + p.headLen ≤ s.headOut.size
  hdr : p.hdrOff + p.hdrLen ≤ s.hdrOut.size ∨ p.hdrLen = 0
  body : p.source = .inline → p.bodyOff + p.bodyLen ≤ s.bodyOut.size

theorem Within.grows {p : Pending} (hp : s.Within p) (h : s.Grows s₁) : s₁.Within p where
  head := hp.head.trans h.head.size_le
  hdr := hp.hdr.imp (·.trans h.hdr.size_le) id
  body hi := (hp.body hi).trans h.body.size_le

/-- **What is queued keeps its bytes.** -/
theorem Within.render_eq {p : Pending} (hp : s.Within p) (h : s.Grows s₁) :
    s₁.render p = s.render p := by
  have hhead := h.head.keeps hp.head
  have hhdr : s₁.hdrOut.view p.hdrOff p.hdrLen = s.hdrOut.view p.hdrOff p.hdrLen := by
    rcases hp.hdr with hle | hz
    · exact h.hdr.keeps hle
    · rw [hz]
      rfl
  have hbody : s₁.renderBody p = s.renderBody p := by
    rw [renderBody, renderBody]
    split
    · exact h.body.keeps (hp.body ‹_›)
    all_goals rfl
  rw [render, render, renderHead, renderHead, hhead, hhdr, hbody]

theorem flatMap_render_eq {ps : List Pending} (hps : ∀ p ∈ ps, s.Within p) (h : s.Grows s₁) :
    ps.flatMap s₁.render = ps.flatMap s.render :=
  List.flatMap_congr fun p hp => (hps p hp).render_eq h

end Staging

/-! ## Streaming leaves the staging alone -/

namespace Conn

variable (c : Conn)

@[simp] theorem toStaging_send (l : List Byte) : (c.send l).1.toStaging = c.toStaging := rfl

@[simp] theorem streamFinished_send (l : List Byte) :
    (c.send l).1.streamFinished = c.streamFinished := rfl

@[simp] theorem toStaging_flushStream : c.flushStream.1.toStaging = c.toStaging := by
  rw [flushStream]
  split
  · rfl
  · split
    · rfl
    · dsimp only
      split <;> simp

@[simp] theorem toStaging_writeLarge (line data : List Byte) :
    (c.writeLarge line data).toStaging = c.toStaging := by
  rw [writeLarge]
  dsimp only
  split
  · split <;> simp [stage]
  · simp [stage]

@[simp] theorem toStaging_write (data : List Byte) : (c.write data).toStaging = c.toStaging := by
  rw [write]
  split
  · rfl
  · split <;> simp [stage]

@[simp] theorem toStaging_finish : c.finish.toStaging = c.toStaging := by
  rw [finish]
  split
  · rfl
  · dsimp only
    split <;> simp [stage]

/-- **The staging half of a handler** runs on its own: streaming neither reads its results back nor
changes them. -/
theorem toStaging_handle (ops : List Op) (c : Conn) :
    (c.handle ops).toStaging = ops.foldl Staging.apply c.toStaging := by
  induction ops generalizing c with
  | nil => rfl
  | cons op ops ih =>
    have hop : (c.apply op).toStaging = c.toStaging.apply op := by
      cases op with
      | write data => exact toStaging_write c data
      | finish => exact toStaging_finish c
      | _ => rfl
    exact (ih (c.apply op)).trans (congrArg (ops.foldl Staging.apply) hop)

end Conn

end Cornet.Http.Server
