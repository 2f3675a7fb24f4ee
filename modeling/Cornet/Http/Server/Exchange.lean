import Cornet.Http.Server.Chunks

/-!
# Http/Server/Exchange — a request with a well-behaved handler, and the response that is its own

    headers · one body call · headers        ↦   [100]  head  lines  CRLF  body
    headers · chunked · writes · finish      ↦   [100]  head  lines  CRLF  chunk … chunk  last-chunk

`Exchange.own` says what the answer to one request is, with no buffer in sight.  The rest of the
file computes what the handler and the framing do to the staging buffers, and finds `own` there.
-/

namespace Cornet.Http.Server

open List

/-! ## Well-behaved handlers -/

/-- The calls that set the status or a header. -/
inductive HeadOp
  | status (s : Status)
  | header (f : Field) (value : List Byte)
  | headerNamed (name value : List Byte)
  | headerU64 (f : Field) (value : ℕ)
  deriving DecidableEq, Repr

namespace HeadOp

def op : HeadOp → Op
  | status s => .status s
  | header f v => .header f v
  | headerNamed n v => .headerNamed n v
  | headerU64 f v => .headerU64 f v

/-- The line a call writes. -/
def line : HeadOp → List Byte
  | status _ => []
  | header f v => headerText f v
  | headerNamed n v => namedText n v
  | headerU64 f v => numberText f v

def setStatus (s : Status) : HeadOp → Status
  | status s' => s'
  | _ => s

def note (saw : Saw) : HeadOp → Saw
  | status _ => saw
  | header f _ => saw.note f
  | headerNamed n _ => saw.note (fieldFromName n)
  | headerU64 f _ => saw.note f

end HeadOp

/-- The body calls. -/
inductive Kind
  | empty
  | inline (data : List Byte)
  | static (data : List Byte)
  | owned (data : List Byte)
  | localFile (data : List Byte)
  | file (data : List Byte)
  | chunked (chunks : List (List Byte))
  deriving DecidableEq, Repr

namespace Kind

def ops : Kind → List Op
  | empty => []
  | inline data => [.body data]
  | static data => [.bodyStatic data]
  | owned data => [.bodyOwned (some data)]
  | localFile data => [.localFile (some data)]
  | file data => [.file (some data)]
  | chunked chunks => .chunked :: (chunks.map .write ++ [.finish])

/-- The bytes of an unstreamed body. -/
def data : Kind → List Byte
  | inline data | static data | owned data | localFile data | file data => data
  | _ => []

def streams : Kind → Bool
  | chunked _ => true
  | _ => false

def chunks : Kind → List (List Byte)
  | chunked cs => cs
  | _ => []

end Kind

/-- A request and what its handler does. -/
structure Exchange where
  head : Bool := false
  keepAlive : Bool := true
  expectsContinue : Bool := false
  carried : Bool := false
  streaming : Bool := false
  date : List Byte := []
  before : List HeadOp := []
  kind : Kind
  after : List HeadOp := []
  deriving DecidableEq, Repr

namespace Exchange

variable (o : Options) (e : Exchange)

/-- Headers after `chunked()` would come too late, and are not sent. -/
def headOps : List HeadOp := if e.kind.streams then e.before else e.before ++ e.after

def req : Req where
  head := e.head
  keepAlive := e.keepAlive
  expectsContinue := e.expectsContinue
  carried := e.carried
  streaming := e.streaming
  date := e.date
  ops := e.before.map HeadOp.op ++ e.kind.ops ++
    if e.kind.streams then [] else e.after.map HeadOp.op

def status : Status := e.headOps.foldl HeadOp.setStatus .ok

def saw : Saw := e.headOps.foldl HeadOp.note {}

def lines : List Byte := e.headOps.flatMap HeadOp.line

/-- Whether the connection is to close after the response. -/
def closes : Bool := !e.keepAlive || e.status.forcesClose

/-- Whether this round stages an interim response. -/
def interims : Bool := e.expectsContinue && !e.carried

def interim : List Byte := if e.interims then Status.text .interim ++ crlf else []

/-- The head: a streamed one is framed before it is known that the connection is to close. -/
def headBytes : List Byte :=
  if e.kind.streams then headText o e.date e.status e.saw true 0 false
  else headText o e.date e.status e.saw false e.kind.data.length e.closes

/-- The body on the wire. -/
def payload : List Byte :=
  if e.kind.streams then e.kind.chunks.flatMap chunkText ++ Conn.kTerm
  else if e.status.forbidsBody || e.head then [] else e.kind.data

/-- **The response of a request**, on its own. -/
def own : List Byte := e.interim ++ e.headBytes o ++ e.lines ++ crlf ++ e.payload

/-- The slots of `pending_` the response takes. -/
def slots : ℕ := (if e.interims then 1 else 0) + if e.kind.streams then 0 else 1

/-- Lengths that a 32-bit slot can hold, and chunks whose framing does not overflow one. -/
def Small : Prop := e.kind.data.length < 2 ^ 32 ∧ ∀ d ∈ e.kind.chunks, d.length + 20 < 2 ^ 32

instance : Decidable e.Small := inferInstanceAs (Decidable (_ ∧ _))

end Exchange

/-! ## What the handler stages -/

/-- A response just begun. -/
structure Response.Begun (r : Response) : Prop where
  source_eq : r.source = .none
  bodyLen_eq : r.bodyLen = 0
  err_eq : r.err = none
  status_eq : r.status = .ok
  saw_eq : r.saw = {}

namespace Staging

variable {s : Staging}

/-- The response in flight has this unstreamed body. -/
def Carries (s : Staging) (data : List Byte) : Prop :=
  s.resp.bodyLen = data.length ∧
    match s.resp.source with
    | .none => data = []
    | .inline =>
      s.resp.bodyOff + data.length ≤ s.bodyOut.size ∧
        s.bodyOut.view s.resp.bodyOff data.length = data
    | .external => s.resp.external = data
    | .file => s.resp.file = data
    | .streaming => False

theorem Carries.source_ne {data : List Byte} (h : s.Carries data) : s.resp.source ≠ .streaming := by
  intro hsrc
  have := h.2
  rw [hsrc] at this
  exact this

/-- `s'` is `s` after some status and header calls. -/
structure Headed (s s' : Staging) (ops : List HeadOp) : Prop where
  rest : s' = { s with hdrOut := s'.hdrOut, resp := s'.resp }
  hdr : s.hdrOut.Adds (ops.flatMap HeadOp.line) s'.hdrOut
  resp_eq : s'.resp = { s.resp with
    status := ops.foldl HeadOp.setStatus s.resp.status
    saw := ops.foldl HeadOp.note s.resp.saw
    hdrEnd := s'.resp.hdrEnd }

theorem headed_foldl (ops : List HeadOp) (s : Staging) :
    s.Headed ((ops.map HeadOp.op).foldl apply s) ops := by
  induction ops generalizing s with
  | nil => exact ⟨rfl, .refl _, rfl⟩
  | cons op ops ih =>
    have h := ih (s.apply op.op)
    refine ⟨h.rest.trans ?_, OutBuffer.Adds.trans ?_ h.hdr, h.resp_eq.trans ?_⟩
    · cases op <;> rfl
    · cases op with
      | status _ => exact .refl _
      | header f v => exact Serializer.adds_header f v
      | headerNamed n v => exact Serializer.adds_headerNamed n v
      | headerU64 f v => exact Serializer.adds_headerU64 f v
    · cases op <;> rfl

/-- The copy goes through when the room was checked. -/
theorem carries_putBody {data : List Byte} (hl : data.length < 2 ^ 32) (herr : s.bodyOut.err = none)
    (hroom : data.length ≤ s.bodyOut.remaining) :
    (s.putBody data).Carries data ∧ (s.putBody data).resp =
      { s.resp with bodyOff := s.bodyOut.size, bodyLen := data.length, source := .inline } := by
  have hout : (s.bodyOut.put data).err = none :=
    OutBuffer.err_append_of_le herr (by rwa [clip_of_lt hl])
  have hadds := OutBuffer.adds_put_of_lt (b := s.bodyOut) hl
  have hresp : (s.putBody data).resp =
      { s.resp with bodyOff := s.bodyOut.size, bodyLen := data.length, source := .inline } := by
    rw [putBody]
    dsimp only
    rw [hout]
  refine ⟨?_, hresp⟩
  rw [Carries, hresp]
  exact ⟨rfl, (hadds.size_eq hout).ge, hadds.added hout⟩

/-- `s'` is `s` with the body call made. -/
structure Bodied (s s' : Staging) (data : List Byte) : Prop where
  rest : s' = { s with bodyOut := s'.bodyOut, resp := s'.resp }
  status_eq : s'.resp.status = s.resp.status
  saw_eq : s'.resp.saw = s.resp.saw
  hdrOff_eq : s'.resp.hdrOff = s.resp.hdrOff
  err_eq : s'.resp.err = s.resp.err
  carries : s'.Carries data

theorem bodied_setExternal (s : Staging) (data : List Byte) : s.Bodied (s.setExternal data) data :=
  ⟨rfl, rfl, rfl, rfl, rfl, rfl, rfl⟩

theorem bodied_openFile (s : Staging) (data : List Byte) :
    s.Bodied (s.openFile (some data)) data :=
  ⟨rfl, rfl, rfl, rfl, rfl, rfl, rfl⟩

theorem bodied_body {data : List Byte} (hsrc : s.resp.source = .none) (hl : data.length < 2 ^ 32)
    (herr : s.bodyOut.err = none) : s.Bodied (s.body data) data := by
  rw [body, if_neg (by simp [hsrc])]
  split
  · exact bodied_setExternal s data
  · obtain ⟨hcarries, hresp⟩ := carries_putBody hl herr (by omega)
    refine ⟨rfl, ?_, ?_, ?_, ?_, hcarries⟩ <;> rw [hresp]

/-- The body call. -/
theorem bodied_kind {k : Kind} (hk : k.streams = false) (hsrc : s.resp.source = .none)
    (hlen : s.resp.bodyLen = 0) (hl : k.data.length < 2 ^ 32) (herr : s.bodyOut.err = none) :
    s.Bodied (k.ops.foldl apply s) k.data := by
  have hfresh : ¬s.resp.source ≠ .none := by simp [hsrc]
  cases k with
  | empty =>
    refine ⟨rfl, rfl, rfl, rfl, rfl, ?_⟩
    change s.Carries []
    rw [Carries, hsrc]
    exact ⟨hlen, rfl⟩
  | inline data => exact bodied_body hsrc hl herr
  | static data =>
    have heq : s.bodyStatic data = s.setExternal data := if_neg hfresh
    exact (congrArg (s.Bodied · data) heq).mpr (bodied_setExternal s data)
  | owned data =>
    have heq : s.bodyOwned (some data) = s.setExternal data := if_neg hfresh
    exact (congrArg (s.Bodied · data) heq).mpr (bodied_setExternal s data)
  | localFile data =>
    have heq : s.localFile (some data) = s.openFile (some data) := if_neg hfresh
    exact (congrArg (s.Bodied · data) heq).mpr (bodied_openFile s data)
  | file data =>
    have heq : s.file (some data) = s.openFile (some data) := if_neg hfresh
    exact (congrArg (s.Bodied · data) heq).mpr (bodied_openFile s data)
  | chunked _ => cases hk

/-- `s'` is `s` after the handler of an unstreamed exchange. -/
structure Drafted (s s' : Staging) (e : Exchange) : Prop where
  rest : s' = { s with hdrOut := s'.hdrOut, bodyOut := s'.bodyOut, resp := s'.resp }
  hdr : s.hdrOut.Adds e.lines s'.hdrOut
  status_eq : s'.resp.status = e.status
  saw_eq : s'.resp.saw = e.saw
  hdrOff_eq : s'.resp.hdrOff = s.resp.hdrOff
  err_eq : s'.resp.err = none
  carries : s'.Carries e.kind.data

/-- **An unstreamed handler** stages its header lines and its body. -/
theorem drafted_handle {e : Exchange} (hk : e.kind.streams = false) (hr : s.resp.Begun)
    (hl : e.kind.data.length < 2 ^ 32) (herr : s.bodyOut.err = none) :
    s.Drafted (e.req.ops.foldl apply s) e := by
  have hops : e.req.ops = e.before.map HeadOp.op ++ e.kind.ops ++ e.after.map HeadOp.op := by
    simp [Exchange.req, hk]
  have hhead : e.headOps = e.before ++ e.after := by simp [Exchange.headOps, hk]
  rw [hops, foldl_append, foldl_append]
  have h₁ := headed_foldl e.before s
  generalize (e.before.map HeadOp.op).foldl apply s = s₁ at h₁ ⊢
  have h₂ := bodied_kind (s := s₁) hk (by rw [h₁.resp_eq]; exact hr.source_eq)
    (by rw [h₁.resp_eq]; exact hr.bodyLen_eq) hl (by rw [h₁.rest]; exact herr)
  generalize e.kind.ops.foldl apply s₁ = s₂ at h₂ ⊢
  have h₃ := headed_foldl e.after s₂
  generalize (e.after.map HeadOp.op).foldl apply s₂ = s₃ at h₃ ⊢
  have hhdr₂ : s₂.hdrOut = s₁.hdrOut := by rw [h₂.rest]
  have hbody₃ : s₃.bodyOut = s₂.bodyOut := by rw [h₃.rest]
  refine ⟨?_, ?_, ?_, ?_, ?_, ?_, ?_⟩
  · rw [h₃.rest, h₂.rest, h₁.rest]
  · rw [Exchange.lines, hhead, flatMap_append]
    exact h₁.hdr.trans (hhdr₂ ▸ h₃.hdr)
  · rw [h₃.resp_eq, Exchange.status, hhead, foldl_append, ← hr.status_eq]
    change e.after.foldl HeadOp.setStatus s₂.resp.status = _
    rw [h₂.status_eq, h₁.resp_eq]
  · rw [h₃.resp_eq, Exchange.saw, hhead, foldl_append, ← hr.saw_eq]
    change e.after.foldl HeadOp.note s₂.resp.saw = _
    rw [h₂.saw_eq, h₁.resp_eq]
  · rw [h₃.resp_eq]
    exact h₂.hdrOff_eq.trans (by rw [h₁.resp_eq])
  · rw [h₃.resp_eq]
    exact h₂.err_eq.trans (by rw [h₁.resp_eq]; exact hr.err_eq)
  · rw [Carries, h₃.resp_eq, hbody₃]
    exact h₂.carries

/-- `s'` is `s` after the handler of a streamed exchange: the head is framed. -/
structure Streamed (s s' : Staging) (e : Exchange) : Prop where
  rest : s' = { s with headOut := s'.headOut, hdrOut := s'.hdrOut, resp := s'.resp }
  head : s.headOut.Adds (headText s.opt s.date e.status e.saw true 0 false) s'.headOut
  hdr : s.hdrOut.Adds (e.lines ++ crlf) s'.hdrOut
  source_eq : s'.resp.source = .streaming
  status_eq : s'.resp.status = e.status
  err_eq : s'.resp.err = none
  hdrOff_eq : s'.resp.hdrOff = s.resp.hdrOff
  hdrEnd_eq : s'.resp.hdrEnd = s'.hdrOut.size

/-- **A streamed handler** frames its head at `chunked()`. -/
theorem streamed_handle {e : Exchange} (hk : e.kind.streams = true) (hr : s.resp.Begun) :
    s.Streamed ((e.before.map HeadOp.op).foldl apply s).stageHeaders e := by
  have h₁ := headed_foldl e.before s
  generalize (e.before.map HeadOp.op).foldl apply s = s₁ at h₁ ⊢
  have hhead : e.headOps = e.before := by simp [Exchange.headOps, hk]
  have hsrc : s₁.resp.source = .none := by
    rw [h₁.resp_eq]
    exact hr.source_eq
  have hstage : s₁.stageHeaders =
      { s₁ with resp := { s₁.resp with source := .streaming } }.frameHead false := by
    rw [stageHeaders, if_neg (by simp [hsrc])]
  have hstatus : s₁.resp.status = e.status := by
    rw [h₁.resp_eq, Exchange.status, hhead, ← hr.status_eq]
  have hsaw : s₁.resp.saw = e.saw := by
    rw [h₁.resp_eq, Exchange.saw, hhead, ← hr.saw_eq]
  have hadds := adds_putHead (s := { s₁ with resp := { s₁.resp with source := .streaming } })
    s₁.headOut false
  have hlen : s₁.resp.bodyLen = 0 := by
    rw [h₁.resp_eq]
    exact hr.bodyLen_eq
  have hopt : s₁.opt = s.opt := by rw [h₁.rest]
  have hdate : s₁.date = s.date := by rw [h₁.rest]
  have hout : s₁.headOut = s.headOut := by rw [h₁.rest]
  rw [hstage]
  refine ⟨?_, ?_, ?_, rfl, hstatus, ?_, ?_, rfl⟩
  · change { s₁ with hdrOut := _, headOut := _, resp := _ } = _
    rw [h₁.rest]
    rfl
  · have htext : headText s₁.opt s₁.date s₁.resp.status s₁.resp.saw true s₁.resp.bodyLen false =
        headText s.opt s.date e.status e.saw true 0 false := by
      rw [hstatus, hsaw, hlen, hopt, hdate]
    rw [← htext, ← hout]
    exact hadds
  · rw [Exchange.lines, hhead]
    exact h₁.hdr.trans OutBuffer.adds_putCrlf
  · change s₁.resp.err = none
    rw [h₁.resp_eq]
    exact hr.err_eq
  · change s₁.resp.hdrOff = _
    rw [h₁.resp_eq]

/-! ## What framing queues -/

/-- Where the recorded header window of a response starts: at the end of the buffer, unless the
response was begun in an earlier round. -/
def offsetOf (s : Staging) (e : Exchange) : ℕ := if e.carried then s.resp.hdrOff else s.hdrOut.size

/-- The window of the user headers as it is queued. -/
def window (s : Staging) (p : Pending) : List Byte := s.hdrOut.view p.hdrOff p.hdrLen

theorem pendingOf_windows (s framed : Staging) (headRequest : Bool) :
    (pendingOf s framed headRequest).headOff = s.headOut.size ∧
      (pendingOf s framed headRequest).headLen = framed.headOut.size - s.headOut.size ∧
      (pendingOf s framed headRequest).hdrOff = framed.resp.hdrOff ∧
      (pendingOf s framed headRequest).hdrLen = framed.resp.hdrLength := by
  rw [pendingOf]
  dsimp only
  split <;> exact ⟨rfl, rfl, rfl, rfl⟩

/-- The body window of a descriptor. -/
theorem Carries.renderBody_pendingOf {framed t : Staging} {data : List Byte}
    (hc : framed.Carries data) (s : Staging) (headRequest : Bool) (hl : data.length < 2 ^ 32)
      (ht : framed.bodyOut.Grows t.bodyOut) :
    t.renderBody (pendingOf s framed headRequest) =
        (if framed.resp.status.forbidsBody || headRequest then [] else data) ∧
      ((pendingOf s framed headRequest).source = .inline →
        (pendingOf s framed headRequest).bodyOff + (pendingOf s framed headRequest).bodyLen ≤
          t.bodyOut.size) := by
  obtain ⟨hlen, hsrc⟩ := hc
  rw [pendingOf, hlen, Nat.mod_eq_of_lt hl]
  dsimp only
  split
  · rename_i hsends
    have hbody : (framed.resp.status.forbidsBody || headRequest) = false := by
      simp only [Bool.and_eq_true, Bool.not_eq_true'] at hsends
      simp [hsends.1.1, hsends.1.2]
    rw [renderBody, hbody]
    dsimp only
    revert hsrc
    cases framed.resp.source with
    | none => exact fun h => ⟨h.symm, by simp⟩
    | inline => exact fun h => ⟨(ht.keeps h.1).trans h.2, fun _ => h.1.trans ht.size_le⟩
    | external | file => exact fun h => ⟨by rw [h]; exact take_length, by simp⟩
    | streaming => exact False.elim
  · rename_i hsends
    refine ⟨?_, by simp⟩
    change [] = _
    split
    · rfl
    · rename_i hbody
      rw [Bool.or_eq_true, not_or, Bool.not_eq_true, Bool.not_eq_true] at hbody
      have hempty : ¬0 < data.length := fun h => hsends (by simp only [hbody.1, hbody.2, h]; rfl)
      exact (length_eq_zero_iff.mp (by omega)).symm

/-- The header window of a descriptor, recorded from `r.hdrOff` to the end of the sealed block. -/
theorem window_of_adds {b b' t : OutBuffer} {l : List Byte} {r : Response} (h : b.Adds l b')
    (ht : b'.Grows t) (herr : t.err = none) (hl : 0 < l.length) (hend : r.hdrEnd = b'.size) :
    (r.hdrOff + r.hdrLength ≤ t.size ∨ r.hdrLength = 0) ∧
      (r.hdrOff = b.size → t.view r.hdrOff r.hdrLength = l) ∧
      (b.size < r.hdrOff → r.hdrLength < l.length) := by
  have hsize := h.size_eq (ht.err_none herr)
  have hgrow := ht.size_le
  rw [Response.hdrLength, hend]
  refine ⟨?_, fun hoff => ?_, fun hoff => ?_⟩
  · split
    · left
      omega
    · exact .inr rfl
  · rw [if_pos (by omega), hoff, ht.keeps (by omega), hsize, Nat.add_sub_cancel_left]
    exact h.added (ht.err_none herr)
  · split <;> omega

/-- The window a descriptor records for what was just written. -/
theorem added_window {b b' t : OutBuffer} {l : List Byte} (h : b.Adds l b') (ht : b'.Grows t)
    (herr : t.err = none) :
    b.size + (b'.size - b.size) ≤ t.size ∧ t.view b.size (b'.size - b.size) = l := by
  have hsize := h.size_eq (ht.err_none herr)
  have hgrow := ht.size_le
  refine ⟨by omega, ?_⟩
  rw [ht.keeps (by omega), hsize, Nat.add_sub_cancel_left]
  exact h.added (ht.err_none herr)

/-- The head of a drafted response. -/
theorem Drafted.adds_head {s' : Staging} {e : Exchange} (hd : s.Drafted s' e) (closeAfter : Bool) :
    s'.headOut.Adds (headText s.opt s.date e.status e.saw false e.kind.data.length closeAfter)
      (s'.frameHead closeAfter).headOut := by
  have h := adds_putHead (s := s') s'.headOut closeAfter
  have hsrc : (s'.resp.source == .streaming) = false := beq_false_of_ne hd.carries.source_ne
  have hopt : s'.opt = s.opt := by rw [hd.rest]
  have hdate : s'.date = s.date := by rw [hd.rest]
  rw [hd.status_eq, hd.saw_eq, hsrc, hd.carries.1, hopt, hdate] at h
  exact h

/-- The descriptor of a drafted response, and what it stands for once its head is framed. -/
theorem Drafted.queued {s' t : Staging} {e : Exchange} (hd : s.Drafted s' e) (closeAfter : Bool)
    (hl : e.kind.data.length < 2 ^ 32) (ht : (s'.frameHead closeAfter).Grows t)
    (hhead : t.headOut.err = none) (hhdr : t.hdrOut.err = none) :
    let p := pendingOf s' (s'.frameHead closeAfter) e.head
    t.Within p ∧
      t.render p = headText s.opt s.date e.status e.saw false e.kind.data.length closeAfter ++
        t.window p ++ (if e.status.forbidsBody || e.head then [] else e.kind.data) ∧
      (s.resp.hdrOff = s.hdrOut.size → t.window p = e.lines ++ crlf) ∧
      (s.hdrOut.size < s.resp.hdrOff → (t.window p).length < (e.lines ++ crlf).length) := by
  have hcarries : (s'.frameHead closeAfter).Carries e.kind.data := hd.carries
  have hstatus : (s'.frameHead closeAfter).resp.status = e.status := hd.status_eq
  have hhdrOff : (s'.frameHead closeAfter).resp.hdrOff = s.resp.hdrOff := hd.hdrOff_eq
  obtain ⟨hbody, hinline⟩ := hcarries.renderBody_pendingOf s' e.head hl ht.body
  obtain ⟨hoff, hlen, hhoff, hhlen⟩ := pendingOf_windows s' (s'.frameHead closeAfter) e.head
  obtain ⟨hin, hbytes⟩ := added_window (hd.adds_head closeAfter) ht.head hhead
  obtain ⟨hwin, hfresh, hstale⟩ := window_of_adds (r := (s'.frameHead closeAfter).resp)
    (hd.hdr.trans OutBuffer.adds_putCrlf) ht.hdr hhdr (by simp [crlf]) rfl
  intro p
  refine ⟨⟨?_, ?_, hinline⟩, ?_, ?_, ?_⟩
  · rw [hoff, hlen]
    exact hin
  · rw [hhoff, hhlen]
    exact hwin
  · rw [render, renderHead, hbody, hoff, hlen, hbytes, hstatus]
    rfl
  · intro h
    rw [window, hhoff, hhlen]
    exact hfresh (hhdrOff.trans h)
  · intro h
    rw [window, OutBuffer.view, Mem.length_read, hhlen]
    exact hstale (h.trans_eq hhdrOff.symm)

/-- `s'` is `s` once a request is up for answering; `news` is its interim response. -/
structure Prepared (s s' : Staging) (e : Exchange) (news : List Pending) : Prop where
  rest : s' = { s with
    date := e.date, headOut := s'.headOut, resp := s'.resp, pending := s.pending ++ news }
  head : s.headOut.Adds e.interim s'.headOut
  begun : (e.carried → s.resp.Begun) → s'.resp.Begun
  hdrOff_eq : s'.resp.hdrOff = s.offsetOf e
  length_eq : news.length = if e.interims then 1 else 0
  first : ∀ p ∈ news, p.headOff = s.headOut.size ∧ p.headLen = s'.headOut.size - s.headOut.size
  queued : ∀ t, s'.Grows t → t.headOut.err = none →
    (∀ p ∈ news, t.Within p) ∧ news.flatMap t.render = e.interim

theorem writeContinue_of_lt (h : s.pending.length < kPending) :
    s.writeContinue =
      { s with headOut := (Serializer.statusLine s.headOut .interim).putCrlf }.enqueue
        { headOff := s.headOut.size
          headLen := (Serializer.statusLine s.headOut .interim).putCrlf.size - s.headOut.size } :=
  if_pos h

theorem prepared_prepare {e : Exchange}
    (hslots : s.pending.length + e.slots ≤ kPending) :
    ∃ news, s.Prepared (s.prepare e.req) e news := by
  have hprep : s.prepare e.req =
      if e.carried then { s with date := e.date }
      else if e.expectsContinue then { s with date := e.date }.begin.writeContinue
      else { s with date := e.date }.begin := rfl
  rw [hprep]
  cases hi : e.interims with
  | false =>
    have hinterim : e.interim = [] := by simp [Exchange.interim, hi]
    refine ⟨[], ?_⟩
    rw [Exchange.interims, Bool.and_eq_false_iff] at hi
    split
    · refine ⟨by simp, hinterim ▸ .refl _, fun hb => hb ‹_›, ?_, ?_, nofun,
        fun t _ _ => ⟨by simp, hinterim.symm⟩⟩
      · simp [offsetOf, ‹e.carried = true›]
      · simp [Exchange.interims, ‹e.carried = true›]
    · rename_i hc
      have he : e.expectsContinue = false := hi.resolve_right (by simpa using hc)
      rw [if_neg (by simp [he])]
      refine ⟨by simp [begin], hinterim ▸ .refl _, fun _ => ⟨rfl, rfl, rfl, rfl, rfl⟩, ?_, ?_, nofun,
        fun t _ _ => ⟨by simp, hinterim.symm⟩⟩
      · simp [offsetOf, hc, begin]
      · simp [Exchange.interims, he]
  | true =>
    have hinterim : e.interim = Status.text .interim ++ crlf := by simp [Exchange.interim, hi]
    have hroom : { s with date := e.date }.begin.pending.length < kPending := by
      simp only [Exchange.slots, hi, if_true] at hslots
      change s.pending.length < kPending
      omega
    have hlen : (1 : ℕ) = if e.interims then 1 else 0 := by simp [hi]
    rw [Exchange.interims, Bool.and_eq_true, Bool.not_eq_true'] at hi
    rw [if_neg (by simp [hi.2]), if_pos hi.1, writeContinue_of_lt hroom]
    refine ⟨_, rfl, hinterim ▸ adds_interim, fun _ => ⟨rfl, rfl, rfl, rfl, rfl⟩, ?_, hlen, ?_,
      fun t ht herr => ?_⟩
    · simp [offsetOf, hi.2, enqueue, begin]
    · intro p hp
      obtain rfl := mem_singleton.mp hp
      exact ⟨rfl, rfl⟩
    · obtain ⟨hin, hbytes⟩ := added_window (adds_interim (s := s)) ht.head herr
      refine ⟨fun p hp => ?_, ?_⟩
      · obtain rfl := mem_singleton.mp hp
        exact ⟨hin, .inr rfl, nofun⟩
      · rw [flatMap_singleton, hinterim]
        change t.headOut.view s.headOut.size _ ++ [] ++ [] = _
        rw [append_nil, append_nil]
        exact hbytes

end Staging

end Cornet.Http.Server
