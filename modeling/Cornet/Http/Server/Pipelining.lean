import Cornet.Http.Server.Exchange

/-!
# Http/Server/Pipelining — the wire order of a round

    output  =  what has left  ++  what the queued responses stand for

One request answered appends its own response to `output`, if nothing goes wrong.  Two things do:
the first flush of a streamed response sends the *whole* head buffer, with the heads still queued in
it, and a response begun in an earlier round still points where its headers would have been there.
-/

namespace Cornet.Http.Server

open List Staging

namespace Conn

variable {c : Conn} {e : Exchange}

/-- What the round has put out so far: the bytes that have left, and those that are queued. -/
def output (c : Conn) : List Byte := c.wire ++ c.pending.flatMap c.render

/-- Nothing has failed, and no response is half way out. -/
structure Ready (c : Conn) : Prop where
  sound : c.broken = false
  idle : c.streamOut.Holds []
  alive : c.socket = live
  unstaged : c.headersStaged = false
  running : c.closing = false
  within : ∀ p ∈ c.pending, c.Within p

theorem not_broken_iff {s : Staging} :
    s.broken = false ↔ s.headOut.err = none ∧ s.hdrOut.err = none ∧ s.bodyOut.err = none := by
  simp [Staging.broken, OutBuffer.failed, and_assoc]

theorem broken_of_grows {s t : Staging} (h : s.Grows t)
    (ht : t.broken = false) : s.broken = false := by
  rw [not_broken_iff] at ht ⊢
  exact ⟨h.head.err_none ht.1, h.hdr.err_none ht.2.1, h.body.err_none ht.2.2⟩

/-! ## The end of a request -/

/-- A response that did not fail and is not left open is framed. -/
theorem conclude_framed {q : Req} (hq : q.drainError = none) (hfail : c.respFailed = false)
    (hopen : c.needsStreamingSettlement = false) :
    ∃ b, c.conclude q =
      ({ c.staged (·.frameResponse q.head
           (!q.keepAlive || c.closing || c.resp.status.forcesClose)) with
        closeAfterFlush := b },
        !q.keepAlive || c.closing || c.resp.status.forcesClose) := by
  rw [conclude, hq]
  dsimp only
  rw [if_neg (by simp [hfail]), if_neg (by simp [hopen])]
  split
  · rename_i h
    rw [h]
    exact ⟨true, rfl⟩
  · rename_i h
    rw [Bool.not_eq_true] at h
    rw [h]
    exact ⟨_, rfl⟩

/-- A failed buffer shows through the error response. -/
theorem respFailed_of_conclude {q : Req} (hq : q.drainError = none) (herr : c.resp.err = none)
    (hok : (c.conclude q).1.broken = false) : c.respFailed = false := by
  by_contra hfail
  rw [Bool.not_eq_false] at hfail
  rw [conclude, hq] at hok
  dsimp only at hok
  rw [if_pos hfail] at hok
  have h := broken_of_grows (grows_writeError c.toStaging q.head .internalServerError) hok
  rw [not_broken_iff] at h
  simp [Staging.respFailed, OutBuffer.failed, herr, h.2.1, h.2.2] at hfail

theorem frameResponse_of_lt {s : Staging} {headRequest closeAfter : Bool}
    (hsrc : s.resp.source ≠ .streaming) (h : s.pending.length < Staging.kPending) :
    s.frameResponse headRequest closeAfter =
      (s.frameHead closeAfter).enqueue
        (Staging.pendingOf s (s.frameHead closeAfter) headRequest) := by
  rw [Staging.frameResponse, if_neg hsrc]
  exact if_pos h

end Conn

/-! ## Handlers that do not stream -/

/-- The call only stages. -/
def Op.stages : Op → Bool
  | .chunked | .write _ | .finish => false
  | _ => true

theorem HeadOp.stages_op (op : HeadOp) : op.op.stages = true := by cases op <;> rfl

theorem Kind.stages_ops {k : Kind} (hk : k.streams = false) : ∀ op ∈ k.ops, op.stages = true := by
  cases k with
  | chunked _ => cases hk
  | empty => nofun
  | _ => exact fun op hop => by rw [mem_singleton.mp hop]; rfl

theorem Exchange.stages_ops {e : Exchange} (hk : e.kind.streams = false) :
    ∀ op ∈ e.req.ops, op.stages = true := by
  have hhead (ops : List HeadOp) : ∀ op ∈ ops.map HeadOp.op, op.stages = true := by
    intro op hop
    obtain ⟨o, -, rfl⟩ := mem_map.mp hop
    exact o.stages_op
  intro op hop
  simp only [Exchange.req, hk, mem_append] at hop
  rcases hop with (hop | hop) | hop
  · exact hhead _ op hop
  · exact Kind.stages_ops hk op hop
  · exact hhead _ op hop

namespace Conn

variable {c : Conn} {e : Exchange}

theorem handle_of_stages : ∀ {ops : List Op} {c : Conn}, (∀ op ∈ ops, op.stages = true) →
    c.handle ops = c.staged (ops.foldl Staging.apply ·)
  | [], _, _ => rfl
  | op :: ops, c, h => by
      have hop : c.apply op = c.staged (·.apply op) := by
        have := h op mem_cons_self
        cases op <;> first | rfl | cases this
      have ih := handle_of_stages (c := c.apply op) fun o ho => h o (mem_cons_of_mem _ ho)
      rw [hop] at ih
      exact (congrArg (fun d => Conn.handle d ops) hop).trans ih

/-- The steps of an unstreamed answer. -/
theorem answer_unstreamed_eq (hc : c.Ready) (hk : e.kind.streams = false) (hl : e.Small)
    (hb : e.carried → c.resp.Begun) (hslots : c.pending.length + e.slots ≤ Staging.kPending)
    (hok : (c.answer e.req).1.broken = false) :
    ∃ s₀ s news b, c.toStaging.Prepared s₀ e news ∧ s₀.Drafted s e ∧
      c.toStaging.Grows s₀ ∧ s₀.Grows s ∧ c.answer e.req =
      ({ c with toStaging := { (s.frameHead e.closes).enqueue
          (Staging.pendingOf s (s.frameHead e.closes) e.head) with closeAfterFlush := b } },
        e.closes) := by
  obtain ⟨news, hp⟩ := prepared_prepare (s := c.toStaging) hslots
  have hpbody : (c.toStaging.prepare e.req).bodyOut.err = none := by
    rw [hp.rest]
    exact (not_broken_iff.mp hc.sound).2.2
  have hd := drafted_handle hk (hp.begun hb) hl.1 hpbody
  have hg₀ := grows_prepare c.toStaging e.req
  have hg := grows_handle e.req.ops (c.toStaging.prepare e.req)
  have hhandle : (c.staged (·.prepare e.req)).handle e.req.ops =
      { c with toStaging := e.req.ops.foldl Staging.apply (c.toStaging.prepare e.req) } :=
    handle_of_stages (Exchange.stages_ops hk)
  rw [answer, hhandle] at hok ⊢
  generalize c.toStaging.prepare e.req = s₀ at *
  generalize e.req.ops.foldl Staging.apply s₀ = s at *
  have hdrain : e.req.drainError = none := by simp [Req.drainError, Exchange.req]
  have hopen : Conn.needsStreamingSettlement { c with toStaging := s } = false := by
    simp [needsStreamingSettlement, hd.carries.source_ne]
  have hcloses : (!e.req.keepAlive || s.closing || s.resp.status.forcesClose) = e.closes := by
    have hclosing : s.closing = false := by
      rw [hd.rest, hp.rest]
      exact hc.running
    rw [hclosing, hd.status_eq, Bool.or_false]
    rfl
  have hlt : s.pending.length < Staging.kPending := by
    rw [hd.rest, hp.rest, length_append, hp.length_eq]
    rw [Exchange.slots, hk] at hslots
    simp only [Bool.false_eq_true, if_false] at hslots
    omega
  obtain ⟨b, hconclude⟩ := conclude_framed hdrain
    (respFailed_of_conclude (c := { c with toStaging := s }) hdrain hd.err_eq hok) hopen
  change { c with toStaging := s }.conclude e.req = ({ c with toStaging := { s.frameResponse e.head
    (!e.req.keepAlive || s.closing || s.resp.status.forcesClose) with closeAfterFlush := b } },
    !e.req.keepAlive || s.closing || s.resp.status.forcesClose) at hconclude
  rw [hcloses, frameResponse_of_lt hd.carries.source_ne hlt] at hconclude
  exact ⟨s₀, s, news, b, hp, hd, hg₀, hg, hconclude⟩

/-- What answering an exchange comes to, apart from its bytes. -/
structure Answered (c : Conn) (e : Exchange) (c' : Conn) : Prop where
  ready : c'.Ready
  grows : c.toStaging.Grows c'.toStaging
  opt_eq : c'.opt = c.opt
  pending_eq : c'.pending.length = c.pending.length + e.slots
  head_lt : c.headOut.size < c'.headOut.size
  wire_eq : e.kind.streams = false → c'.wire = c.wire
  first : e.kind.streams = false → ∃ p ps, c'.pending = c.pending ++ p :: ps ∧
    p.headOff = c.headOut.size ∧ 13 ≤ p.headLen

/-- **An unstreamed response** is appended to the output of the round. -/
theorem answer_unstreamed (hc : c.Ready) (hk : e.kind.streams = false) (hl : e.Small)
    (hb : e.carried → c.resp.Begun) (hslots : c.pending.length + e.slots ≤ Staging.kPending)
    (hok : (c.answer e.req).1.broken = false) :
    (c.answer e.req).2 = e.closes ∧ c.Answered e (c.answer e.req).1 ∧ ∃ window,
      (c.answer e.req).1.output =
          c.output ++ (e.interim ++ e.headBytes c.opt ++ window ++ e.payload) ∧
        (c.offsetOf e = c.hdrOut.size → window = e.lines ++ crlf) ∧
        (c.hdrOut.size < c.offsetOf e → window.length < (e.lines ++ crlf).length) := by
  obtain ⟨s₀, s, news, b, hp, hd, hg₀, hg, heq⟩ := answer_unstreamed_eq hc hk hl hb hslots hok
  have hopt : s₀.opt = c.opt := by rw [hp.rest]
  have hdate : s₀.date = e.date := by rw [hp.rest]
  have hhdr : s₀.hdrOut = c.hdrOut := by rw [hp.rest]
  have hpending : s.pending = c.pending ++ news := by rw [hd.rest, hp.rest]
  rw [heq] at hok ⊢
  refine ⟨rfl, ?_⟩
  generalize hp' : Staging.pendingOf s (s.frameHead e.closes) e.head = p at *
  generalize ht : { (s.frameHead e.closes).enqueue p with closeAfterFlush := b } = t at *
  have hframed : (s.frameHead e.closes).Grows t := ht ▸ ⟨.refl _, .refl _, .refl _⟩
  have hgt : c.toStaging.Grows t :=
    (hg₀.trans hg).trans ((grows_frameHead s e.closes).trans hframed)
  have herr := not_broken_iff.mp hok
  obtain ⟨hwithin, hrender, hfresh, hstale⟩ := hd.queued e.closes hl.1 hframed herr.1 herr.2.1
  rw [hp'] at hwithin hrender hfresh hstale
  obtain ⟨hnews, hinterim⟩ := hp.queued t
    (hg.trans ((grows_frameHead s e.closes).trans hframed)) herr.1
  have htp : t.pending = c.pending ++ (news ++ [p]) := by
    rw [← ht, ← append_assoc, ← hpending]
    rfl
  refine ⟨⟨⟨hok, hc.idle, hc.alive, hc.unstaged, ?_, ?_⟩, hgt, ?_, ?_, ?_, fun _ => rfl, fun _ =>
    ?_⟩, t.window p,
    ?_, ?_, ?_⟩
  · change t.closing = false
    rw [← ht]
    change s.closing = false
    rw [hd.rest, hp.rest]
    exact hc.running
  · intro q hq
    rw [htp] at hq
    rcases mem_append.mp hq with hq | hq
    · exact (hc.within q hq).grows hgt
    · rcases mem_append.mp hq with hq | hq
      · exact hnews q hq
      · exact mem_singleton.mp hq ▸ hwithin
  · rw [← ht, ← hopt]
    change s.opt = s₀.opt
    rw [hd.rest]
  · rw [htp, length_append, length_append, hp.length_eq, Exchange.slots, hk]
    rfl
  · have hsize := (hd.adds_head e.closes).size_eq (hframed.head.err_none herr.1)
    have hpos := le_length_headText s₀.opt s₀.date e.status e.saw false e.kind.data.length e.closes
    have h₀ := (hg₀.trans hg).head.size_le
    have h₁ := hframed.head.size_le
    change c.headOut.size < t.headOut.size
    omega
  · have herr₀ := hg.head.err_none ((grows_frameHead s e.closes).head.err_none
      (hframed.head.err_none herr.1))
    have hsize₀ := hp.head.size_eq herr₀
    have hhead : s.headOut = s₀.headOut := by rw [hd.rest]
    obtain ⟨hoff, hlen, -⟩ := pendingOf_windows s (s.frameHead e.closes) e.head
    have hsize := (hd.adds_head e.closes).size_eq (hframed.head.err_none herr.1)
    have htext := le_length_headText s₀.opt s₀.date e.status e.saw false e.kind.data.length e.closes
    cases news with
    | nil =>
      have hquiet : e.interim.length = 0 := by
        have := hp.length_eq
        rw [Exchange.interim]
        split
        · simp [‹e.interims = true›] at this
        · rfl
      exact ⟨p, [], htp, by rw [← hp', hoff, hhead]; omega, by rw [← hp', hlen]; omega⟩
    | cons n ns =>
      have hi : e.interims = true := by
        by_contra hi
        have := hp.length_eq
        simp [hi] at this
      have hinterims : 13 ≤ e.interim.length := by
        have := le_length_statusText .interim
        simp only [Exchange.interim, hi, if_true, length_append]
        omega
      obtain ⟨h₁, h₂⟩ := hp.first n mem_cons_self
      exact ⟨n, ns ++ [p], htp, h₁, by rw [h₂]; omega⟩
  · change c.wire ++ t.pending.flatMap t.render = _
    rw [htp, flatMap_append, flatMap_append, flatMap_render_eq hc.within hgt,
      hinterim, flatMap_singleton, hrender, hopt, hdate, output, Exchange.headBytes,
      Exchange.payload, hk]
    simp only [Bool.false_eq_true, if_false, append_assoc]
  · intro h
    exact hfresh (by rw [hp.hdrOff_eq, hhdr]; exact h)
  · intro h
    exact hstale (by rw [hp.hdrOff_eq, hhdr]; exact h)

/-! ## Handlers that stream -/

/-- A stream with a sound staging half and a live transport, between two calls of the writer. -/
structure Streaming (c : Conn) : Prop where
  source_eq : c.resp.source = .streaming
  idle : c.streamOut.Holds []
  alive : c.socket = live

/-- One write: the chunk leaves behind the header section, unless the head did not fit. -/
theorem Streaming.write {d : List Byte} (hc : c.Streaming) (hl : d.length + 20 < 2 ^ 32) :
    (c.write d).Streaming ∧ (c.headOut.err = none → c.hdrOut.err = none →
      (c.write d).wire ++ (c.write d).unsent = c.wire ++ (c.unsent ++ chunkText d)) := by
  have hstaging : (c.write d).toStaging = c.toStaging := toStaging_write c d
  by_cases hd : d = []
  · subst hd
    have heq : c.write [] = c := by simp [Conn.write]
    rw [heq]
    exact ⟨hc, fun _ _ => by simp [chunkText]⟩
  · by_cases hfail : c.headOut.err = none ∧ c.hdrOut.err = none
    · obtain ⟨hun, -, hputs⟩ := write_spec hc.idle hc.source_eq hfail.1 hfail.2 hd hl
      have hwhole := hputs.resolve_right fun hcut => hcut.not_alive hc.alive
      have hunsent : (c.write d).unsent = [] := if_neg (by simp [hun])
      rw [hwhole.wire_eq, hunsent, append_nil]
      exact ⟨⟨hstaging ▸ hc.source_eq, hwhole.idle, hwhole.alive hc.alive⟩, fun _ _ => rfl⟩
    · have heq : c.write d = c := by
        refine if_pos ?_
        simp only [Option.isSome_iff_ne_none, OutBuffer.failed, Bool.or_eq_true]
        tauto
      rw [heq]
      exact ⟨hc, fun h₁ h₂ => absurd ⟨h₁, h₂⟩ hfail⟩

/-- **The writes of a handler.** -/
theorem Streaming.handle_writes {chunks : List (List Byte)}
    (hl : ∀ d ∈ chunks, d.length + 20 < 2 ^ 32) (hc : c.Streaming) :
    (c.handle (chunks.map .write)).Streaming ∧ (c.headOut.err = none → c.hdrOut.err = none →
      (c.handle (chunks.map .write)).wire ++ (c.handle (chunks.map .write)).unsent =
        c.wire ++ (c.unsent ++ chunks.flatMap chunkText)) := by
  induction chunks generalizing c with
  | nil => exact ⟨hc, fun _ _ => by simp [handle]⟩
  | cons d chunks ih =>
    obtain ⟨hc₁, hwire₁⟩ := hc.write (hl d mem_cons_self)
    obtain ⟨hc₂, hwire₂⟩ := ih (fun x hx => hl x (mem_cons_of_mem _ hx)) hc₁
    refine ⟨hc₂, fun hhead hhdr => ?_⟩
    have hstaging : (c.write d).toStaging = c.toStaging := toStaging_write c d
    change ((c.write d).handle _).wire ++ ((c.write d).handle _).unsent = _
    rw [hwire₂ (hstaging ▸ hhead) (hstaging ▸ hhdr), ← append_assoc, hwire₁ hhead hhdr,
      flatMap_cons]
    simp only [append_assoc]

theorem toStaging_writes (chunks : List (List Byte)) (c : Conn) :
    (c.handle (chunks.map .write)).toStaging = c.toStaging := by
  induction chunks generalizing c with
  | nil => rfl
  | cons d chunks ih => exact (ih (c.write d)).trans (toStaging_write c d)

/-- A whole stream on a live transport. -/
theorem Streaming.finish_writes {chunks : List (List Byte)}
    (hl : ∀ d ∈ chunks, d.length + 20 < 2 ^ 32) (hc : c.Streaming) :
    let c' := (c.handle (chunks.map .write)).finish
    c'.toStaging = c.toStaging ∧ c'.streamFinished = true ∧ c'.streamOut.Holds [] ∧
      c'.socket = live ∧ c'.headersStaged = false ∧
      (c.headOut.err = none → c.hdrOut.err = none →
        c'.wire = c.wire ++ (c.unsent ++ (chunks.flatMap chunkText ++ kTerm))) := by
  obtain ⟨hc₁, hwire₁⟩ := hc.handle_writes hl
  have hstaging := toStaging_writes chunks c
  generalize c.handle (chunks.map .write) = c₁ at *
  obtain ⟨hun, ⟨hwhole, hfin⟩ | ⟨hcut, -⟩⟩ := finish_spec hc₁.idle hc₁.source_eq
  · refine ⟨(toStaging_finish c₁).trans hstaging, hfin, hwhole.idle, hwhole.alive hc₁.alive, hun,
      ?_⟩
    intro hhead hhdr
    rw [hwhole.wire_eq, ← append_assoc, hwire₁ hhead hhdr]
    simp only [append_assoc]
  · exact absurd hc₁.alive hcut.not_alive

/-- A connection on which a response is being streamed. -/
def streamer : Conn where
  opt := ⟨false, true⟩
  headOut := { cap := 64 }
  hdrOut := { cap := 64 }
  bodyOut := { cap := 64 }
  streamOut := { cap := 4096 }
  resp := { source := .streaming }

theorem Kind.exists_chunks {k : Kind} (hk : k.streams = true) : k = .chunked k.chunks := by
  cases k <;> first | rfl | cases hk

/-- The steps of a streamed answer. -/
theorem answer_streamed_eq (hc : c.Ready) (hk : e.kind.streams = true) (hl : e.Small)
    (hb : e.carried → c.resp.Begun) (hslots : c.pending.length + e.slots ≤ Staging.kPending)
    (hok : (c.answer e.req).1.broken = false) :
    ∃ s₀ s news b, c.toStaging.Prepared s₀ e news ∧ s₀.Streamed s e ∧ c.toStaging.Grows s₀ ∧
      s₀.Grows s ∧ (c.answer e.req).2 = e.closes ∧
      (c.answer e.req).1.toStaging = { s with closeAfterFlush := b } ∧
      (c.answer e.req).1.wire = c.wire ++ (s.stagedHead ++ e.payload) ∧
      (c.answer e.req).1.streamOut.Holds [] ∧ (c.answer e.req).1.socket = live ∧
      (c.answer e.req).1.headersStaged = false := by
  obtain ⟨news, hp⟩ := prepared_prepare (s := c.toStaging) hslots
  have hs := streamed_handle hk (hp.begun hb)
  have hg₀ := grows_prepare c.toStaging e.req
  have hg : (c.toStaging.prepare e.req).Grows
      ((e.before.map HeadOp.op).foldl Staging.apply (c.toStaging.prepare e.req)).stageHeaders :=
    (grows_handle _ _).trans (grows_stageHeaders _)
  have hops : e.req.ops = e.before.map HeadOp.op ++
    (.chunked :: (e.kind.chunks.map .write ++ [.finish])) := by
    have hkind := Kind.exists_chunks hk
    simp only [Exchange.req, hk, if_true, append_nil]
    rw [hkind]
    rfl
  have hbefore : (c.staged (·.prepare e.req)).handle (e.before.map HeadOp.op) =
      { c with toStaging := (e.before.map HeadOp.op).foldl Staging.apply (c.toStaging.prepare e.req)
                 } :=
    handle_of_stages fun op hop => by
      obtain ⟨o, -, rfl⟩ := mem_map.mp hop
      exact o.stages_op
  have hhandle : (c.staged (·.prepare e.req)).handle e.req.ops =
      (Conn.handle { c with
        toStaging := ((e.before.map HeadOp.op).foldl Staging.apply
          (c.toStaging.prepare e.req)).stageHeaders
        headersStaged := true } (e.kind.chunks.map .write)).finish := by
    rw [hops, handle, foldl_append, foldl_cons, foldl_append]
    change (Conn.handle (Conn.apply ((c.staged (·.prepare e.req)).handle (e.before.map HeadOp.op))
      .chunked)
      (e.kind.chunks.map .write)).finish = _
    rw [hbefore]
    rfl
  rw [answer, hhandle] at hok ⊢
  generalize c.toStaging.prepare e.req = s₀ at *
  generalize ((e.before.map HeadOp.op).foldl Staging.apply s₀).stageHeaders = s at *
  have hstream : Streaming { c with toStaging := s, headersStaged := true } :=
    ⟨hs.source_eq, hc.idle, hc.alive⟩
  obtain ⟨hstaging, hfin, hidle, halive, hun, hwire⟩ := hstream.finish_writes hl.2
  generalize (Conn.handle { c with toStaging := s, headersStaged := true }
    (e.kind.chunks.map .write)).finish = c₄ at *
  have hdrain : e.req.drainError = none := by simp [Req.drainError, Exchange.req]
  have hcloses : (!e.req.keepAlive || c₄.closing || c₄.resp.status.forcesClose) = e.closes := by
    have hclosing : s.closing = false := by
      rw [hs.rest, hp.rest]
      exact hc.running
    rw [hstaging, hclosing, hs.status_eq, Bool.or_false]
    rfl
  obtain ⟨b, hconclude⟩ := conclude_framed hdrain
    (respFailed_of_conclude hdrain (hstaging ▸ hs.err_eq) hok)
    (by simp [needsStreamingSettlement, hfin])
  have hframe : c₄.toStaging.frameResponse e.head e.closes = s := by
    rw [hstaging]
    exact if_pos hs.source_eq
  rw [hcloses] at hconclude
  have hfinal : (c₄.conclude e.req).1.toStaging = { s with closeAfterFlush := b } := by
    rw [hconclude]
    change { c₄.toStaging.frameResponse e.head e.closes with closeAfterFlush := b } = _
    rw [hframe]
  have herr : s.headOut.err = none ∧ s.hdrOut.err = none := by
    rw [hfinal] at hok
    have h := not_broken_iff.mp hok
    exact ⟨h.1, h.2.1⟩
  have hpay : e.payload = e.kind.chunks.flatMap chunkText ++ kTerm := by simp [Exchange.payload, hk]
  rw [hpay]
  refine ⟨s₀, s, news, b, hp, hs, hg₀, hg, by rw [hconclude], hfinal, ?_, ?_, ?_, ?_⟩
  all_goals rw [hconclude]
  · exact hwire herr.1 herr.2
  · exact hidle
  · exact halive
  · exact hun

/-- **A streamed response** leaves at once, with every head staged before it in front. -/
theorem answer_streamed (hc : c.Ready) (hk : e.kind.streams = true) (hl : e.Small)
    (hb : e.carried → c.resp.Begun) (hslots : c.pending.length + e.slots ≤ Staging.kPending)
    (hok : (c.answer e.req).1.broken = false) :
    (c.answer e.req).2 = e.closes ∧ c.Answered e (c.answer e.req).1 ∧
      (c.offsetOf e = c.hdrOut.size → (c.answer e.req).1.output.length =
        c.output.length + (e.own c.opt).length + (c.headOut.size + e.interim.length)) ∧
      (c.hdrOut.size < c.offsetOf e → (c.answer e.req).1.output.length <
        c.output.length + (e.own c.opt).length + (c.headOut.size + e.interim.length)) ∧
      (c.pending = [] → c.headOut.size = 0 → c.hdrOut.size = 0 → c.offsetOf e = 0 →
        e.interims = false → (c.answer e.req).1.output = c.output ++ e.own c.opt) := by
  obtain ⟨s₀, s, news, b, hp, hs, hg₀, hg, hflag, hstaging, hwire, hidle, halive, hun⟩ :=
    answer_streamed_eq hc hk hl hb hslots hok
  have hopt : s₀.opt = c.opt := by rw [hp.rest]
  have hdate : s₀.date = e.date := by rw [hp.rest]
  have hhdr : s₀.hdrOut = c.hdrOut := by rw [hp.rest]
  have hpending : s.pending = c.pending ++ news := by rw [hs.rest, hp.rest]
  generalize c.answer e.req = a at *
  have hfinal : s.Grows a.1.toStaging := hstaging ▸ ⟨.refl _, .refl _, .refl _⟩
  have hga := (hg₀.trans hg).trans hfinal
  have herr := not_broken_iff.mp hok
  have herr₀ := not_broken_iff.mp (broken_of_grows (hg.trans hfinal) hok)
  have herr₁ := not_broken_iff.mp (broken_of_grows hfinal hok)
  have hpa : a.1.pending = c.pending ++ news := by rw [hstaging, ← hpending]
  obtain ⟨hnews, hinterim⟩ := hp.queued a.1.toStaging (hg.trans hfinal) herr.1
  have houtput : a.1.output =
      c.wire ++ (s.stagedHead ++ e.payload) ++ (c.pending.flatMap c.render ++ e.interim) := by
    rw [output, hwire, hpa, flatMap_append, flatMap_render_eq hc.within hga, hinterim]
  have hhead : s₀.headOut.Adds (e.headBytes c.opt) s.headOut := by
    rw [Exchange.headBytes, hk, if_pos rfl, ← hopt, ← hdate]
    exact hs.head
  have hsize₀ := hp.head.size_eq herr₀.1
  have hsize := hhead.size_eq herr₁.1
  have hpos : 0 < (e.headBytes c.opt).length := by
    rw [Exchange.headBytes, hk, if_pos rfl]
    exact (Nat.zero_lt_succ 12).trans_le (le_length_headText _ _ _ _ _ _ _)
  obtain ⟨-, hfresh, hstale⟩ := window_of_adds (r := s.resp) hs.hdr (.refl _) herr₁.2.1
    (by simp [crlf]) hs.hdrEnd_eq
  rw [hs.hdrOff_eq, hp.hdrOff_eq, hhdr] at hfresh hstale
  have hstagedLen : s.stagedHead.length = s.headOut.size + s.resp.hdrLength := by
    rw [Staging.stagedHead, length_append, OutBuffer.view, OutBuffer.view, Mem.length_read,
      Mem.length_read]
  have houtputLen : a.1.output.length = c.output.length + (s.stagedHead.length + e.payload.length) +
      e.interim.length := by
    rw [houtput, output]
    simp only [length_append]
    omega
  have hownLen : (e.own c.opt).length = e.interim.length + (e.headBytes c.opt).length +
      (e.lines ++ crlf).length + e.payload.length := by
    simp only [Exchange.own, length_append]
    omega
  refine ⟨hflag, ⟨⟨hok, hidle, halive, hun, ?_, ?_⟩, hga, ?_, ?_, ?_, by simp [hk], by simp [hk]⟩,
    ?_, ?_, ?_⟩
  · rw [hstaging]
    change s.closing = false
    rw [hs.rest, hp.rest]
    exact hc.running
  · intro q hq
    rw [hpa] at hq
    rcases mem_append.mp hq with hq | hq
    · exact (hc.within q hq).grows hga
    · exact hnews q hq
  · rw [hstaging, ← hopt]
    change s.opt = s₀.opt
    rw [hs.rest]
  · rw [hpa, length_append, hp.length_eq, Exchange.slots, hk]
    rfl
  · have h := hfinal.head.size_le
    omega
  · intro hoff
    have hlen := congrArg List.length (hfresh hoff)
    rw [OutBuffer.view, Mem.length_read] at hlen
    omega
  · intro hoff
    have hlen := hstale hoff
    omega
  · intro hnil hhz hlz hoff hi
    have hquiet : e.interim = [] := by simp [Exchange.interim, hi]
    have hbytes := hhead.added herr₁.1
    have hlines := hfresh (hoff.trans hlz.symm)
    rw [hoff] at hlines
    rw [hsize₀, hhz, hquiet] at hbytes
    rw [hsize₀, hhz, hquiet] at hsize
    simp only [length_nil, Nat.add_zero, Nat.zero_add] at hbytes hsize
    rw [houtput, output, hnil, hquiet, Staging.stagedHead, hsize, hbytes, hlines, Exchange.own,
      hquiet]
    simp only [flatMap_nil, append_nil, nil_append, append_assoc]

/-- A response begun in this round: its own bytes, and in front of a streamed one whatever is
staged. -/
theorem answer_fresh (hc : c.Ready) (hl : e.Small) (hb : e.carried → c.resp.Begun)
    (hslots : c.pending.length + e.slots ≤ Staging.kPending)
    (hok : (c.answer e.req).1.broken = false) (hoff : c.offsetOf e = c.hdrOut.size) :
    (c.answer e.req).2 = e.closes ∧ c.Answered e (c.answer e.req).1 ∧
      (e.kind.streams = false → (c.answer e.req).1.output = c.output ++ e.own c.opt) ∧
      (e.kind.streams = true → (c.answer e.req).1.output.length =
        c.output.length + (e.own c.opt).length + (c.headOut.size + e.interim.length)) := by
  cases hk : e.kind.streams with
  | false =>
    obtain ⟨hflag, ha, window, hout, hfresh, -⟩ := answer_unstreamed hc hk hl hb hslots hok
    refine ⟨hflag, ha, fun _ => ?_, nofun⟩
    rw [hout, hfresh hoff, Exchange.own]
    simp only [append_assoc]
  | true =>
    obtain ⟨hflag, ha, hlen, -, -⟩ := answer_streamed hc hk hl hb hslots hok
    exact ⟨hflag, ha, nofun, fun _ => hlen hoff⟩

/-! ## Flushing -/

theorem flatten_batches (s : Staging) (ps : List Pending) (batch : List Byte) :
    (s.batches batch ps).flatten = batch ++ ps.flatMap s.render := by
  induction ps generalizing batch with
  | nil => simp [Staging.batches]
  | cons p ps ih =>
    rw [Staging.batches]
    split
    · simp only [flatten_cons, ih, nil_append, flatMap_cons, Staging.render,
        append_assoc]
    · rw [ih, flatMap_cons, append_assoc]

/-- **The flush** puts everything that is queued on the wire. -/
theorem wire_flush (hsound : c.broken = false) (halive : c.socket = live) :
    c.flush.1.wire = c.output := by
  rw [flush]
  split
  · rename_i h
    rw [output, h]
    simp
  · rw [if_neg (by simp [hsound]), sendAll_of_alive _ halive]
    exact congrArg (c.wire ++ ·) (flatten_batches c.toStaging c.pending [])

theorem flush_of_broken (h : c.broken = true) : c.flush.1.wire = c.wire := by
  rw [flush, h]
  split <;> rfl

/-! ## Rounds -/

/-- No buffer has failed after any request answered in the round. -/
def NoOverflow : ℕ → Conn → List Req → Prop
  | _, c, [] => c.broken = false
  | max, c, q :: qs =>
    (c.answer q).1.broken = false ∧
      (((c.answer q).2 || decide (max ≤ 1)) = false → NoOverflow (max - 1) (c.answer q).1 qs)

instance : ∀ max c qs, Decidable (NoOverflow max c qs)
  | _, c, [] => inferInstanceAs (Decidable (c.broken = false))
  | max, c, q :: qs =>
    have := instDecidableNoOverflow (max - 1) (c.answer q).1 qs
    inferInstanceAs (Decidable (_ ∧ (_ → _)))

/-- The requests of a round that are answered in it. -/
def answered : ℕ → List Exchange → List Exchange
  | _, [] => []
  | max, e :: es => e :: if e.closes || max ≤ 1 then [] else answered (max - 1) es

/-- What the later responses of a round add to the output, `own` being theirs: all of it, and in
order if none of them is streamed. -/
structure Follows (c c' : Conn) (es : List Exchange) : Prop where
  ready : c'.Ready
  length_le : c.output.length + (es.flatMap (Exchange.own c.opt)).length ≤ c'.output.length
  length_lt : (∃ e ∈ es, e.kind.streams = true) →
    c.output.length + (es.flatMap (Exchange.own c.opt)).length < c'.output.length
  output_eq : (∀ e ∈ es, e.kind.streams = false) →
    c'.output = c.output ++ es.flatMap (Exchange.own c.opt)

theorem Follows.refl (hc : c.Ready) : c.Follows c [] :=
  ⟨hc, by simp, by simp, by simp⟩

theorem Follows.cons {c₁ c₂ : Conn} {es : List Exchange} (ha : c.Answered e c₁)
    (hplain : e.kind.streams = false → c₁.output = c.output ++ e.own c.opt)
    (hstream : e.kind.streams = true → c.output.length + (e.own c.opt).length < c₁.output.length)
    (h : c₁.Follows c₂ es) : c.Follows c₂ (e :: es) := by
  have hle := h.length_le
  have hlt := h.length_lt
  have heq := h.output_eq
  have hfirst : c.output.length + (e.own c.opt).length ≤ c₁.output.length := by
    cases hk : e.kind.streams with
    | false => rw [hplain hk, length_append]
    | true => exact (hstream hk).le
  rw [ha.opt_eq] at hle hlt heq
  refine ⟨h.ready, ?_, ?_, ?_⟩
  · rw [flatMap_cons, length_append]
    omega
  · rintro ⟨x, hx, hs⟩
    rw [flatMap_cons, length_append]
    rcases mem_cons.mp hx with rfl | hx
    · have := hstream hs
      omega
    · have := hlt ⟨x, hx, hs⟩
      omega
  · intro hall
    rw [heq fun x hx => hall x (mem_cons_of_mem _ hx), hplain (hall e mem_cons_self),
      flatMap_cons, append_assoc]

/-- **The rest of a round**, with something staged already: a streamed response sends more than its
own. -/
theorem serve_follows {es : List Exchange} {max : ℕ} (hc : c.Ready)
    (hcarried : ∀ e ∈ es, e.carried = false) (hl : ∀ e ∈ es, e.Small)
    (hslots : c.pending.length + ((answered max es).map Exchange.slots).sum ≤ Staging.kPending)
    (hok : NoOverflow max c (es.map Exchange.req)) (hstaged : 0 < c.headOut.size) :
    c.Follows (serve max c (es.map Exchange.req)) (answered max es) := by
  induction es generalizing c max with
  | nil => exact .refl hc
  | cons e es ih =>
    obtain ⟨hok₁, hok⟩ := hok
    have he := hcarried e mem_cons_self
    have hoff : c.offsetOf e = c.hdrOut.size := by simp [Staging.offsetOf, he]
    rw [answered, map_cons, sum_cons] at hslots
    obtain ⟨hflag, ha, hplain, hstream⟩ := answer_fresh hc (hl e mem_cons_self)
      (by simp [he]) (by omega) hok₁ hoff
    rw [map_cons, serve, answered]
    rw [hflag] at hok ⊢
    refine .cons ha hplain (fun hk => by have := hstream hk; omega) ?_
    split
    · exact .refl ha.ready
    · rename_i hdone
      rw [Bool.not_eq_true] at hdone
      rw [hdone] at hslots
      simp only [Bool.false_eq_true, if_false] at hslots
      exact ih ha.ready (fun x hx => hcarried x (mem_cons_of_mem _ hx))
        (fun x hx => hl x (mem_cons_of_mem _ hx)) (by rw [ha.pending_eq]; omega) (hok hdone)
        (hstaged.trans ha.head_lt)

/-! ## The order of a round -/

/-- A round just started: nothing is staged. -/
structure Fresh (c : Conn) : Prop extends Ready c where
  pending_nil : c.pending = []
  head_empty : c.headOut.size = 0
  hdr_empty : c.hdrOut.size = 0

/-- A streamed response stands first, with no interim response before it, and a response begun in an
earlier round was the first to be staged there. -/
def InOrder (c : Conn) : List Exchange → Prop
  | [] => True
  | e :: es =>
    (e.carried = true → c.resp.hdrOff = 0) ∧ (e.kind.streams = true → e.interims = false) ∧
      ∀ x ∈ es, x.kind.streams = false

/-- A response with a stale header window comes out too short. -/
theorem length_answer_stale (hc : c.Fresh) (hl : e.Small) (hb : e.carried → c.resp.Begun)
    (hslots : c.pending.length + e.slots ≤ Staging.kPending)
    (hok : (c.answer e.req).1.broken = false) (he : e.carried = true) (hoff : c.resp.hdrOff ≠ 0) :
    (c.answer e.req).1.output.length < c.output.length + (e.own c.opt).length := by
  have hstale : c.hdrOut.size < c.offsetOf e := by
    rw [Staging.offsetOf, if_pos he, hc.hdr_empty]
    omega
  have hquiet : e.interim = [] := by simp [Exchange.interim, Exchange.interims, he]
  cases hk : e.kind.streams with
  | false =>
    obtain ⟨-, -, window, hout, -, hlt⟩ := answer_unstreamed hc.toReady hk hl hb hslots hok
    have := hlt hstale
    rw [hout, Exchange.own]
    simp only [length_append] at this ⊢
    omega
  | true =>
    obtain ⟨-, -, -, hlt, -⟩ := answer_streamed hc.toReady hk hl hb hslots hok
    have := hlt hstale
    rw [hc.head_empty, hquiet] at this
    exact this

/-- The first response of a round, if its header window is not stale. -/
theorem answer_first (hc : c.Fresh) (hl : e.Small) (hb : e.carried → c.resp.Begun)
    (hslots : c.pending.length + e.slots ≤ Staging.kPending)
    (hok : (c.answer e.req).1.broken = false) (hoff : e.carried = true → c.resp.hdrOff = 0) :
    ((e.kind.streams = true → e.interims = false) →
        (c.answer e.req).1.output = c.output ++ e.own c.opt) ∧
      (¬(e.kind.streams = true → e.interims = false) →
        c.output.length + (e.own c.opt).length < (c.answer e.req).1.output.length) := by
  have hzero : c.offsetOf e = 0 := by
    rw [Staging.offsetOf]
    split
    · exact hoff ‹_›
    · exact hc.hdr_empty
  obtain ⟨-, -, hplain, hstream⟩ := answer_fresh hc.toReady hl hb hslots hok
    (hzero.trans hc.hdr_empty.symm)
  cases hk : e.kind.streams with
  | false => exact ⟨fun _ => hplain hk, fun h => absurd (by rintro ⟨⟩) h⟩
  | true =>
    obtain ⟨-, -, -, -, hexact⟩ := answer_streamed hc.toReady hk hl hb hslots hok
    refine ⟨fun h => hexact hc.pending_nil hc.head_empty hc.hdr_empty hzero (h rfl), fun h => ?_⟩
    have hi : e.interims = true := by simpa using h
    have hpos : 0 < e.interim.length := by simp [Exchange.interim, hi, crlf]
    have := hstream hk
    omega

/-- **The wire order of a round.**  The bytes written are the responses of the answered requests in
request order exactly when the round is `InOrder`. -/
theorem round_in_order_iff {es : List Exchange} {max : ℕ} (hc : c.Fresh)
    (hb : ∀ e ∈ es, e.carried = true → c.resp.Begun) (hcarried : ∀ e ∈ es.tail, e.carried = false)
    (hl : ∀ e ∈ es, e.Small) (hslots : ((answered max es).map Exchange.slots).sum ≤
      Staging.kPending)
    (hok : NoOverflow max c (es.map Exchange.req))
    (hone : (∀ e ∈ es, e.carried = true → c.resp.hdrOff = 0) ∨
      ∀ e ∈ (answered max es).tail, e.kind.streams = false) :
    (c.round max (es.map Exchange.req)).1.wire =
        c.wire ++ (answered max es).flatMap (Exchange.own c.opt) ↔
      c.InOrder (answered max es) := by
  have hnil : c.output = c.wire := by rw [output, hc.pending_nil, flatMap_nil, append_nil]
  change (serve max c (es.map Exchange.req)).flush.1.wire = _ ↔ _
  cases es with
  | nil =>
    change c.flush.1.wire = c.wire ++ [] ↔ True
    rw [wire_flush hc.sound hc.alive, hnil]
    simp
  | cons e es =>
    obtain ⟨hok₁, hok⟩ := hok
    have hle := hl e mem_cons_self
    have hbe := hb e mem_cons_self
    rw [answered, map_cons, sum_cons] at hslots
    have hslots₁ : c.pending.length + e.slots ≤ Staging.kPending := by
      rw [hc.pending_nil, length_nil]
      omega
    obtain ⟨hflag, ha⟩ : (c.answer e.req).2 = e.closes ∧ c.Answered e (c.answer e.req).1 := by
      cases hk : e.kind.streams with
      | false =>
        obtain ⟨hflag, ha, -⟩ := answer_unstreamed hc.toReady hk hle hbe hslots₁ hok₁
        exact ⟨hflag, ha⟩
      | true =>
        obtain ⟨hflag, ha, -⟩ := answer_streamed hc.toReady hk hle hbe hslots₁ hok₁
        exact ⟨hflag, ha⟩
    have hrest : (c.answer e.req).1.Follows (serve max c (e.req :: es.map Exchange.req))
        (if e.closes || decide (max ≤ 1) then [] else answered (max - 1) es) := by
      rw [hflag] at hok
      rw [serve, hflag]
      split
      · exact .refl ha.ready
      · rename_i hdone
        rw [if_neg hdone] at hslots
        refine serve_follows ha.ready hcarried (fun x hx => hl x (mem_cons_of_mem _ hx)) ?_
          (hok (by simpa using hdone)) (by have := ha.head_lt; omega)
        rw [ha.pending_eq, hc.pending_nil, length_nil]
        omega
    rw [answered] at hone ⊢
    rw [map_cons, wire_flush hrest.ready.sound hrest.ready.alive, ← hnil, flatMap_cons]
    generalize (if e.closes || decide (max ≤ 1) then [] else answered (max - 1) es) = rest at *
    have hlen := hrest.length_le
    have hlt := hrest.length_lt
    have heq := hrest.output_eq
    rw [ha.opt_eq] at hlen hlt heq
    by_cases hstale : e.carried = true → c.resp.hdrOff = 0
    · obtain ⟨hexact, hlong⟩ := answer_first hc hle hbe hslots₁ hok₁ hstale
      constructor
      · intro h
        have htotal := congrArg List.length h
        simp only [length_append] at htotal
        have hfirst : e.kind.streams = true → e.interims = false := by
          by_contra hnot
          have := hlong hnot
          omega
        have hsame := congrArg List.length (hexact hfirst)
        rw [length_append] at hsame
        refine ⟨hstale, hfirst, fun x hx => ?_⟩
        by_contra hs
        have := hlt ⟨x, hx, by simpa using hs⟩
        omega
      · rintro ⟨-, hfirst, hplain⟩
        rw [heq hplain, hexact hfirst, append_assoc]
    · push Not at hstale
      have hshort := length_answer_stale hc hle hbe hslots₁ hok₁ hstale.1 hstale.2
      refine iff_of_false (fun h => ?_) fun h => hstale.2 (h.1 hstale.1)
      have hplain := hone.resolve_left fun h => hstale.2 (h e mem_cons_self hstale.1)
      rw [heq hplain] at h
      have htotal := congrArg List.length h
      simp only [length_append] at htotal
      omega

/-! ## Two rounds -/

/-- A connection at the start of a round. -/
def start : Conn where
  opt := ⟨false, true⟩
  headOut := { cap := 4096 }
  hdrOut := { cap := 8192 }
  bodyOut := { cap := 16384 }
  streamOut := { cap := 16384 }

theorem fresh_start : start.Fresh where
  sound := rfl
  idle := ⟨rfl, rfl, rfl, by decide⟩
  alive := rfl
  unstaged := rfl
  running := rfl
  within := nofun
  pending_nil := rfl
  head_empty := rfl
  hdr_empty := rfl

/-- A streamed response and a plain one. -/
def streamedFirst : List Exchange :=
  [{ kind := .chunked [ascii "a", ascii "bc"] },
   { before := [.header .contentType (ascii "text/plain")], kind := .inline (ascii "hello") }]

theorem round_in_order_streamedFirst :
    (start.round 32 (streamedFirst.map Exchange.req)).1.wire =
      start.wire ++ (answered 32 streamedFirst).flatMap (Exchange.own start.opt) :=
  (round_in_order_iff fresh_start (fun _ _ _ => ⟨rfl, rfl, rfl, rfl, rfl⟩) (by decide)
    (by decide +kernel) (by decide +kernel) (by decide +kernel) (.inl (by decide))).mpr
    ⟨by decide, by decide, by decide +kernel⟩

/-- A plain request. -/
def hello : Exchange := { kind := .inline (ascii "hello") }

/-- The connection after a round that answered one request and then read the header section of
another, whose body had not arrived. -/
def carriedOver : Conn := ((start.answer hello.req).1.staged Staging.begin).flush.1.resetRound

/-- **A streamed response that is not the first** sends the head of the first one along, and **a
response begun in an earlier round** loses the start of its headers: neither round writes the
responses in order. -/
theorem streamedSecond_out_of_order :
    (start.round 32 (streamedFirst.reverse.map Exchange.req)).1.wire ≠
        start.wire ++ (answered 32 streamedFirst.reverse).flatMap (Exchange.own start.opt) ∧
      NoOverflow 32 start (streamedFirst.reverse.map Exchange.req) ∧
      (carriedOver.round 32 [{ hello with carried := true }.req]).1.wire ≠
        carriedOver.wire ++ (answered 32 [{ hello with carried := true }]).flatMap
          (Exchange.own carriedOver.opt) ∧
      NoOverflow 32 carriedOver [{ hello with carried := true }.req] := by
  refine ⟨?_, ?_, ?_, ?_⟩ <;> decide +kernel

end Conn

end Cornet.Http.Server
