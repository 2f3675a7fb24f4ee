import Cornet.Http.Server.Drafting
import Cornet.Http.Server.Flushing

/-!
# Http/Server/Lengths — `Content-Length`, and the bytes that follow

    framed:   | … Content-Length: n … |                  flushed:   header section · n bytes

The length is written when the response is framed, from what the handler has staged; the body leaves
at the end of the round, by one of three loops.  In between the buffers only grow, so the header
section that leaves is the one that was framed: unless a later handler leaves a stream unstarted,
and `settle_streaming` clears the buffers under everybody who is queued.
-/

namespace Cornet.Http.Server

open List

/-- A response whose body has as many bytes as it says, `n`; none after `HEAD` or where the status
forbids it. -/
structure Framed.Exact (headRequest : Bool) (n : ℕ) (f : Framed) : Prop where
  one : f.status.forbidsBody = false → f.lines.countP (·.field = .contentLength) = 1
  tells : ∀ l ∈ f.lines, l.field = .contentLength →
    ∃ ds, l.text = Field.namePrefix .contentLength ++ ds ++ crlf ∧ decimal ds = n
  body : f.body.length = if f.status.forbidsBody || headRequest then 0 else n

/-! ## The lines -/

section Lines

variable {o : Options} {date : List Byte} {status : Status} {saw : Saw} {n : ℕ} {closeAfter : Bool}

theorem countP_headLines (hl : saw.contentLength = false) (ht : saw.transferEncoding = false)
    (hf : status.forbidsBody = false) :
    (headLines o date status saw false n closeAfter).countP (·.field = .contentLength) = 1 := by
  simp only [headLines, hl, ht, hf, Bool.not_false, Bool.and_true, Bool.false_eq_true, if_true,
    if_false,
    append_nil]
  rw [countP_append, countP_append, countP_append]
  have hdate : (if o.serveDate && !saw.date then [(⟨.date, dateText date⟩ : Line)] else []).countP
      (·.field = .contentLength) = 0 := by split <;> rfl
  have hserver : (if o.serveServer then [(⟨.server, Staging.kHdrServer⟩ : Line)] else []).countP
      (·.field = .contentLength) = 0 := by split <;> rfl
  have hconn : (if !saw.connection then [(⟨.connection, Staging.kHdrConn closeAfter⟩ : Line)]
    else []).countP
      (·.field = .contentLength) = 0 := by split <;> rfl
  rw [hdate, hserver, hconn]
  rfl

theorem tells_headLines (hn : n < 2 ^ 32) {l : Line}
    (hl : l ∈ headLines o date status saw false n closeAfter)
    (hfield : l.field = .contentLength) :
    ∃ ds, l.text = Field.namePrefix .contentLength ++ ds ++ crlf ∧ decimal ds = n := by
  simp only [headLines, mem_append, mem_ite_nil_right, mem_singleton, Bool.false_and] at hl
  rcases hl with ((⟨-, rfl⟩ | ⟨-, rfl⟩ | ⟨-, rfl⟩) | ⟨-, rfl⟩) | ⟨hf, -⟩
  · cases hfield
  · cases hfield
  · cases hfield
  · exact ⟨writeU64 n, rfl, decimal_writeU64 (by omega)⟩
  · cases hf

end Lines

namespace Conn

variable {c : Conn} {q : Req} {qs : List Req} {max : ℕ} {d : Staging}

/-! ## What later requests leave in place -/

/-- Answering `q` clears the buffers: its handler has started a stream of which nothing has left. -/
def Clears (c : Conn) (q : Req) : Prop :=
  q.drainError = none ∧ (c.handled q).respFailed = false ∧
    (c.handled q).needsStreamingSettlement = true ∧
    (c.handled q).headersStaged = true

instance : Decidable (c.Clears q) := inferInstanceAs (Decidable (_ ∧ _))

theorem grows_answer (h : ¬c.Clears q) : c.toStaging.Grows (c.answer q).1.toStaging := by
  refine (grows_handled c q).trans ?_
  have hanswer : c.answer q = (c.handled q).conclude q := rfl
  rw [Clears] at h
  rw [hanswer, conclude]
  generalize c.handled q = u at h ⊢
  split
  · exact Staging.grows_writeError ..
  · rename_i hdrain
    split
    · exact Staging.grows_writeError ..
    · rename_i hfail
      split
      · rename_i hopen
        rw [settleStreaming, if_neg fun hstaged =>
          h ⟨hdrain, Bool.eq_false_iff.mpr hfail, hopen, hstaged⟩]
        exact ⟨.refl _, .refl _, .refl _⟩
      · split
        · have hgrows := Staging.grows_frameResponse u.toStaging q.head true
          exact ⟨hgrows.head, hgrows.hdr, hgrows.body⟩
        · exact Staging.grows_frameResponse ..

/-- The queue grows, and within its array. -/
theorem pending_answer (c : Conn) (q : Req) : ∃ news, (c.answer q).1.pending = c.pending ++ news ∧
    (c.pending.length ≤ Staging.kPending → (c.answer q).1.pending.length ≤ Staging.kPending) := by
  obtain ⟨news, hnews, -, hlen⟩ := pending_prepare c q
  have hanswer := answer_draft c q
  cases hd : c.draft q with
  | none =>
    rw [hd] at hanswer
    obtain ⟨b, b', heq⟩ := hanswer
    rw [heq]
    change ∃ news, (c.handled q).pending = _ ∧ (_ → (c.handled q).pending.length ≤ _)
    rw [pending_handled]
    exact ⟨news, hnews, hlen⟩
  | some d =>
    rw [hd] at hanswer
    obtain ⟨hsrc, close, b, heq⟩ := hanswer
    have hpending := pending_draft hd
    rw [heq]
    change ∃ news, (d.frameResponse q.head close).pending = _ ∧
      (_ → (d.frameResponse q.head close).pending.length ≤ _)
    rw [Staging.frameResponse, if_neg hsrc]
    dsimp only
    split
    · rename_i hlt
      refine ⟨news ++ [Staging.pendingOf d (d.frameHead close) q.head], ?_, fun _ => ?_⟩
      · rw [Staging.enqueue, ← append_assoc, ← hnews, ← hpending]
        rfl
      · rw [Staging.enqueue, length_append, length_singleton]
        exact hlt
    · exact ⟨news, hpending.trans hnews, fun h => (congrArg List.length hpending).le.trans (hlen h)⟩

/-- None of the requests that are served clears the buffers. -/
def Sparing : ℕ → Conn → List Req → Prop
  | _, _, [] => True
  | max, c, q :: qs =>
    ¬c.Clears q ∧ ((c.answer q).2 = true ∨ max ≤ 1 ∨ Sparing (max - 1) (c.answer q).1 qs)

instance : ∀ max c qs, Decidable (Sparing max c qs)
  | _, _, [] => isTrue trivial
  | max, c, q :: qs =>
    have := instDecidableSparing (max - 1) (c.answer q).1 qs
    inferInstanceAs (Decidable (_ ∧ (_ ∨ _ ∨ _)))

/-- **What is queued stays in place**, while the rest of the round is served. -/
theorem serve_sparing : ∀ {qs : List Req} {max : ℕ} {c : Conn}, Sparing max c qs →
    c.toStaging.Grows (serve max c qs).toStaging ∧ ∃ news, (serve max c qs).pending = c.pending ++
      news
  | [], _, c, _ => ⟨.refl _, [], (append_nil _).symm⟩
  | q :: qs, max, c, h => by
      obtain ⟨hkeep, hrest⟩ := h
      obtain ⟨news, hnews, -⟩ := pending_answer c q
      rw [serve]
      split
      · exact ⟨grows_answer hkeep, news, hnews⟩
      · rename_i hgo
        rw [Bool.or_eq_true, not_or, decide_eq_true_eq] at hgo
        obtain ⟨hgrows, news', hnews'⟩ :=
          serve_sparing ((hrest.resolve_left hgo.1).resolve_left hgo.2)
        exact ⟨(grows_answer hkeep).trans hgrows, news ++ news',
          by rw [hnews', hnews, append_assoc]⟩

theorem length_serve : ∀ {qs : List Req} {max : ℕ} {c : Conn}, c.pending.length ≤ Staging.kPending →
    (serve max c qs).pending.length ≤ Staging.kPending
  | [], _, _, h => h
  | q :: qs, max, c, h => by
      obtain ⟨-, -, hlen⟩ := pending_answer c q
      rw [serve]
      split
      · exact hlen h
      · exact length_serve (hlen h)

/-! ## What leaves of a response -/

/-- The slot of a queued response. -/
theorem answer_slot (hd : c.draft q = some d) (hok : (c.answer q).1.headOut.err = none) :
    ∃ close old, (c.answer q).1.pending = old ++ [Staging.pendingOf d (d.frameHead close) q.head] ∧
      (∀ t, (c.answer q).1.toStaging.Grows t → (d.frameHead close).Grows t) ∧
        d.resp.source ≠ .streaming := by
  have hanswer := answer_draft c q
  rw [hd] at hanswer
  obtain ⟨hsrc, close, b, heq⟩ := hanswer
  rw [heq] at hok ⊢
  have hlt := Staging.lt_of_frameResponse hsrc hok
  rw [frameResponse_of_lt hsrc hlt]
  exact ⟨close, d.pending, rfl, fun t ht => ⟨ht.head, ht.hdr, ht.body⟩, hsrc⟩

theorem pending_ne_nil (hd : c.draft q = some d) : (c.answer q).1.pending ≠ [] := by
  have hanswer := answer_draft c q
  rw [hd] at hanswer
  obtain ⟨hsrc, close, b, heq⟩ := hanswer
  rw [heq]
  change (d.frameResponse q.head close).pending ≠ []
  rw [Staging.frameResponse, if_neg hsrc]
  dsimp only
  split
  · exact append_ne_nil_of_right_ne_nil _ (cons_ne_nil _ _)
  · rename_i hfull
    intro hnil
    have hzero : d.pending.length = 0 := congrArg List.length hnil
    exact hfull (by rw [hzero, Staging.kPending]; omega)

/-- A file is queued only to be sent. -/
theorem pendingOf_file {s framed : Staging} {headRequest : Bool}
    (h : (Staging.pendingOf s framed
      headRequest).source = .file) : (framed.resp.status.forbidsBody || headRequest) = false ∧
      (Staging.pendingOf s framed headRequest).bodyLen = framed.resp.bodyLen % 2 ^ 32 := by
  rw [Staging.pendingOf] at h ⊢
  dsimp only at h ⊢
  split at h
  · rename_i hsends
    rw [if_pos hsends]
    simp only [Bool.and_eq_true, Bool.not_eq_true'] at hsends
    rw [hsends.1.1, hsends.1.2]
    exact ⟨rfl, rfl⟩
  · cases h

/-- The number of body bytes that leave. -/
theorem length_leaves {t : Staging} {headRequest closeAfter : Bool} {data b : List Byte}
    (hdata : d.Carries data) (hl : data.length < 2 ^ 32) (hgrows : (d.frameHead closeAfter).Grows t)
    (hb : let p := Staging.pendingOf d (d.frameHead closeAfter) headRequest
      if p.source = .file then b.length = p.bodyLen else b = t.renderBody p) :
    b.length = if d.resp.status.forbidsBody || headRequest then 0 else d.resp.bodyLen := by
  have hcarries : (d.frameHead closeAfter).Carries data := hdata
  have hlen : (d.frameHead closeAfter).resp.bodyLen = data.length := hdata.1
  obtain ⟨hbody, -⟩ := hcarries.renderBody_pendingOf d headRequest hl hgrows.body
  change b.length = if (d.frameHead closeAfter).resp.status.forbidsBody || headRequest then 0
    else (d.frameHead closeAfter).resp.bodyLen
  dsimp only at hb
  split at hb
  · rename_i hfile
    obtain ⟨hsends, hp⟩ := pendingOf_file hfile
    rw [hb, hp, hsends, hlen, Nat.mod_eq_of_lt hl]
    rfl
  · rw [hb, hbody, hlen]
    split <;> rfl

/-- What leaves of one response stands among what leaves of all, in its place. -/
theorem leaves_at {t : Staging} {p : Pending} : ∀ {ps₁ ps₂ : List Pending} {ls : List (List Byte)},
    List.Forall₂ t.Leaves (ps₁ ++ p :: ps₂) ls → ∃ l, ls[ps₁.length]? = some l ∧ t.Leaves p l
  | [], _, l :: _, .cons h _ => ⟨l, rfl, h⟩
  | _ :: _, _, _ :: _, .cons _ h => by
      obtain ⟨l, hl, hleaves⟩ := leaves_at h
      exact ⟨l, hl, hleaves⟩

/-- A file. -/
def aFile : Req := { ops := [.localFile (some (ascii "hello"))] }

/-- A kernel that takes little at a time. -/
def shortWrites : Sock where
  writes := [.ok 10, .ok 1000, .ok 1, .ok 1, .ok 9, .ok 7, .ok 1000]
  reads := [.ok (ascii "he"), .ok (ascii "llo")]

end Conn

end Cornet.Http.Server
