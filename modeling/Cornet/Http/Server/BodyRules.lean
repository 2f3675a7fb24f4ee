import Cornet.Http.Server.Drafting
import Cornet.Http.Server.Settlement

/-!
# Http/Server/BodyRules — who may have a body, and who may have it in chunks

    HEAD · 1xx · 204 · 304   ⟹   no body             Transfer-Encoding: chunked   ⟹   HTTP/1.1

`frame_response` keeps the first rule and never needs the second.  A stream does not pass through
it: the head leaves with the first chunk, while the handler runs, and `body_writer_t` asks neither
for the method nor for the version nor for the status.  So the rules hold exactly for the handlers
that ask themselves (`Permitted`).
-/

namespace Cornet.Http.Server

open List

/-- A response that keeps the rules, as an answer to a request with this method and version. -/
structure Framed.Lawful (m : Method) (v : Version) (f : Framed) : Prop where
  bodyless : m = .head ∨ f.status.forbidsBody = true → f.body = []
  chunked : (∃ l ∈ f.lines, l.field = .transferEncoding) → v = .http11

namespace Conn

variable {c c₁ : Conn} {q : Req} {d : Staging} {m : Method} {v : Version} {op : Op} {ops : List Op}

/-! ## What a handler streams -/

/-- The statuses of the heads that `chunked()` stages. -/
def headsOf : Conn → List Op → List Status
  | _, [] => []
  | c, op :: ops => (if op = .chunked then [c.resp.status] else []) ++ (c.apply op).headsOf ops

/-- The body bytes that leave in the course of some calls: all that leaves but the header
sections. -/
def streamedBody : Conn → List Op → List Byte
  | _, [] => []
  | c, op :: ops =>
    ((c.apply op).wire.drop c.wire.length).drop c.unsent.length ++ (c.apply op).streamedBody ops

/-- The connection when the handler of `q` starts. -/
def prepared (c : Conn) (q : Req) : Conn := c.staged (·.prepare q)

/-- `p` puts out the draft of `q`, framed with the lines written for it, and keeps the rules. -/
def LawfulDraft (m : Method) (v : Version) (c : Conn) (q : Req) (t : Staging)
    (p : Pending) : Prop :=
  ∃ d close, c.draft q = some d ∧
    let f := d.frameOf close (c.draftLines q) (t.renderBody p)
    t.render p = f.text ∧ f.Lawful m v

/-- **The rules**, for all that a connection puts out in answer to `q`: what it queues, in any later
state in which the buffers have only grown, and what it streams. -/
structure Lawful (m : Method) (v : Version) (c : Conn) (q : Req) : Prop where
  queued : ∀ t, (c.answer q).1.toStaging.Grows t → t.broken = false →
    ∀ p ∈ (c.answer q).1.pending.drop c.pending.length, p.Interim ∨ LawfulDraft m v c q t p
  bare : (m = .head ∨ ∃ st ∈ (c.prepared q).headsOf q.ops, st.forbidsBody = true) →
    (c.prepared q).streamedBody q.ops = []
  version : (c.answer q).1.wire ≠ c.wire → v = .http11

/-- The handler calls `chunked()` only where a chunked body is allowed. -/
def Permitted (m : Method) (v : Version) (c : Conn) (q : Req) : Prop :=
  ∀ st ∈ (c.prepared q).headsOf q.ops, m ≠ .head ∧ v = .http11 ∧ st.forbidsBody = false

instance : Decidable (Permitted m v c q) := inferInstanceAs (Decidable (∀ _ ∈ _, _))

/-! ## What is queued -/

theorem wire_answer (c : Conn) (q : Req) : (c.answer q).1.wire = (c.handled q).wire := by
  have hanswer : c.answer q = (c.handled q).conclude q := rfl
  rw [hanswer, conclude]
  generalize c.handled q = h
  split
  · rfl
  · split
    · rfl
    · split
      · rw [settleStreaming]
        split <;> rfl
      · split <;> rfl

/-- The lines of `frame_head` for a response that does not stream. -/
theorem transferEncoding_headLines {o : Options} {date : List Byte} {status : Status} {saw : Saw}
    {bodyLen : ℕ}
    {closeAfter : Bool} {l : Line} (hl : l ∈ headLines o date status saw false bodyLen closeAfter) :
    l.field ≠ .transferEncoding := by
  simp only [headLines, mem_append, mem_ite_nil_right, mem_singleton, Bool.false_and] at hl
  rcases hl with ((⟨-, rfl⟩ | ⟨-, rfl⟩ | ⟨-, rfl⟩) | ⟨-, rfl⟩) | ⟨hf, -⟩
  · rintro ⟨⟩
  · rintro ⟨⟩
  · rintro ⟨⟩
  · rintro ⟨⟩
  · cases hf

/-- **What is queued keeps the rules**, whatever the handler did. -/
theorem lawful_queued (h : c.Takes q) (hm : q.head = true ↔ m = .head) (hun : Unframed q.ops)
    (t : Staging)
    (ht : (c.answer q).1.toStaging.Grows t) (hok : t.broken = false) :
    ∀ p ∈ (c.answer q).1.pending.drop c.pending.length, p.Interim ∨ LawfulDraft m v c q t p := by
  obtain ⟨news, hnews, hinterim, -⟩ := pending_prepare c q
  have hanswer := answer_draft c q
  cases hd : c.draft q with
  | none =>
    rw [hd] at hanswer
    obtain ⟨b, b', heq⟩ := hanswer
    rw [heq]
    change ∀ p ∈ (c.handled q).pending.drop _, _
    rw [pending_handled, hnews, drop_left]
    exact fun p hp => .inl (hinterim p hp)
  | some d =>
    rw [hd] at hanswer
    obtain ⟨hsrc, close, b, heq⟩ := hanswer
    rw [heq] at ht ⊢
    have hgrows : (d.frameResponse q.head close).Grows t := ⟨ht.head, ht.hdr, ht.body⟩
    have hlt := Staging.lt_of_frameResponse hsrc (hgrows.head.err_none (not_broken_iff.mp hok).1)
    rw [frameResponse_of_lt hsrc hlt] at hgrows ⊢
    change ∀ p ∈ (d.pending ++ _).drop _, _
    rw [pending_draft hd, hnews, append_assoc, drop_left]
    intro p hp
    rcases mem_append.mp hp with hp | hp
    · exact .inl (hinterim p hp)
    · obtain rfl := mem_singleton.mp hp
      obtain ⟨s₀, hdrafted⟩ := drafted_of_draft h hd
      obtain ⟨-, hls⟩ := hdrafted.unframed hun
      have hframed : (d.frameHead close).Grows t := ⟨hgrows.head, hgrows.hdr, hgrows.body⟩
      refine .inr ⟨d, close, hd, ?_, ?_, ?_⟩
      · exact congrArg (· ++ _) (hdrafted.drafts.renderHead hsrc hdrafted.aligned hframed hok _)
      · intro hbodyless
        have hst : q.head = true ∨ (d.frameHead close).resp.status.forbidsBody = true :=
          hbodyless.imp_left hm.mpr
        exact (Staging.renderBody_bodyless hst).1
      · rintro ⟨l, hl, hfield⟩
        rcases mem_append.mp hl with hl | hl
        · exact absurd hfield (transferEncoding_headLines hl)
        · exact absurd hfield (hls l hl).2

/-! ## What is streamed -/

theorem prefix_send (c : Conn) (l : List Byte) : c.wire <+: (c.send l).1.wire := prefix_append ..

theorem prefix_flushStream (c : Conn) : c.wire <+: c.flushStream.1.wire := by
  rw [flushStream]
  split
  · exact prefix_rfl
  · split
    · exact prefix_rfl
    · have hsend := prefix_send { c with headersStaged := false } c.streamBytes
      dsimp only
      split <;> exact hsend

theorem prefix_write (c : Conn) (data : List Byte) : c.wire <+: (c.write data).wire := by
  rw [write]
  split
  · exact prefix_rfl
  · split
    · exact prefix_flushStream (((c.stage _).stage data).stage crlf)
    · have hline := prefix_flushStream (c.stage (writeChunkSize (data.length % 2 ^ 32)))
      rw [writeLarge]
      dsimp only
      split
      · have hdata := hline.trans (prefix_send _ data)
        split
        · exact hdata.trans (prefix_flushStream (stage (Conn.send _ data).1 crlf))
        · exact hdata
      · exact hline

/-- What has left stays. -/
theorem prefix_apply (c : Conn) (op : Op) : c.wire <+: (c.apply op).wire := by
  cases op with
  | write data => exact prefix_write c data
  | finish =>
    have hterm := prefix_flushStream (c.stage kTerm)
    change c.wire <+: c.finish.wire
    rw [finish]
    split
    · exact prefix_rfl
    · dsimp only
      split <;> exact hterm
  | _ => exact prefix_rfl

theorem prefix_handle : ∀ (ops : List Op) (c : Conn), c.wire <+: (c.handle ops).wire
  | [], _ => prefix_rfl
  | op :: ops, c => (prefix_apply c op).trans (prefix_handle ops (c.apply op))

/-- If nothing leaves in the end, nothing has left on the way. -/
theorem streamedBody_of_wire_eq : ∀ {ops : List Op} {c : Conn}, (c.handle ops).wire = c.wire →
    c.streamedBody ops = []
  | [], _, _ => rfl
  | op :: ops, c, h => by
      have hlast := prefix_handle ops (c.apply op)
      have hhandle : (c.apply op).handle ops = c.handle (op :: ops) := rfl
      rw [hhandle, h] at hlast
      have hfirst : (c.apply op).wire = c.wire :=
        ((prefix_apply c op).eq_of_length_le hlast.length_le).symm
      rw [streamedBody, hfirst, drop_length, drop_nil, nil_append]
      exact streamedBody_of_wire_eq (by rw [hhandle, h, hfirst])

/-- Without `chunked()` nothing leaves. -/
theorem wire_of_headsOf : ∀ {ops : List Op} {c : Conn}, c.resp.source ≠ .streaming →
    c.headsOf ops = [] →
    (c.handle ops).wire = c.wire
  | [], _, _, _ => rfl
  | op :: ops, c, hsrc, hheads => by
      obtain ⟨hop, hheads⟩ := append_eq_nil_iff.mp hheads
      have hne : op ≠ .chunked := by
        rintro rfl
        cases hop
      have hstep : (c.apply op).wire = c.wire ∧ (c.apply op).resp.source ≠ .streaming := by
        cases op with
        | write data =>
          have heq : c.write data = c := if_pos (by simp [hsrc])
          change (c.write data).wire = _ ∧ (c.write data).resp.source ≠ _
          rw [heq]
          exact ⟨rfl, hsrc⟩
        | finish =>
          have heq : c.finish = c := if_pos hsrc
          change c.finish.wire = _ ∧ c.finish.resp.source ≠ _
          rw [heq]
          exact ⟨rfl, hsrc⟩
        | chunked => exact absurd rfl hne
        | _ => exact ⟨rfl, Staging.source_apply rfl hsrc⟩
      exact (wire_of_headsOf hstep.2 hheads).trans hstep.1

/-- On a transport that lives, a call puts out nothing, or body bytes, behind the head if that was
due. -/
structure Emits (c c₁ : Conn) : Prop where
  alive : c₁.socket = live
  emits : c₁.wire = c.wire ∨ ∃ b, b ≠ [] ∧ c₁.wire = c.wire ++ (c.unsent ++ b)

theorem emits_flushStream {l : List Byte} (h : c.socket = live) (hl : clip l ≠ []) :
    c.Emits (c.stage l).flushStream.1 ∧ ((c.stage l).flushStream.2 = true →
      (c.stage l).flushStream.1.headersStaged = false ∧ (c.stage l).flushStream.1.wire ≠
        c.wire) := by
  rw [flushStream]
  split
  · exact ⟨⟨h, .inl rfl⟩, by rintro ⟨⟩⟩
  · rename_i hok
    have hsize := (stage_visible c hl).resolve_left hok
    rw [if_neg hsize, send_of_alive (c := { c.stage l with headersStaged := false }) h]
    have hne : (c.stage l).streamOut.view 0 (c.stage l).streamOut.size ≠ [] := by
      intro hnil
      have hlen := congrArg List.length hnil
      rw [OutBuffer.view, Mem.length_read, length_nil] at hlen
      exact hsize hlen
    refine ⟨⟨h, .inr ⟨_, hne, rfl⟩⟩, fun _ => ⟨rfl, fun heq => hne ?_⟩⟩
    have hnil := append_right_eq_self.mp heq
    exact (append_eq_nil_iff.mp hnil).2

theorem emits_writeLarge {line data : List Byte} (h : c.socket = live) (hline : clip line ≠ []) :
    c.Emits (c.writeLarge line data) := by
  obtain ⟨hfirst, hsent⟩ := emits_flushStream h hline
  rw [writeLarge]
  dsimp only
  split
  · rename_i hok
    obtain ⟨hunstaged, hne⟩ := hsent hok
    generalize (c.stage line).flushStream.1 = c₁ at hfirst hunstaged hne ⊢
    obtain ⟨b, hb, hwire⟩ := hfirst.emits.resolve_left hne
    rw [send_of_alive hfirst.alive]
    dsimp only
    rw [if_pos rfl]
    obtain ⟨hlast, -⟩ :=
      emits_flushStream (c := { c₁ with wire := c₁.wire ++ data }) hfirst.alive clip_crlf
    have hnone : Conn.unsent { c₁ with wire := c₁.wire ++ data } = [] :=
      if_neg (by simp [hunstaged])
    rcases hlast.emits with hlast' | ⟨b', -, hlast'⟩
    · refine ⟨hlast.alive, .inr ⟨b ++ data, by simp [hb], hlast'.trans ?_⟩⟩
      change c₁.wire ++ data = _
      rw [hwire, append_assoc, append_assoc]
    · refine ⟨hlast.alive, .inr ⟨b ++ data ++ b', by simp [hb], hlast'.trans ?_⟩⟩
      rw [hnone]
      change c₁.wire ++ data ++ ([] ++ b') = _
      rw [hwire, nil_append]
      simp only [append_assoc]
  · exact hfirst

theorem emits_apply (h : c.socket = live) (op : Op) : c.Emits (c.apply op) := by
  cases op with
  | write data =>
    change c.Emits (c.write data)
    rw [write]
    split
    · exact ⟨h, .inl rfl⟩
    · split
      · obtain ⟨hall, -⟩ :=
          emits_flushStream (c := (c.stage (writeChunkSize (data.length % 2 ^ 32))).stage data) h
          clip_crlf
        exact ⟨hall.alive, hall.emits⟩
      · exact emits_writeLarge h (clip_writeChunkSize _)
  | finish =>
    obtain ⟨hterm, -⟩ := emits_flushStream (l := kTerm) h (by decide)
    change c.Emits c.finish
    rw [finish]
    split
    · exact ⟨h, .inl rfl⟩
    · dsimp only
      split
      · exact ⟨hterm.alive, hterm.emits⟩
      · exact hterm
  | _ => exact ⟨h, .inl rfl⟩

/-- **What leaves is a body.** -/
theorem streamedBody_ne_nil : ∀ {ops : List Op} {c : Conn}, c.socket = live →
    (c.handle ops).wire ≠ c.wire →
    c.streamedBody ops ≠ []
  | [], _, _, h => absurd rfl h
  | op :: ops, c, halive, h => by
      have hop := emits_apply halive op
      intro hnil
      obtain ⟨hpart, hrest⟩ := append_eq_nil_iff.mp hnil
      rcases hop.emits with heq | ⟨b, hb, heq⟩
      · exact streamedBody_ne_nil hop.alive (fun hw => h (hw.trans heq)) hrest
      · rw [heq, drop_left, drop_left] at hpart
        exact hb hpart

/-! ## The rules -/

/-- A body for a `HEAD` request, and one that may be streamed. -/
def headOfText : Req :=
  { head := true, ops := [.header .contentType (ascii "text/plain"), .body (ascii "hello")] }

/-- A streaming handler, for any request. -/
def headOfChunk : Req := { oneChunk with head := true }

end Conn

end Cornet.Http.Server
