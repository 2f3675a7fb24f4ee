import Cornet.Http.Server.ErrorResponse

/-!
# Http/Server/Isolation — a response that fails behind others that did not

    | response₁ | ⋯ | responseₖ₋₁ | 500 |        what the round is to write when the k-th handler fails

The replacement is staged into the buffers the failed response was staged in.  Their error latch
belongs to the whole round, so a failed buffer takes the earlier responses down with it; and a
stream that never started has the buffers cleared under the windows of the earlier responses.
-/

namespace Cornet.Http.Server

open List Staging

namespace Conn

variable {c : Conn} {n : ℕ}

/-! ## A stream of which nothing has left -/

/-- On a live transport: `n` bytes had left before the handler, and as long as no more have, a
stream that was started still has its head staged. -/
structure Held (n : ℕ) (c : Conn) : Prop where
  alive : c.socket = live
  length_le : n ≤ c.wire.length
  staged : c.wire.length = n → c.resp.source = .streaming → c.headersStaged = true

theorem Held.stage (h : c.Held n) (l : List Byte) : (c.stage l).Held n :=
  ⟨h.alive, h.length_le, h.staged⟩

theorem Held.send (h : c.Held n) (l : List Byte) : (c.send l).1.Held n := by
  rw [send_of_alive h.alive]
  have hle := h.length_le
  have hlen : (c.wire ++ l).length = c.wire.length + l.length := length_append
  exact ⟨h.alive, by change n ≤ (c.wire ++ l).length; omega,
    fun heq => h.staged (by change (c.wire ++ l).length = n at heq; omega)⟩

theorem Held.flushStream (h : c.Held n) : c.flushStream.1.Held n := by
  rw [Conn.flushStream]
  split
  · exact h
  · split
    · exact h
    · rename_i hsize
      rw [send_of_alive (c := { c with headersStaged := false }) h.alive]
      have hle := h.length_le
      have hlen : c.streamOut.size ≤ c.streamBytes.length := by
        rw [streamBytes, length_append, OutBuffer.view, Mem.length_read]
        exact Nat.le_add_left _ _
      have hwire : (c.wire ++ c.streamBytes).length = c.wire.length + c.streamBytes.length :=
        length_append
      refine ⟨h.alive, ?_, fun heq => ?_⟩
      · change n ≤ (c.wire ++ c.streamBytes).length
        omega
      · change (c.wire ++ c.streamBytes).length = n at heq
        omega

theorem Held.write (h : c.Held n) (data : List Byte) : (c.write data).Held n := by
  rw [Conn.write]
  split
  · exact h
  · split
    · exact (((h.stage _).stage _).stage _).flushStream
    · rw [writeLarge]
      dsimp only
      split
      · split
        · exact ((((h.stage _).flushStream).send _).stage _).flushStream
        · exact (h.stage _).flushStream.send _
      · exact (h.stage _).flushStream

theorem Held.finish (h : c.Held n) : c.finish.Held n := by
  have hflush := (h.stage kTerm).flushStream
  rw [Conn.finish]
  split
  · exact h
  · dsimp only
    split
    · exact ⟨hflush.alive, hflush.length_le, hflush.staged⟩
    · exact hflush

/-- **One call** keeps the head staged, or sends it. -/
theorem Held.apply (h : c.Held n) (op : Op) : (c.apply op).Held n := by
  cases hop : op.stages with
  | true =>
    have heq : c.apply op = c.staged (·.apply op) := by
      cases op <;> first | rfl | cases hop
    rw [heq]
    refine ⟨h.alive, h.length_le, fun hn hsrc => h.staged hn ?_⟩
    by_contra hne
    exact source_apply hop hne hsrc
  | false =>
    cases op with
    | chunked => exact ⟨h.alive, h.length_le, fun _ _ => rfl⟩
    | write data => exact h.write data
    | finish => exact h.finish
    | _ => cases hop

theorem Held.handle (ops : List Op) {c : Conn} (h : c.Held n) : (c.handle ops).Held n := by
  induction ops generalizing c with
  | nil => exact h
  | cons op ops ih => exact ih (h.apply op)

end Conn

/-! ## The responses before it -/

/-- Answered without streaming, with the connection left open. -/
def Exchange.Plain (e : Exchange) : Prop := e.kind.streams = false ∧ e.closes = false ∧ e.Small

instance (e : Exchange) : Decidable e.Plain := inferInstanceAs (Decidable (_ ∧ _))

namespace Conn

variable {c c₁ : Conn} {e : Exchange} {es : List Exchange} {q : Req} {max : ℕ}

/-- `c'` is `c` after the plain exchanges `es`. -/
structure Passed (c c' : Conn) (es : List Exchange) : Prop where
  ready : c'.Ready
  opt_eq : c'.opt = c.opt
  wire_eq : c'.wire = c.wire
  pending_eq : ∃ ps, c'.pending = c.pending ++ ps
  output_eq : c'.output = c.output ++ es.flatMap (Exchange.own c.opt)

/-- The round goes on after a plain exchange. -/
theorem serve_cons_plain {qs : List Req} (hflag : (c.answer q).2 = false) (hmax : 1 < max) :
    serve max c (q :: qs) = serve (max - 1) (c.answer q).1 qs := by
  rw [serve, hflag]
  exact if_neg (by simpa using hmax)

theorem serve_passed (hc : c.Ready) (hplain : ∀ e ∈ es, e.Plain)
    (hcarried : ∀ e ∈ es, e.carried = false)
    (hmax : es.length < max) (hslots : c.pending.length + (es.map Exchange.slots).sum ≤
      Staging.kPending)
    (hok : NoOverflow max c (es.map Exchange.req)) :
    c.Passed (serve max c (es.map Exchange.req)) es ∧ ∀ qs,
      serve max c (es.map Exchange.req ++ qs) =
      serve (max - es.length) (serve max c (es.map Exchange.req)) qs := by
  induction es generalizing c max with
  | nil => exact ⟨⟨hc, rfl, rfl, ⟨[], (append_nil _).symm⟩, (append_nil _).symm⟩, fun _ => rfl⟩
  | cons e es ih =>
    obtain ⟨hok₁, hok⟩ := hok
    obtain ⟨hk, hopen, hl⟩ := hplain e mem_cons_self
    have he := hcarried e mem_cons_self
    rw [map_cons, sum_cons] at hslots
    rw [length_cons] at hmax
    obtain ⟨hflag, ha, hout, -⟩ := answer_fresh hc hl (by simp [he]) (by omega) hok₁
      (by simp [Staging.offsetOf, he])
    rw [hopen] at hflag
    obtain ⟨p, ps, hpending, -⟩ := ha.first hk
    obtain ⟨h, hserve⟩ := ih ha.ready (fun x hx => hplain x (mem_cons_of_mem _ hx))
      (fun x hx => hcarried x (mem_cons_of_mem _ hx)) (show es.length < max - 1 by omega)
        (by rw [ha.pending_eq]; omega)
      (hok (by rw [hflag]; simp; omega))
    have hstep (qs : List Req) : serve max c (e.req :: qs) = _ :=
      serve_cons_plain hflag (show 1 < max by omega)
    rw [map_cons, hstep]
    refine ⟨⟨h.ready, h.opt_eq.trans ha.opt_eq, h.wire_eq.trans (ha.wire_eq hk), ?_, ?_⟩, fun qs =>
      ?_⟩
    · obtain ⟨ps', hps'⟩ := h.pending_eq
      exact ⟨p :: ps ++ ps', by rw [hps', hpending, append_assoc]⟩
    · rw [h.output_eq, hout hk, ha.opt_eq, flatMap_cons, append_assoc]
    · rw [cons_append, hstep, hserve qs, length_cons, Nat.sub_sub, Nat.add_comm 1]

/-- A response begun in an earlier round was the first to be staged there. -/
def Aligned (c : Conn) : List Exchange → Prop
  | [] => True
  | e :: _ => e.carried = true → c.resp.hdrOff = 0

/-- `c'` is `c` after the plain exchanges a round starts with. -/
structure Earlier (c c' : Conn) (es : List Exchange) : Prop where
  ready : c'.Ready
  opt_eq : c'.opt = c.opt
  wire_eq : c'.wire = c.wire
  none : es = [] → c' = c
  first : es ≠ [] → ∃ p ps, c'.pending = p :: ps ∧ p.headOff = 0 ∧ 13 ≤ p.headLen
  output_iff : c'.output = c.output ++ es.flatMap (Exchange.own c.opt) ↔ c.Aligned es

theorem serve_earlier (hc : c.Fresh) (hb : ∀ e ∈ es, e.carried = true → c.resp.Begun)
    (hcarried : ∀ e ∈ es.tail, e.carried = false) (hplain : ∀ e ∈ es, e.Plain)
      (hmax : es.length < max)
    (hslots : (es.map Exchange.slots).sum ≤ Staging.kPending)
    (hok : NoOverflow max c (es.map Exchange.req)) :
    c.Earlier (serve max c (es.map Exchange.req)) es ∧ ∀ qs,
      serve max c (es.map Exchange.req ++ qs) =
      serve (max - es.length) (serve max c (es.map Exchange.req)) qs := by
  cases es with
  | nil =>
    refine ⟨⟨hc.toReady, rfl, rfl, fun _ => rfl, fun h => absurd rfl h, ?_⟩, fun _ => rfl⟩
    exact iff_of_true (append_nil _).symm trivial
  | cons e es =>
    obtain ⟨hok₁, hok⟩ := hok
    obtain ⟨hk, hopen, hl⟩ := hplain e mem_cons_self
    have hbe := hb e mem_cons_self
    rw [map_cons, sum_cons] at hslots
    rw [length_cons] at hmax
    have hslots₁ : c.pending.length + e.slots ≤ Staging.kPending := by
      rw [hc.pending_nil, length_nil]
      omega
    obtain ⟨hflag, ha, -⟩ := answer_unstreamed hc.toReady hk hl hbe hslots₁ hok₁
    rw [hopen] at hflag
    obtain ⟨p, ps, hpending, hoff, hlen⟩ := ha.first hk
    rw [hc.pending_nil, nil_append] at hpending
    obtain ⟨h, hserve⟩ := serve_passed ha.ready
      (fun x hx => hplain x (mem_cons_of_mem _ hx)) hcarried (show es.length < max - 1 by omega)
      (by rw [ha.pending_eq, hc.pending_nil, length_nil]; omega) (hok (by rw [hflag]; simp; omega))
    have hstep (qs : List Req) : serve max c (e.req :: qs) = _ :=
      serve_cons_plain hflag (show 1 < max by omega)
    rw [map_cons, hstep]
    refine ⟨⟨h.ready, h.opt_eq.trans ha.opt_eq, h.wire_eq.trans (ha.wire_eq hk), nofun, fun _ => ?_,
      ?_⟩,
      fun qs => ?_⟩
    · obtain ⟨ps', hps'⟩ := h.pending_eq
      exact ⟨p, ps ++ ps', by rw [hps', hpending]; rfl, hoff.trans hc.head_empty, hlen⟩
    · rw [h.output_eq, ha.opt_eq, flatMap_cons, ← append_assoc, append_left_inj]
      by_cases hstale : e.carried = true → c.resp.hdrOff = 0
      · have hexact := (answer_first hc hl hbe hslots₁ hok₁ hstale).1 (by simp [hk])
        exact iff_of_true hexact hstale
      · refine iff_of_false (fun heq => ?_) hstale
        push Not at hstale
        have hshort := length_answer_stale hc hl hbe hslots₁ hok₁ hstale.1 hstale.2
        rw [heq, length_append] at hshort
        omega
    · rw [cons_append, hstep, hserve qs, length_cons, Nat.sub_sub, Nat.add_comm 1]

/-! ## The response that fails -/

/-- The connection when the handler of `q` has returned. -/
def handled (c : Conn) (q : Req) : Conn := (c.staged (·.prepare q)).handle q.ops

/-- The handler of `q` leaves a failed or unfinished response, of which nothing has left. -/
structure Fails (c : Conn) (q : Req) : Prop where
  drained : q.drainError = none
  failed : (c.handled q).respFailed = true ∨ (c.handled q).needsStreamingSettlement = true
  silent : (c.handled q).wire = c.wire

/-- What `settle_streaming` clears. -/
def cleared (c : Conn) : Staging :=
  { c.toStaging with headOut := c.headOut.clear, hdrOut := c.hdrOut.clear }

/-- The 500 can take the place of the response: there is room for it, and if the buffers are to be
cleared, nobody else has anything in them. -/
def Recovers (c : Conn) : Prop :=
  if c.respFailed then c.HasRoom else c.pending = [] ∧ c.cleared.HasRoom

theorem toStaging_handled (c : Conn) (q : Req) :
    (c.handled q).toStaging = q.ops.foldl Staging.apply (c.toStaging.prepare q) :=
  toStaging_handle q.ops _

theorem grows_handled (c : Conn) (q : Req) : c.toStaging.Grows (c.handled q).toStaging := by
  rw [toStaging_handled]
  exact (grows_prepare _ q).trans (grows_handle _ _)

theorem pending_handled (c : Conn) (q : Req) :
    (c.handled q).pending = (c.toStaging.prepare q).pending := by
  rw [toStaging_handled, rests_handle]

theorem opt_handled (c : Conn) (q : Req) : (c.handled q).opt = c.opt := by
  rw [toStaging_handled, rests_handle, Staging.prepare]
  dsimp only
  split
  · rfl
  · split
    · rw [Staging.writeContinue]
      dsimp only
      split <;> rfl
    · rfl

theorem date_handled (c : Conn) (q : Req) : (c.handled q).date = q.date := by
  rw [toStaging_handled, rests_handle, Staging.prepare]
  dsimp only
  split
  · rfl
  · split
    · rw [Staging.writeContinue]
      dsimp only
      split <;> rfl
    · rfl

/-- The request itself is prepared like its error response. -/
theorem prepared_handled (hlt : (c.handled q).pending.length < Staging.kPending) :
    ∃ news, c.toStaging.Prepared (c.toStaging.prepare q) (errorExchange q .internalServerError)
      news := by
  refine prepared_prepare (e := errorExchange q .internalServerError) ?_
  rw [pending_handled, Staging.prepare] at hlt
  rw [Exchange.slots, Exchange.interims]
  change _ + ((if q.expectsContinue && !q.carried then 1 else 0) + 1) ≤ _
  split at hlt
  · rename_i hc
    rw [hc]
    simp only [Bool.not_true, Bool.and_false, Bool.false_eq_true, if_false]
    exact hlt
  · rename_i hc
    split at hlt
    · rename_i he
      rw [Staging.writeContinue] at hlt
      dsimp only at hlt
      split at hlt
      · simp only [Staging.enqueue, length_append, length_singleton] at hlt
        have : { c.toStaging with date := q.date }.begin.pending = c.pending := rfl
        rw [this] at hlt
        split <;> omega
      · contradiction
    · rename_i he
      rw [Bool.not_eq_true] at he
      rw [he]
      exact hlt

/-- **The 500 behind the earlier responses.** -/
theorem output_writeError (hc : c.Ready) (hsilent : (c.handled q).wire = c.wire)
    (hroom : (c.handled q).HasRoom) :
    ((c.handled q).staged (·.writeError q.head .internalServerError)).output =
      c.output ++ (errorExchange q .internalServerError).own c.opt := by
  have hok := (writeError_sound_iff q.head).mpr hroom
  obtain ⟨hlt, p, hpending, -, hrender, -⟩ := writeError_spec (date_handled c q) hok
  obtain ⟨news, hp⟩ := prepared_handled hlt
  have hnews : (c.handled q).pending = c.pending ++ news := by rw [pending_handled, hp.rest]
  have hgrows := grows_writeError (c.handled q).toStaging q.head .internalServerError
  have hhandle : (c.toStaging.prepare q).Grows (c.handled q).toStaging := by
    rw [toStaging_handled]
    exact grows_handle _ _
  obtain ⟨-, hinterim⟩ := hp.queued _ (hhandle.trans hgrows) (not_broken_iff.mp hok).1
  change (c.handled q).wire ++
    ((c.handled q).writeError q.head .internalServerError).pending.flatMap
    ((c.handled q).writeError q.head .internalServerError).render = _
  rw [hpending, hnews, flatMap_append, flatMap_append, flatMap_singleton, hrender,
    hinterim, flatMap_render_eq hc.within ((grows_handled c q).trans hgrows), hsilent,
    opt_handled, own_errorExchange, output]
  simp only [append_assoc]

theorem conclude_failed (hd : q.drainError = none) (h : c.respFailed = true) :
    c.conclude q = (c.staged (·.writeError q.head .internalServerError), true) := by
  rw [conclude, hd]
  exact if_pos h

theorem conclude_unfinished (hd : q.drainError = none) (h : c.respFailed = false)
    (hopen : c.needsStreamingSettlement = true) (hstaged : c.headersStaged = true) :
    (c.conclude q).2 = true ∧
      (c.conclude q).1.toStaging = c.cleared.writeError q.head .internalServerError ∧
      (c.conclude q).1.wire = c.wire ∧ (c.conclude q).1.socket = c.socket := by
  rw [conclude, hd]
  dsimp only
  rw [if_neg (by simp [h]), if_pos hopen, settleStreaming, if_pos hstaged]
  exact ⟨rfl, rfl, rfl, rfl⟩

/-- After the buffers were cleared, the 500 stands where the first head of the round stood. -/
theorem take_view_cleared (hdate : c.date = q.date) (hroom : c.cleared.HasRoom) {n : ℕ}
    (hn : 13 ≤ n) :
    ((c.cleared.writeError q.head .internalServerError).headOut.view 0 n).take 13 =
      ascii "HTTP/1.1 500 " := by
  have hok := (writeError_sound_iff q.head).mpr hroom
  obtain ⟨-, p, -, -, -, hadds⟩ := writeError_spec (s := c.cleared) (q := q) hdate hok
  have hview := hadds.added (not_broken_iff.mp hok).1
  have htake (m : ℕ) (hm : 13 ≤ m) (b : OutBuffer) : (b.view 0 m).take 13 = b.view 0 13 := by
    rw [OutBuffer.view, Mem.read_split _ _ hm]
    exact take_left' Mem.length_read
  have hlen : 13 ≤ ((errorExchange q .internalServerError).headBytes c.cleared.opt).length :=
    le_length_headText _ _ _ _ _ _ _
  have hstart : ((errorExchange q .internalServerError).headBytes c.cleared.opt).take 13 =
      (Status.text .internalServerError).take 13 := by
    change (headText _ _ .internalServerError _ _ _ _).take 13 = _
    simp only [headText, append_assoc]
    exact take_append_of_le_length (le_length_statusText _)
  rw [htake n hn, ← htake _ hlen]
  refine (congrArg (List.take 13) hview).trans (hstart.trans (by decide))

end Conn

/-- A response that leaves the connection open starts with another status. -/
theorem Exchange.own_starts (o : Options) (e : Exchange)
    (h : e.interims = true ∨ e.status.code ≠ 500) :
    ∃ s y, s.code ≠ 500 ∧ e.own o = Status.text s ++ y := by
  cases hi : e.interims with
  | true =>
    refine ⟨.interim, crlf ++ (e.headBytes o ++ (e.lines ++ (crlf ++ e.payload))), by decide, ?_⟩
    simp only [Exchange.own, Exchange.interim, hi, if_true, append_assoc]
  | false =>
    obtain ⟨y, hy⟩ : ∃ y, e.headBytes o = Status.text e.status ++ y := by
      rw [Exchange.headBytes]
      split <;> exact ⟨_, by simp only [headText, append_assoc]; rfl⟩
    refine ⟨e.status, y ++ (e.lines ++ (crlf ++ e.payload)), h.resolve_left (by simp [hi]), ?_⟩
    simp only [Exchange.own, Exchange.interim, hi, hy, Bool.false_eq_true, if_false, nil_append,
      append_assoc]

theorem Exchange.Plain.code_ne {e : Exchange} (h : e.Plain) : e.status.code ≠ 500 := by
  intro hcode
  have hopen := h.2.1
  simp [Exchange.closes, Status.forcesClose, hcode] at hopen

namespace Conn

variable {c c₁ : Conn} {e : Exchange} {es : List Exchange} {q : Req} {max : ℕ}

theorem source_prepare (hq : q.carried = true → c.resp.Begun) :
    (c.toStaging.prepare q).resp.source ≠ .streaming := by
  have hbegin : { c.toStaging with date := q.date }.begin.resp.source ≠ .streaming := by rintro ⟨⟩
  rw [Staging.prepare]
  split
  · rename_i hcarried
    rw [(hq hcarried).source_eq]
    rintro ⟨⟩
  · split
    · rw [Staging.writeContinue]
      dsimp only
      split <;> exact hbegin
    · exact hbegin

/-- A stream that was started and of which nothing left still has its head staged. -/
theorem staged_handled (hc : c.Ready) (hq : q.carried = true → c.resp.Begun) :
    (c.handled q).Held c.wire.length := by
  refine Held.handle q.ops ⟨hc.alive, le_rfl, fun _ hsrc => absurd hsrc (source_prepare hq)⟩

/-- The interim response fits where the 500 does. -/
theorem err_prepare (hc : c.Fresh) (hi : (errorExchange q .internalServerError).interims = true)
    (hroom : (c.handled q).cleared.HasRoom) : (c.toStaging.prepare q).headOut.err = none := by
  have hcap : (c.handled q).headOut.cap = c.headOut.cap := (grows_handled c q).head.cap_eq
  have hneed : Staging.errorNeed (c.handled q).cleared ≤ (c.handled q).headOut.cap - 0 :=
    hroom.2.2.1.2
  have hle : 25 ≤ Staging.errorNeed (c.handled q).cleared :=
    le_trans (by decide) (Nat.le_add_right (Status.text .internalServerError).length _)
  have hfits : c.headOut.Fits 25 := by
    refine ⟨(not_broken_iff.mp hc.sound).1, ?_⟩
    rw [OutBuffer.remaining, hc.head_empty]
    omega
  have hline : ((Serializer.statusLine c.headOut .interim).putCrlf).err = none := by
    have heq : Serializer.statusLine c.headOut .interim = c.headOut.put (Status.text .interim) :=
      rfl
    rw [OutBuffer.err_eq_none_iff_fits, OutBuffer.fits_putCrlf, heq,
      OutBuffer.fits_put_of_lt (by decide)]
    exact hfits
  rw [Exchange.interims, Bool.and_eq_true, Bool.not_eq_true'] at hi
  have hcarried : q.carried = false := hi.2
  have hexpects : q.expectsContinue = true := hi.1
  rw [Staging.prepare, hcarried, hexpects, if_neg (by simp), if_pos rfl, Staging.writeContinue]
  dsimp only
  split <;> exact hline

/-- The first response queued starts the head buffer. -/
theorem first_handled (hc : c.Fresh) (hearly : c.Earlier c₁ es)
    (hroom : (c₁.handled q).cleared.HasRoom) (hne : (c₁.handled q).pending ≠ []) :
    ∃ p ps, (c₁.handled q).pending = p :: ps ∧ p.headOff = 0 ∧ 13 ≤ p.headLen ∧
      (es = [] → (errorExchange q .internalServerError).interims = true) := by
  obtain ⟨news, hp⟩ := prepared_handled hroom.2.1
  have hnews : (c₁.handled q).pending = c₁.pending ++ news := by rw [pending_handled, hp.rest]
  by_cases hes : es = []
  · obtain rfl := hearly.none hes
    rw [hc.pending_nil, nil_append] at hnews
    obtain ⟨n, ns, rfl⟩ := exists_cons_of_ne_nil (hnews ▸ hne)
    have hi : (errorExchange q .internalServerError).interims = true := by
      by_contra hi
      have := hp.length_eq
      simp [hi] at this
    have hsize := hp.head.size_eq (err_prepare hc hi hroom)
    have hlen : 13 ≤ (errorExchange q .internalServerError).interim.length := by
      rw [Exchange.interim, if_pos hi]
      decide
    obtain ⟨hoff, hhead⟩ := hp.first n mem_cons_self
    exact ⟨n, ns, hnews, hoff.trans hc.head_empty, by rw [hhead]; omega, fun _ => hi⟩
  · obtain ⟨p, ps, hpending, hoff, hlen⟩ := hearly.first hes
    exact ⟨p, ps ++ news, by rw [hnews, hpending]; rfl, hoff, hlen, fun h => absurd h hes⟩

/-- A cleared head buffer shows the 500 through the window of another response. -/
theorem wire_settled_ne (hc : c.Fresh) (hplain : ∀ e ∈ es, e.Plain) (hearly : c.Earlier c₁ es)
    (hroom : (c₁.handled q).cleared.HasRoom) (hne : (c₁.handled q).pending ≠ []) :
    ((c₁.handled q).cleared.writeError q.head .internalServerError).pending.flatMap
        ((c₁.handled q).cleared.writeError q.head .internalServerError).render ≠
      (es ++ [errorExchange q .internalServerError]).flatMap (Exchange.own c.opt) := by
  obtain ⟨p, ps, hpending, hoff, hlen, hinterim⟩ := first_handled hc hearly hroom hne
  have hok := (writeError_sound_iff q.head).mpr hroom
  obtain ⟨-, p', hpending', -⟩ := writeError_spec (s := (c₁.handled q).cleared) (q := q)
    (date_handled c₁ q) hok
  have hqueue : (c₁.handled q).cleared.pending = p :: ps := hpending
  have htake := take_view_cleared (date_handled c₁ q) hroom hlen
  -- the first response of the round starts with a status other than 500
  obtain ⟨st, z, hcode, hown⟩ : ∃ st z, st.code ≠ 500 ∧
      (es ++ [errorExchange q .internalServerError]).flatMap (Exchange.own c.opt) =
        Status.text st ++ z := by
    cases es with
    | nil =>
      obtain ⟨st, z, hcode, hown⟩ := Exchange.own_starts c.opt _ (.inl (hinterim rfl))
      exact ⟨st, z, hcode, by rw [nil_append, flatMap_singleton, hown]⟩
    | cons e es =>
      obtain ⟨st, z, hcode, hown⟩ := Exchange.own_starts c.opt e
        (.inr (hplain e mem_cons_self).code_ne)
      exact ⟨st, _, hcode, by rw [cons_append, flatMap_cons, hown, append_assoc]⟩
  intro h
  rw [hpending', hqueue, hown, cons_append, flatMap_cons, Staging.render, Staging.renderHead,
    hoff] at h
  simp only [append_assoc] at h
  have hstart := congrArg (List.take 13) h
  rw [take_append_of_le_length (by rw [OutBuffer.view, Mem.length_read]; exact hlen),
    htake] at hstart
  exact hcode (Status.code_of_take_text hstart.symm)

/-- An unfinished stream with nothing of the round before it. -/
theorem output_settled (hc : c.Fresh) (hearly : c.Earlier c₁ es)
    (hsilent : (c₁.handled q).wire = c₁.wire)
    (hroom : (c₁.handled q).cleared.HasRoom) (hnil : (c₁.handled q).pending = []) :
    es = [] ∧ (c₁.handled q).wire ++
        ((c₁.handled q).cleared.writeError q.head .internalServerError).pending.flatMap
          ((c₁.handled q).cleared.writeError q.head .internalServerError).render =
      c.wire ++ (errorExchange q .internalServerError).own c.opt := by
  obtain ⟨news, hp⟩ := prepared_handled hroom.2.1
  have hnews : (c₁.handled q).pending = c₁.pending ++ news := by rw [pending_handled, hp.rest]
  obtain ⟨hpending, rfl⟩ := append_eq_nil_iff.mp (hnews.symm.trans hnil)
  have hes : es = [] := by
    by_contra hes
    obtain ⟨p, ps, hcons, -⟩ := hearly.first hes
    rw [hpending] at hcons
    cases hcons
  obtain rfl := hearly.none hes
  have hok := (writeError_sound_iff q.head).mpr hroom
  obtain ⟨-, p, hpending', -, hrender, -⟩ := writeError_spec (s := (c₁.handled q).cleared)
    (q := q) (date_handled c₁ q) hok
  have hqueue : (c₁.handled q).cleared.pending = [] := hnil
  have hopt : (c₁.handled q).cleared.opt = c₁.opt := opt_handled c₁ q
  have hquiet : (errorExchange q .internalServerError).interim = [] := by
    rw [Exchange.interim]
    split
    · have := hp.length_eq
      simp [‹(errorExchange q .internalServerError).interims = true›] at this
    · rfl
  refine ⟨hes, ?_⟩
  rw [hpending', hqueue, nil_append, flatMap_singleton, hrender, hsilent, hopt,
    own_errorExchange, hquiet, nil_append]

/-- **Failure isolation.**  When the response of `q` fails behind plain ones, the round writes those
and the 500 exactly when the first is `Aligned` and the connection `Recovers`. -/
theorem failure_isolated_iff {qs : List Req} (hc : c.Fresh)
    (hb : ∀ e ∈ es, e.carried = true → c.resp.Begun) (hcarried : ∀ e ∈ es.tail, e.carried = false)
    (hplain : ∀ e ∈ es, e.Plain) (hmax : es.length < max)
    (hslots : (es.map Exchange.slots).sum ≤ Staging.kPending)
    (hok : NoOverflow max c (es.map Exchange.req)) (hq : q.carried = true → es = [] ∧ c.resp.Begun)
    (hfail : (serve max c (es.map Exchange.req)).Fails q) :
    (c.round max (es.map Exchange.req ++ q :: qs)).1.wire =
        c.wire ++ (es ++ [errorExchange q .internalServerError]).flatMap (Exchange.own c.opt) ↔
      c.Aligned es ∧ ((serve max c (es.map Exchange.req)).handled q).Recovers := by
  obtain ⟨hearly, hserve⟩ := serve_earlier hc hb hcarried hplain hmax hslots hok
  change (serve max c (es.map Exchange.req ++ q :: qs)).flush.1.wire = _ ↔ _
  rw [hserve]
  generalize serve max c (es.map Exchange.req) = c₁ at *
  have hnil : c.output = c.wire := by rw [output, hc.pending_nil, flatMap_nil, append_nil]
  have hheld : (c₁.handled q).Held c₁.wire.length := staged_handled hearly.ready fun h => by
    obtain ⟨hes, hbegun⟩ := hq h
    rw [hearly.none hes]
    exact hbegun
  have hlost : (c₁.handled q).wire ≠
      c.wire ++ (es ++ [errorExchange q .internalServerError]).flatMap (Exchange.own c.opt) := by
    intro h
    have hlen := congrArg List.length h
    rw [hfail.silent, hearly.wire_eq, flatMap_append, flatMap_singleton, Exchange.own] at hlen
    simp only [length_append, crlf, length_cons] at hlen
    omega
  have hanswer (hdone : ((c₁.handled q).conclude q).2 = true) :
      serve (max - es.length) c₁ (q :: qs) = ((c₁.handled q).conclude q).1 := by
    rw [serve]
    exact if_pos (by rw [Bool.or_eq_true]; exact .inl hdone)
  rw [Recovers]
  cases hf : (c₁.handled q).respFailed with
  | true =>
    have hconclude := conclude_failed hfail.drained hf
    rw [hanswer (by rw [hconclude]), hconclude, if_pos rfl]
    dsimp only
    have hsound := writeError_sound_iff (s := (c₁.handled q).toStaging) q.head
    by_cases hroom : (c₁.handled q).HasRoom
    · rw [wire_flush (c := (c₁.handled q).staged (·.writeError q.head .internalServerError))
        (hsound.mpr hroom) hheld.alive, output_writeError hearly.ready hfail.silent hroom,
        hearly.opt_eq, flatMap_append, flatMap_singleton, ← append_assoc, ← hnil,
        append_left_inj, hearly.output_iff]
      exact ⟨fun h => ⟨h, hroom⟩, fun h => h.1⟩
    · have hbroken : ((c₁.handled q).staged
        (·.writeError q.head .internalServerError)).broken = true := by
        by_contra h
        exact hroom (hsound.mp (Bool.not_eq_true _ ▸ h))
      rw [flush_of_broken hbroken]
      exact iff_of_false hlost fun h => hroom h.2
  | false =>
    have hopen := hfail.failed.resolve_left (by simp [hf])
    have hsrc : (c₁.handled q).resp.source = .streaming := by
      rw [needsStreamingSettlement, Bool.and_eq_true, beq_iff_eq] at hopen
      exact hopen.1
    obtain ⟨hdone, hstaging, hwire, hsocket⟩ := conclude_unfinished hfail.drained hf hopen
      (hheld.staged (by rw [hfail.silent]) hsrc)
    rw [hanswer hdone, if_neg (by simp)]
    generalize ((c₁.handled q).conclude q).1 = c₃ at *
    have hsound := writeError_sound_iff (s := (c₁.handled q).cleared) q.head
    rw [← hstaging] at hsound
    by_cases hroom : (c₁.handled q).cleared.HasRoom
    · rw [wire_flush (hsound.mpr hroom) (hsocket.trans hheld.alive), output, hwire, hstaging]
      by_cases hempty : (c₁.handled q).pending = []
      · obtain ⟨rfl, hout⟩ := output_settled hc hearly hfail.silent hroom hempty
        exact iff_of_true (by rw [hout]; simp) ⟨trivial, hempty, hroom⟩
      · refine iff_of_false (fun h => ?_) fun h => hempty h.2.1
        rw [hfail.silent, hearly.wire_eq] at h
        exact wire_settled_ne hc hplain hearly hroom hempty (append_cancel_left h)
    · have hbroken : c₃.broken = true := by
        by_contra h
        exact hroom (hsound.mp (Bool.not_eq_true _ ▸ h))
      rw [flush_of_broken hbroken, hwire]
      exact iff_of_false hlost fun h => hroom h.2.2

/-! ## Three rounds -/

/-- A handler that sets its body twice. -/
def bodyTwice : Req := { ops := [.body (ascii "x"), .body (ascii "y")] }

theorem failure_isolated_bodyTwice :
    (start.round 32 ([hello].map Exchange.req ++ [bodyTwice])).1.wire =
      start.wire ++ ([hello] ++ [errorExchange bodyTwice .internalServerError]).flatMap
        (Exchange.own start.opt) :=
  (failure_isolated_iff fresh_start (fun _ _ _ => ⟨rfl, rfl, rfl, rfl, rfl⟩) (by decide) (by decide)
    (by decide) (by decide) (by decide +kernel) (fun h => absurd h (by decide))
    ⟨rfl, .inl (by decide +kernel), by decide +kernel⟩).mpr
    ⟨nofun, by
      rw [Recovers, if_pos (by decide +kernel)]
      exact ⟨by decide +kernel, by decide +kernel, ⟨by decide +kernel, by decide +kernel⟩,
        ⟨by decide +kernel, by decide +kernel⟩⟩⟩

/-- A handler with a line break in a header value. -/
def brokenHeader : Req := { ops := [.header .location (ascii "/\r\nX: y"), .body (ascii "x")] }

/-- A handler that starts a stream and forgets it. -/
def unfinished : Req := { ops := [.chunked] }

/-- **A broken header** takes the response before it along, nothing is written; **an unfinished
stream** writes its 500 over the head before it. -/
theorem brokenHeader_not_isolated :
    ((start.answer hello.req).1.Fails brokenHeader ∧
      (start.round 32 ([hello].map Exchange.req ++ [brokenHeader])).1.wire = [] ∧
      (start.round 32 ([hello].map Exchange.req ++ [brokenHeader])).1.wire ≠
        start.wire ++ ([hello] ++ [errorExchange brokenHeader .internalServerError]).flatMap
          (Exchange.own start.opt)) ∧
    (start.answer hello.req).1.Fails unfinished ∧
      (start.round 32 ([hello].map Exchange.req ++ [unfinished])).1.wire ≠
        start.wire ++ ([hello] ++ [errorExchange unfinished .internalServerError]).flatMap
          (Exchange.own start.opt) := by
  refine ⟨⟨⟨rfl, .inl ?_, ?_⟩, ?_, ?_⟩, ⟨rfl, .inr ?_, ?_⟩, ?_⟩ <;> decide +kernel

end Conn

end Cornet.Http.Server
