import Cornet.Http.Headers
import Cornet.Http.Server.Slots

/-!
# Http/Server/Parting — what a response says about the connection, and what becomes of it

    frame_response(close_after) ──▸ Connection: close | keep-alive        close_after_flush_ ──▸ the loop is left
    chunked() ──▸ Connection: keep-alive    handler ──▸ Connection: …     closing_ ─────────────┘

The decision to close and the line that announces it are made together in `frame_response`, but for
three cases: the head of a stream is framed before there is a decision, a handler may write the line
itself, and the loop may be left for a reason that came up later.  `history` lists the responses of
a connection, round after round, each with the reasons there were to close behind it.
-/

namespace Cornet.Http.Server

open List

/-! ## Heads -/

/-- The value of a line. -/
def Line.value (l : Line) : List Byte := ((l.text.dropWhile (· != 58)).drop 1).takeWhile (· != 13)

/-- `Connection: close`. -/
def Line.closes (l : Line) : Bool := l.field == .connection && hasToken l.value (ascii "close")

/-- A header section: the response as it is framed, the lines its handler wrote, and
`close_after`. -/
structure Head where
  draft : Staging
  own : List Line
  close : Bool

namespace Head

variable (h : Head)

def streamed : Bool := h.draft.resp.source == .streaming

def lines : List Line :=
  headLines h.draft.opt h.draft.date h.draft.resp.status h.draft.resp.saw h.streamed
    h.draft.resp.bodyLen h.close ++ h.own

/-- **The response is sent with `Connection: close`.** -/
def saysClose : Bool := h.lines.any Line.closes

/-- The handler wrote the line. -/
def ownConnection : Bool := h.draft.resp.saw.connection

/-- The lines are those the handler's calls noted. -/
def Noted : Prop := h.ownConnection = false → h.own.any Line.closes = false

end Head

/-- The lines of the connection itself. -/
theorem any_closes_headLines (o : Options) (date : List Byte) (status : Status) (saw : Saw)
    (streamed : Bool)
    (bodyLen : ℕ) (close : Bool) :
    (headLines o date status saw streamed bodyLen close).any
      Line.closes = (!saw.connection && close) := by
  have hite (p : Prop) [Decidable p] (l : Line) : (if p then [l] else []).any
    Line.closes = (decide p && l.closes) := by
    split_ifs with h <;> simp [h]
  have hother (f : Field) (text : List Byte)
    (hf : f ≠ .connection) : (⟨f, text⟩ : Line).closes = false := by
    simp [Line.closes, hf]
  have hconn : (⟨.connection, Staging.kHdrConn close⟩ : Line).closes = close := by
    cases close <;> decide +kernel
  simp only [headLines, any_append, hite, hconn, hother .date _ (by rintro ⟨⟩), hother .server _
    (by rintro ⟨⟩),
    hother .contentLength _ (by rintro ⟨⟩), hother .transferEncoding _ (by rintro ⟨⟩)]
  cases saw.connection <;> simp

/-- **What a head says**: what its handler said, or else `close_after`. -/
theorem Head.saysClose_eq {h : Head} (hn : h.Noted) :
    h.saysClose = if h.ownConnection then h.own.any Line.closes else h.close := by
  rw [saysClose, lines, any_append, any_closes_headLines]
  change ((!h.ownConnection && h.close) || _) = _
  cases hown : h.ownConnection with
  | true => simp
  | false => simp [hn hown]

namespace Staging

variable {s : Staging} {own : List Line} {ops : List Op} {h : Head}

theorem connection_noted (saw : Saw) (ls : List Line) (hnot : (noted saw ls).connection = false) :
    saw.connection = false ∧ ls.any Line.closes = false := by
  induction ls generalizing saw with
  | nil => exact ⟨hnot, rfl⟩
  | cons l ls ih =>
    obtain ⟨hsaw, hls⟩ := ih (saw.note l.field) hnot
    have hfield : l.field ≠ .connection := by
      intro heq
      rw [heq] at hsaw
      cases hsaw
    refine ⟨?_, by simp [Line.closes, hfield, hls]⟩
    cases hf : l.field <;> rw [hf] at hsaw <;> first | exact hsaw | exact absurd hf hfield

/-- The response `chunked()` frames. -/
def streamDraft (s : Staging) : Staging :=
  let r := if s.resp.source ≠ .none then s.resp.fail .invalidState else s.resp
  { s with resp := { r with source := .streaming } }

/-- The heads `chunked()` stages in the course of some calls. -/
def stagedHeads (s : Staging) (own : List Line) : List Op → List Head
  | [] => []
  | op :: ops =>
    (if op = .chunked then [⟨s.streamDraft, own, false⟩] else []) ++ (s.apply op).stagedHeads
      (own ++ s.opLines op) ops

theorem saw_streamDraft (s : Staging) : s.streamDraft.resp.saw = s.resp.saw := by
  rw [streamDraft]
  dsimp only
  split
  · exact saw_failResp s _
  · rfl

theorem noted_stagedHeads {s : Staging} {own : List Line} {ops : List Op}
    (hs : ∃ saw, s.resp.saw = noted saw own) {h : Head} (hh : h ∈ s.stagedHeads own ops) :
    h.Noted ∧ h.streamed = true ∧ h.close = false := by
  induction ops generalizing s own with
  | nil => cases hh
  | cons op ops ih =>
    obtain ⟨saw, hsaw⟩ := hs
    rcases mem_append.mp hh with hh | hh
    · obtain ⟨-, hh⟩ := mem_ite_nil_right.mp hh
      obtain rfl := mem_singleton.mp hh
      refine ⟨fun hown => (connection_noted saw own ?_).2, rfl, rfl⟩
      rw [← hsaw, ← saw_streamDraft]
      exact hown
    · refine ih ⟨saw, ?_⟩ hh
      rw [saw_apply, hsaw, noted, noted, noted, foldl_append]

end Staging

/-! ## The heads of an answer -/

namespace Conn

variable {c : Conn} {q : Req} {max : ℕ} {qs : List Req} {tail : Tail} {h : Head}

/-- The head of an error response. -/
def errorHead (s : Staging) (status : Status) : Head := ⟨s.errorDraft status, [kTextLine], true⟩

/-- The head `frame_response` frames for `q`, if it does. -/
def finalHead (c : Conn) (q : Req) : Option Head :=
  let h := c.handled q
  match q.drainError with
  | some status => some (errorHead h.toStaging status)
  | none =>
    if h.respFailed then some (errorHead h.toStaging .internalServerError)
    else if h.needsStreamingSettlement then
      if h.headersStaged then some (errorHead h.cleared .internalServerError) else none
    else if h.resp.source = .streaming then none
    else
      some ⟨h.toStaging, (c.toStaging.prepare q).linesOf q.ops,
        !q.keepAlive || h.closing || h.resp.status.forcesClose⟩

/-- The heads sent in answer to `q`: those of a stream, if anything of it left, and the one that is
queued. -/
def heads (c : Conn) (q : Req) : List Head :=
  (if (c.answer q).1.wire = c.wire then [] else (c.toStaging.prepare q).stagedHeads [] q.ops) ++
    (c.finalHead q).toList

theorem streamed_errorHead (s : Staging)
    (status : Status) : (errorHead s status).streamed = false :=
  beq_false_of_ne (Staging.source_errorDraft s status)

theorem saw_handled (c : Conn) (q : Req) : (c.handled q).resp.saw =
    Staging.noted (c.toStaging.prepare q).resp.saw ((c.toStaging.prepare q).linesOf q.ops) := by
  rw [toStaging_handled, Staging.saw_handle]

/-- The handler's own response, or an error response. -/
theorem finalHead_cases (hh : c.finalHead q = some h) : (∃ s status, h = errorHead s status) ∨
    ((c.handled q).resp.source ≠ .streaming ∧ h.draft = (c.handled q).toStaging ∧
      h.own = (c.toStaging.prepare q).linesOf q.ops) := by
  rw [finalHead] at hh
  split at hh
  · cases hh
    exact .inl ⟨_, _, rfl⟩
  · split at hh
    · cases hh
      exact .inl ⟨_, _, rfl⟩
    · split at hh
      · split at hh
        · cases hh
          exact .inl ⟨_, _, rfl⟩
        · cases hh
      · split at hh
        · cases hh
        · rename_i hsrc
          cases hh
          exact .inr ⟨hsrc, rfl, rfl⟩

theorem noted_finalHead (hh : c.finalHead q = some h) : h.Noted ∧ h.streamed = false := by
  obtain ⟨s, status, rfl⟩ | ⟨hsrc, hdraft, hown⟩ := finalHead_cases hh
  · exact ⟨fun _ => rfl, streamed_errorHead s status⟩
  · rw [Head.Noted, Head.ownConnection, Head.streamed, hdraft, hown, saw_handled]
    exact ⟨fun hsaw => (Staging.connection_noted _ _ hsaw).2, beq_false_of_ne hsrc⟩

/-- **The queued head is framed with the decision.** -/
theorem answer_finalHead (hh : c.finalHead q = some h) : h.close = (c.answer q).2 ∧
    ∃ b, (c.answer q).1.toStaging = { h.draft.frameResponse q.head h.close with
      closeAfterFlush := b } := by
  have hanswer : c.answer q = (c.handled q).conclude q := rfl
  rw [hanswer, conclude]
  rw [finalHead] at hh
  generalize c.handled q = d at hh ⊢
  cases hdrain : q.drainError with
  | some status =>
    rw [hdrain] at hh
    cases hh
    exact ⟨rfl, true, rfl⟩
  | none =>
    rw [hdrain] at hh
    dsimp only at hh ⊢
    by_cases hfail : d.respFailed = true
    · rw [if_pos hfail] at hh ⊢
      cases hh
      exact ⟨rfl, true, rfl⟩
    rw [if_neg hfail] at hh ⊢
    by_cases hopen : d.needsStreamingSettlement = true
    · rw [if_pos hopen] at hh ⊢
      by_cases hstaged : d.headersStaged = true
      · rw [if_pos hstaged] at hh
        rw [settleStreaming, if_pos hstaged]
        cases hh
        exact ⟨rfl, true, rfl⟩
      · rw [if_neg hstaged] at hh
        cases hh
    rw [if_neg hopen] at hh ⊢
    by_cases hsrc : d.resp.source = .streaming
    · rw [if_pos hsrc] at hh
      cases hh
    rw [if_neg hsrc] at hh
    cases hh
    split
    · rename_i hclose
      rw [hclose]
      exact ⟨rfl, true, rfl⟩
    · rename_i hclose
      rw [Bool.eq_false_iff.mpr hclose]
      exact ⟨rfl, _, rfl⟩

/-! ## Rounds -/

/-- **There is reason to close behind the response to `q`**: the request is not kept alive,
`closing_` is set, its body cannot be drained, or the handler set a status that forces it, failed
its response or left a stream without `finish()`. -/
def ends (c : Conn) (q : Req) : Bool :=
  !q.keepAlive || c.closing || q.drainError.isSome || (c.handled q).resp.status.forcesClose ||
    (c.handled q).respFailed || (c.handled q).needsStreamingSettlement

/-- The latches of the connection. -/
def latches (s : Staging) : Bool × Bool := (s.closing, s.closeAfterFlush)

theorem latches_prepare (s : Staging) (q : Req) : latches (s.prepare q) = latches s := by
  rw [Staging.prepare]
  split
  · rfl
  · split
    · rw [Staging.writeContinue]
      dsimp only
      split <;> rfl
    · rfl

theorem latches_handled (c : Conn) (q : Req) : latches (c.handled q).toStaging = latches
    c.toStaging := by
  rw [toStaging_handled]
  exact (congrArg latches (Staging.rests_handle q.ops _)).trans (latches_prepare _ q)

theorem latches_frameResponse (s : Staging) (headRequest closeAfter : Bool) :
    latches (s.frameResponse headRequest closeAfter) = latches s := by
  rw [Staging.frameResponse]
  split
  · rfl
  · dsimp only
    split <;> rfl

/-- **The decision**, and the latches it leaves. -/
theorem answer_ends (c : Conn) (q : Req) : (c.answer q).2 = c.ends q ∧
    (c.answer q).1.closeAfterFlush = (c.ends q || c.closeAfterFlush) ∧
    ((c.answer q).1.closing = true → c.ends q = true) := by
  have hanswer : c.answer q = (c.handled q).conclude q := rfl
  obtain ⟨hclosing, hflag⟩ := Prod.mk.inj (latches_handled c q)
  rw [hanswer, conclude, ends, ← hclosing, ← hflag]
  generalize c.handled q = h
  cases hdrain : q.drainError with
  | some status => simp [staged, Staging.writeError]
  | none =>
    cases hfail : h.respFailed with
    | true => simp [staged, Staging.writeError]
    | false =>
      cases hopen : h.needsStreamingSettlement with
      | true => simp
      | false =>
        cases hend : !q.keepAlive || h.closing || h.resp.status.forcesClose with
        | true =>
          have hends : (!q.keepAlive || h.closing || (none : Option Status).isSome ||
              h.resp.status.forcesClose || false || false) = true := by
            simpa [or_assoc] using hend
          rw [hends]
          simp
        | false =>
          have hends : (!q.keepAlive || h.closing || (none : Option Status).isSome ||
              h.resp.status.forcesClose || false || false) = false := by
            simpa [or_assoc] using hend
          obtain ⟨hclosing', hflag'⟩ := Prod.mk.inj (latches_frameResponse h.toStaging q.head false)
          simp only [Bool.or_eq_false_iff] at hend
          rw [hends]
          refine ⟨rfl, hflag', fun hc => ?_⟩
          rw [← hend.1.2]
          exact hclosing'.symm.trans hc

end Conn

/-- A round: its requests and what is behind them, and whether `request_close` is called between the
last decision and the end of the round. -/
structure Round where
  reqs : List Req
  tail : Tail := {}
  late : Bool := false

/-- A response that was sent: its heads, whether there was reason to close behind it when it was
framed and whether another came up, and whether the loop is left behind it. -/
structure Reply where
  heads : List Head
  ends : Bool
  cut : Bool
  leaves : Bool

/-- **The header tells what happens.** -/
def Reply.Agrees (x : Reply) : Prop := ∀ h ∈ x.heads, h.saysClose = x.leaves

/-- **Who tells the truth**: a handler that writes the line itself, with the token `close` if there
is or comes up a reason to close; a stream behind which there is none; and any other response,
unless a reason comes up behind it that was not there when it was framed. -/
def Reply.Candid (x : Reply) : Prop :=
  ∀ h ∈ x.heads,
    if h.ownConnection then h.own.any Line.closes = (x.ends || x.cut)
    else if h.streamed then (x.ends || x.cut) = false
    else x.cut = true → x.ends = true

instance (x : Reply) : Decidable x.Agrees := inferInstanceAs (Decidable (∀ _ ∈ _, _))

instance (x : Reply) : Decidable x.Candid := inferInstanceAs (Decidable (∀ _ ∈ _, _))

namespace Conn

variable {c : Conn} {q : Req} {max : ℕ} {tail : Tail}

/-- The responses of a round, with the reasons they were framed with. -/
def served : ℕ → Conn → List Req → Tail → List (List Head × Bool)
  | _, c, [], tail =>
    (tail.error.map fun e => ([errorHead (c.opens tail.opened).toStaging e.2], true)).toList
  | max, c, q :: qs, tail =>
    (c.heads q, c.ends q) ::
      if (c.answer q).2 || max ≤ 1 then [] else served (max - 1) (c.answer q).1 qs tail

/-- A whole round; the flag says that the loop is left. -/
def parts (max : ℕ) (c : Conn) (r : Round) : Conn × Bool :=
  let s := (burst max c r.reqs r.tail).flush
  let c := s.1.resetRound
  (c, !s.2 || c.closeAfterFlush || c.closing || r.late)

/-- What can come up behind the last response of a round: its flush fails, or `request_close` is
called. -/
def cutOff (max : ℕ) (c : Conn) (r : Round) : Bool := !(burst max c r.reqs r.tail).flush.2 || r.late

/-- The last response of a round is the one behind which something comes up and the loop is left, or
not. -/
def marked (cut leaves : Bool) : List (List Head × Bool) → List Reply
  | [] => []
  | [x] => [⟨x.1, x.2, cut, leaves⟩]
  | x :: y :: xs => ⟨x.1, x.2, false, false⟩ :: marked cut leaves (y :: xs)

/-- The responses of a connection. -/
def history (max : ℕ) (c : Conn) : List Round → List Reply
  | [] => []
  | r :: rs =>
    marked (c.cutOff max r) (c.parts max r).2 (served max c r.reqs r.tail) ++
      if (c.parts max r).2 then [] else history max (c.parts max r).1 rs

/-! ## What is decided, and what happens -/

/-- A response with a reason to close is the last of its round. -/
theorem ends_dropLast : ∀ {qs : List Req} {max : ℕ} {c : Conn},
    ∀ x ∈ (served max c qs tail).dropLast, x.2 = false
  | [], _, c => by
      rw [served]
      cases tail.error <;> exact fun _ hx => absurd hx not_mem_nil
  | q :: qs, max, c => by
      rw [served]
      split_ifs with hdone
      · exact fun _ hx => absurd hx not_mem_nil
      · have hq : c.ends q = false := by
          rw [← (answer_ends c q).1]
          simp_all
        intro x hx
        rcases hrest : served (max - 1) (c.answer q).1 qs tail with _ | ⟨y, ys⟩
        · rw [hrest] at hx
          cases hx
        · rw [hrest, dropLast_cons_cons] at hx
          rcases mem_cons.mp hx with rfl | hx
          · exact hq
          · exact ends_dropLast x (hrest ▸ hx)

/-- The connection knows the reasons of the last response, and no others. -/
def Knows (c₁ : Conn) (reason : Bool) : Prop :=
  c₁.closeAfterFlush = reason ∧ (c₁.closing = true → reason = true)

theorem knows_answer (hc : c.closeAfterFlush = false) (q : Req) : (c.answer q).1.Knows
    (c.ends q) := by
  obtain ⟨-, hflag, hclosing⟩ := answer_ends c q
  rw [hc, Bool.or_false] at hflag
  exact ⟨hflag, hclosing⟩

theorem Knows.opens {c₁ : Conn} {b : Bool} (h : c₁.Knows b) : ∀ opened, (c₁.opens opened).Knows b
  | none => h
  | some q => by
      have hsame := latches_prepare c₁.toStaging q
      obtain ⟨hclosing, hflag⟩ := Prod.mk.inj hsame
      exact ⟨hflag.trans h.1, fun hc => h.2 (hclosing.symm.trans hc)⟩

theorem knows_burst : ∀ {qs : List Req} {max : ℕ} {c : Conn}, c.closeAfterFlush = false →
    ∀ x, (served max c qs tail).getLast? = some x → (burst max c qs tail).Knows x.2
  | [], _, c, _, x, hx => by
      rw [served] at hx
      rw [burst]
      cases herror : tail.error with
      | none =>
        rw [herror] at hx
        cases hx
      | some e =>
        rw [herror] at hx
        cases hx
        exact ⟨rfl, fun _ => rfl⟩
  | q :: qs, max, c, hc, x, hx => by
      have hknows := knows_answer hc q
      rw [served] at hx
      rw [burst]
      split_ifs at hx ⊢ with hdone
      · cases hx
        exact hknows
      · have hgo : c.ends q = false := by
          rw [← (answer_ends c q).1]
          simp_all
        cases hrest : served (max - 1) (c.answer q).1 qs tail with
        | nil =>
          rw [hrest] at hx
          cases hx
          cases qs with
          | nil =>
            rw [served] at hrest
            rw [burst]
            cases herror : tail.error with
            | none => exact hknows.opens tail.opened
            | some e =>
              rw [herror] at hrest
              cases hrest
          | cons => cases hrest
        | cons y ys =>
          rw [hrest, getLast?_cons_cons, ← hrest] at hx
          exact knows_burst (hknows.1.trans hgo) x hx

theorem toStaging_sendAll : ∀ (ls : List (List Byte)) (c : Conn),
    (sendAll ls c).1.toStaging = c.toStaging
  | [], _ => rfl
  | l :: ls, c => by
      rw [sendAll]
      split_ifs
      · exact (toStaging_sendAll ls _).trans (toStaging_send c l)
      · exact toStaging_send c l

theorem toStaging_flush (c : Conn) : c.flush.1.toStaging = c.toStaging := by
  rw [flush]
  split_ifs
  · rfl
  · rfl
  · exact toStaging_sendAll _ _

/-- **The loop is left for the reasons there are.** -/
theorem leaves_eq {r : Round} {x : List Head × Bool} (hc : c.closeAfterFlush = false)
    (hx : (served max c r.reqs r.tail).getLast? = some x) :
    (c.parts max r).2 = (x.2 || c.cutOff max r) := by
  obtain ⟨hflag, hclosing⟩ := knows_burst hc x hx
  have hsame := toStaging_flush (burst max c r.reqs r.tail)
  have hflag' : (burst max c r.reqs r.tail).flush.1.resetRound.closeAfterFlush = x.2 :=
    (congrArg Staging.closeAfterFlush hsame).trans hflag
  have hclosing' : (burst max c r.reqs r.tail).flush.1.resetRound.closing = true → x.2 = true :=
    fun h =>
    hclosing ((congrArg Staging.closing hsame).symm.trans h)
  rw [parts, cutOff]
  dsimp only
  rw [hflag']
  generalize (burst max c r.reqs r.tail).flush.1.resetRound.closing = closing at hclosing'
  generalize (burst max c r.reqs r.tail).flush.2 = flushed
  cases hend : x.2 with
  | true => simp
  | false =>
    have hopen : closing = false := Bool.eq_false_iff.mpr fun h => by simp [hclosing' h] at hend
    simp [hopen]

theorem mem_marked {cut leaves : Bool} : ∀ {xs : List (List Head × Bool)} {y : Reply},
    y ∈ marked cut leaves xs → (y.heads, y.ends) ∈ xs ∧
      ((∀ x ∈ xs.dropLast, x.2 = false) → (∀ x, xs.getLast? = some x → leaves = (x.2 || cut)) →
        y.leaves = (y.ends || y.cut))
  | [], _, hy => by cases hy
  | [x], y, hy => by
      obtain rfl := mem_singleton.mp hy
      exact ⟨mem_singleton.mpr rfl, fun _ hlast => hlast x rfl⟩
  | x :: x' :: xs, y, hy => by
      rw [dropLast_cons_cons, getLast?_cons_cons]
      rcases mem_cons.mp hy with rfl | hy
      · refine ⟨mem_cons_self, fun hrest _ => ?_⟩
        have hx : x.2 = false := hrest x mem_cons_self
        simp [hx]
      · obtain ⟨hmem, hleaves⟩ := mem_marked hy
        exact ⟨mem_cons_of_mem _ hmem, fun hrest => hleaves fun x hx =>
          hrest x (mem_cons_of_mem _ hx)⟩

/-- The heads of a round: noted, and framed with the decision unless they are those of a stream. -/
theorem heads_served : ∀ {qs : List Req} {max : ℕ} {c : Conn} {hs : List Head} {ends : Bool},
    (hs, ends) ∈ served max c qs tail →
      ∀ h ∈ hs, h.Noted ∧ h.close = if h.streamed then false else ends
  | [], _, c, hs, ends, hx => by
      rw [served] at hx
      cases herror : tail.error with
      | none =>
        rw [herror] at hx
        cases hx
      | some e =>
        rw [herror] at hx
        cases mem_singleton.mp hx
        intro h hh
        obtain rfl := mem_singleton.mp hh
        rw [streamed_errorHead]
        exact ⟨fun _ => rfl, rfl⟩
  | q :: qs, max, c, hs, ends, hx => by
      rw [served] at hx
      rcases mem_cons.mp hx with hx | hx
      · cases hx
        intro h hh
        rcases mem_append.mp hh with hh | hh
        · rw [mem_ite_nil_left] at hh
          obtain ⟨hnoted, hstreamed, hclose⟩ := Staging.noted_stagedHeads ⟨_, rfl⟩ hh.2
          exact ⟨hnoted, by rw [hstreamed, if_pos rfl, hclose]⟩
        · have hfinal := Option.mem_toList.mp hh
          obtain ⟨hnoted, hstreamed⟩ := noted_finalHead hfinal
          exact ⟨hnoted, by rw [hstreamed, if_neg Bool.false_ne_true, (answer_finalHead hfinal).1,
            (answer_ends c q).1]⟩
      · split_ifs at hx
        · cases hx
        · exact heads_served hx

/-- A request that is kept alive, and then one that is not. -/
def twoRounds : List Round :=
  [{ reqs := [{ ops := [.bodyStatic (ascii "x")] }] },
   { reqs := [{ keepAlive := false, ops := [.bodyStatic (ascii "y")] }] }]

/-- A stream in answer to a request that closes. -/
def lastStream : Round where
  reqs := [{ keepAlive := false, ops := [.chunked, .write (ascii "a"), .finish] }]

/-- A handler that announces the close of a connection that goes on. -/
def ownClose : Round where
  reqs := [{ ops := [.header .connection (ascii "close"), .bodyStatic (ascii "x")] }]

end Conn

end Cornet.Http.Server
