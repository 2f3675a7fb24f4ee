import Cornet.Http.Inside
import Cornet.Http.Server.Timeouts

/-!
# Http/Server/TimeoutRuns — the deadlines of whole runs

    end of a round ─▸ idle timeout, whatever the parser is in the middle of ─▸ fill

The only reads that wait under anything but the idle timeout are those of a streamed body: a round
ends by arming the idle timeout, and the next read is the first thing the next round does.  So a
request that arrives in pieces, or whose body is aggregated from several reads, is waited for as if
it had not begun.
-/

namespace Cornet.Http

namespace Server.Timed

open Coro

variable {o : Timeouts} {app : App} {t : Timed} {n : ℕ}

/-! ## What is recorded -/

/-- Every read recorded so far fits its phase exactly when it is timely. -/
def Sound (o : Timeouts) (t : Timed) : Prop := ∀ x ∈ t.log, x.Fits o ↔ x.Timely o

/-- The read of a round waits under the idle timeout. -/
theorem fits_top (h : t.armed.phase = .idle) : (t.suspension false).Fits o ↔
    (t.suspension false).Timely o := by
  rw [Suspension.Timely, if_neg (by rintro ⟨⟩), Suspension.Fits]
  split
  · rename_i hphase
    exact iff_of_true h hphase
  · rename_i hphase
    exact iff_of_false (fun hfits => hfits.1 h) (by rw [hphase]; rintro ⟨⟩)
  · rename_i hphase
    exact iff_of_false (fun hfits => hfits.1 h) (by rw [hphase]; rintro ⟨⟩)

theorem endsAfter_eq {t t' d : ℕ} : endsAfter t d = endsAfter t' d ↔ t = t' ∨ d = 0 := by
  rw [endsAfter, endsAfter]
  split_ifs with h
  · exact iff_of_true rfl (.inr h)
  · rw [Option.some.injEq]
    omega

/-- A read inside a streamed body waits under a budget that begins with it. -/
theorem fits_chunk (hbody : t.conn.parser.past = true) :
    ((t.budgeted o .body).suspension true).Fits o ↔ ((t.budgeted o .body).suspension true).Timely
      o := by
  have hphase : (t.budgeted o .body).conn.phase = .body := if_pos hbody
  have hfits : ((t.budgeted o .body).suspension true).Fits o ↔
      Phase.body ≠ .idle ∧ endsAfter t.now o.body = endsAfter t.last o.body := by
    rw [Suspension.Fits, suspension, hphase]
    rfl
  rw [hfits, endsAfter_eq]
  exact and_iff_right (by rintro ⟨⟩)

theorem Sound.suspended (h : t.Sound o) {streaming : Bool}
    (hx : (t.suspension streaming).Fits o ↔ (t.suspension streaming).Timely o) : (t.suspended
      streaming).Sound o := by
  rw [Timed.suspended]
  split_ifs
  · exact h
  · intro x hmem
    rcases List.mem_append.1 hmem with hmem | hmem
    · exact h x hmem
    · rw [List.mem_singleton.1 hmem]
      exact hx

theorem Sound.heard (h : t.Sound o) (r : Except ReadError ℕ) : (t.heard r).Sound o := by
  rcases r with _ | _ | _ <;> exact h

theorem armed_heard (r : Except ReadError ℕ) : (t.heard r).armed = t.armed := by
  rcases r with _ | _ | _ <;> rfl

/-- What takes no time records nothing. -/
theorem stays_lift {α : Type} {m : Serving α} {Q : α → Timed → Prop} (h : t.Sound o)
    (hQ : ∀ s a first, m t.conn = (s, .ok a) → Sound o { t with conn := s, first := first } →
      Q a { t with conn := s, first := first }) : Stays (lift m) t (Sound o) Q := by
  refine ⟨h, fun t' a heq => ?_⟩
  obtain ⟨rfl, hr⟩ := Prod.mk.inj heq
  exact hQ _ a _ (Prod.ext rfl hr) h

theorem stays_fill {streaming : Bool} (h : t.Sound o)
    (hx : (t.suspension streaming).Fits o ↔ (t.suspension streaming).Timely o) :
    Stays (fill streaming) t (Sound o) fun _ t' => t'.Sound o ∧ t'.armed = t.armed := by
  refine stays_modify_bind (stays_modify_bind ?_)
  refine Stays.bind (stays_lift (h.suspended hx) (Q := fun _ t' => t'.Sound o ∧ t'.armed = t.armed)
    ?_) fun r t' ht => ?_
  · intro s a first _ hs
    refine ⟨hs, ?_⟩
    rw [Timed.suspended]
    split_ifs <;> rfl
  · exact stays_modify_bind (stays_pure (ht.1.heard r) ⟨ht.1.heard r, (armed_heard r).trans ht.2⟩)

/-! ## Streamed bodies -/

theorem sound_readMore (h : t.Sound o) (hbody : t.conn.parser.past = true) : (readMore o t).1.Sound
    o := by
  have hstays : Stays (readMore o) t (Sound o) fun _ _ => True := by
    refine Stays.bind (stays_lift h (Q := fun _ t' => t'.Sound o ∧ t'.conn.parser.past = true) ?_)
      fun _ t' ht => ?_
    · intro s _ first heq hs
      obtain ⟨rfl, -⟩ := Prod.mk.inj heq
      exact ⟨hs, hbody⟩
    · refine stays_modify_bind ((stays_fill (t := t'.budgeted o .body) ht.1 (fits_chunk ht.2)).bind
        fun r t' ht => ?_)
      rcases r with e | _ | k
      · exact stays_pure ht.1 trivial
      · exact stays_pure ht.1 trivial
      · refine Stays.bind (stays_lift ht.1 (Q := fun _ t' => t'.Sound o) fun _ _ _ _ hs => hs)
          fun r t' ht => ?_
        cases r with
        | error | needMore | headersReady | bodyPaused | upgrade => exact stays_pure ht trivial
        | messageReady => exact stays_lift ht fun _ _ _ _ _ => trivial
  exact hstays.1

theorem sound_readTurn {complete : Bool} (h : t.Sound o)
    (hread : complete = false → t.conn.parser.MidBody) :
    (readTurn o complete t).1.Sound o := by
  change ((if t.conn.intake.parser.pendingBody ≠ [] ∨ complete = true then _ else _ : Timing Turn)
    t).1.Sound o
  by_cases hc : t.conn.intake.parser.pendingBody ≠ [] ∨ complete = true
  · rw [if_pos hc]
    exact h
  · rw [if_neg hc]
    have hmid := hread (by simpa using (not_or.1 hc).2)
    have hstays : Stays (lift (Receiver.onIntake Intake.resume)) t (Sound o) fun r t' =>
        t'.Sound o ∧ (r = .needMore → t'.conn.parser.past = true) := by
      refine stays_lift h fun s r first heq hs => ⟨hs, ?_⟩
      obtain ⟨rfl, hr⟩ := Prod.mk.inj heq
      rintro rfl
      exact (hmid.pump (.inl (Except.ok.inj hr))).1
    refine (hstays.bind (S := fun _ _ => True) fun r t' ht => ?_).1
    cases r with
    | needMore => exact stays_modify_bind ⟨sound_readMore (t := t'.passed) ht.1 (ht.2 rfl), fun _ _ _ => trivial⟩
    | bodyPaused | messageReady | headersReady | upgrade | error => exact stays_pure ht.1 trivial

/-- Inside a streamed body. -/
def Streams (o : Timeouts) (t : Timed) : Prop :=
  t.Sound o ∧ (t.conn.bodyComplete = false → t.conn.parser.MidBody)

theorem stays_readTurn (h : t.Streams o) :
    Stays (readTurn o t.conn.bodyComplete) t (Sound o) fun turn t' =>
      t'.Sound o ∧ ((turn = .again ∨ ∃ l, turn = .run l) → t'.Streams o) := by
  have hsound := sound_readTurn h.1 h.2
  refine ⟨hsound, fun t' turn heq => ?_⟩
  obtain ⟨hconn, hturn⟩ := erases_readTurn (o := o) t.conn.bodyComplete t
  rw [heq] at hsound hconn hturn
  have hturn : turn = (t.conn.intake.readTurn t.conn.bodyComplete).2 := Except.ok.inj hturn
  refine ⟨hsound, fun hmore => ⟨hsound, ?_⟩⟩
  dsimp only at hconn
  rw [hconn]
  intro hcomplete
  change t.conn.bodyComplete = false at hcomplete
  change (t.conn.intake.readTurn t.conn.bodyComplete).1.parser.MidBody
  rw [hcomplete] at hturn ⊢
  obtain rfl | ⟨l, rfl⟩ := hmore
  · exact Intake.midBody_readTurn (h.2 hcomplete) (l := []) (.inl hturn.symm)
  · exact Intake.midBody_readTurn (h.2 hcomplete) (.inr hturn.symm)

theorem stays_chunkTurn (h : t.Streams o) : Stays (chunkTurn o) t (Sound o) fun _ t' =>
    t'.Streams o := by
  refine stays_get_bind ((stays_readTurn h).bind fun turn t' ht => ?_)
  cases turn with
  | again =>
    have := ht.2 (.inl rfl)
    exact stays_pure this.1 this
  | run l =>
    have := ht.2 (.inr ⟨l, rfl⟩)
    exact stays_pure this.1 this
  | done tail =>
    refine Stays.bind (stays_lift ht.1 (Q := fun _ t' => t'.Streams o) ?_) fun _ t' ht =>
      stays_pure ht.1 ht
    intro s _ first heq hs
    obtain ⟨rfl, -⟩ := Prod.mk.inj heq
    exact ⟨hs, by rintro ⟨⟩⟩
  | eof | failed => exact stays_fail _ ht.1

theorem stays_readViews (h : t.Streams o) (n : ℕ) : Stays (readViews o n) t (Sound o) fun _ t' =>
    t'.Sound o := by
  refine stays_loop (K := fun _ t => t.Streams o) (fun _ _ h => h.1) (fun views t h => ?_) n [] t h
  refine Stays.bind (stays_loop (K := fun _ t => t.Streams o) (Q := fun _ t => t.Streams o)
    (fun _ _ h => h.1)
    (fun _ t h => ?_) n () t h) fun run t' ht => ?_
  · refine ⟨(stays_chunkTurn h).1, fun t' r heq => ?_⟩
    have ht := (stays_chunkTurn h).2 t' r heq
    cases r <;> exact ht
  · refine stays_pure ht.1 ?_
    split_ifs
    · exact ht.1
    · exact ht

/-! ## Rounds -/

/-- The parser said that a header section is in. -/
def Headed (r : Result) (s : Receiver) : Prop := r = .headersReady → s.parser.InBody

/-- Errors are not looked at, and nothing is needed. -/
abbrev Yields {α : Type} (m : Serving α) (Q : α → Receiver → Prop) : Prop :=
  Triple (fun _ => True) m Q fun _ _ => True

theorem yields_resume : Yields (Receiver.onIntake Intake.resume) Headed := by
  intro s _ h
  exact Parser.inBody_of_headersReady h

theorem yields_execute (f : Intake → ℕ) (n : ℕ) : Yields
    (Receiver.onIntake fun s => s.execute (f s) n) Headed := by
  intro s _ h
  exact Parser.inBody_of_headersReady h

/-- What the inner loop goes on with. -/
def Goes (r : Result ⊕ Unit) (s : Receiver) : Prop := Sum.elim (Headed · s) (fun _ => True) r

theorem yields_stop (g : Receiver → Receiver) : Yields (do modify g; pure (.inr ())) Goes :=
  fun _ _ => trivial

theorem yields_inl : Yields (do pure (.inl (← Receiver.onIntake Intake.resume))) Goes :=
  yields_resume.bind fun _ => triple_pure fun _ h => h

theorem yields_settle (d : Dispatch) : Yields (Receiver.settle app d) Goes := by
  refine Triple.bind (triple_modify (Q := fun _ _ => True) fun _ _ => trivial) fun _ => ?_
  refine Triple.bind (triple_get (Q := fun _ _ => True) fun _ _ => trivial) fun s => ?_
  split_ifs
  · exact yields_stop _
  · refine Triple.bind (triple_modify (Q := fun _ _ => True) fun _ _ => trivial) fun _ => ?_
    refine Triple.bind (triple_get (Q := fun _ _ => True) fun _ _ => trivial) fun s => ?_
    split_ifs
    · exact triple_pure fun _ _ => trivial
    · exact yields_inl
    · exact triple_pure fun _ _ => by rintro ⟨⟩

theorem yields_dispatchTurn {r : Result} (h : r ≠ .headersReady) : Yields
    (Receiver.dispatchTurn app n r) Goes := by
  cases r with
  | needMore => exact triple_pure fun _ _ => trivial
  | headersReady => exact absurd rfl h
  | messageReady =>
    refine Triple.bind (triple_modify (Q := fun _ _ => True) fun _ _ => trivial) fun _ => ?_
    refine Triple.bind (triple_get (Q := fun _ _ => True) fun _ _ => trivial) fun s => ?_
    refine Triple.bind (triple_modify (Q := fun _ _ => True) fun _ _ => trivial) fun _ => ?_
    exact yields_settle _
  | bodyPaused | upgrade | error => exact yields_stop _

theorem stays_lift_of {α : Type} {m : Serving α} {Q : α → Receiver → Prop} (h : t.Sound o)
    (hm : Yields m Q) :
    Stays (lift m) t (Sound o) fun a t' => t'.Sound o ∧ Q a t'.conn := by
  refine stays_lift h fun s a first heq hs => ⟨hs, ?_⟩
  have := hm t.conn trivial
  rwa [heq] at this

/-- A body is prepared inside its message. -/
theorem inBody_prepareBody {s s' : Receiver} {policy : BodyPolicy} (h : s.parser.InBody)
    (heq : s.prepareBody policy = .ok s') : s'.enterBody.parser.InBody := by
  rw [Receiver.prepareBody] at heq
  split at heq
  · obtain rfl := Except.ok.inj heq
    exact h
  · split at heq
    · cases heq
    · split at heq
      · split at heq
        · obtain rfl := Except.ok.inj heq
          exact h
        · cases heq
      · obtain rfl := Except.ok.inj heq
        exact h

theorem stays_onHeaders (h : t.Sound o) (hbody : t.conn.parser.InBody) :
    Stays (onHeaders o app n) t (Sound o) fun r t' => t'.Sound o ∧ Goes r t'.conn := by
  refine stays_get_bind ?_
  dsimp only
  cases app.route t.conn.parser.facts t.conn.parser.targetText with
  | none => exact stays_lift_of h (yields_stop _)
  | some policy =>
    dsimp only
    cases hprep : t.conn.prepareBody policy with
    | error e => exact stays_lift_of h (yields_stop _)
    | ok s =>
      have hin := inBody_prepareBody hbody hprep
      refine Stays.bind (stays_lift h (Q := fun _ t' => t'.Streams o) ?_) fun _ t' ht => ?_
      · intro s' _ first heq hs
        obtain ⟨rfl, -⟩ := Prod.mk.inj heq
        exact ⟨hs, fun _ => .inl hin⟩
      · split_ifs
        · refine Stays.bind (stays_attempt (Q := fun _ t' => t'.Sound o) (stays_readViews ht n)
            fun _ _ h => h)
            fun r t' ht => ?_
          cases r with
          | error e => exact stays_lift_of ht (yields_stop _)
          | ok views =>
            exact (stays_lift ht (Q := fun _ t' => t'.Sound o) fun _ _ _ _ hs => hs).bind
              fun _ t' ht =>
              stays_lift_of ht (yields_settle _)
        · exact (stays_lift_of ht.1 yields_resume).bind fun _ t' ht => stays_pure ht.1 ht

theorem stays_dispatchTurn {r : Result} (h : t.Sound o) (hr : Headed r t.conn) :
    Stays (dispatchTurn o app n r) t (Sound o) fun r t' => t'.Sound o ∧ Goes r t'.conn := by
  cases r with
  | headersReady => exact stays_onHeaders h (hr rfl)
  | needMore | messageReady | bodyPaused | upgrade | error =>
    exact stays_lift_of h (yields_dispatchTurn (by rintro ⟨⟩))

/-- At the top of a round. -/
def AtTop (o : Timeouts) (t : Timed) : Prop := t.Sound o ∧ t.armed.phase = .idle

theorem stays_roundStart (h : t.AtTop o) :
    Stays (roundStart o) t (Sound o) fun r t' =>
      match r with
      | .ok r => t'.Sound o ∧ Headed r t'.conn
      | .error _ => t'.AtTop o := by
  refine Stays.bind (stays_lift h.1 (Q := fun _ t' => t'.AtTop o) fun _ _ _ _ hs => ⟨hs, h.2⟩)
    fun _ t' ht => ?_
  refine stays_get_bind ?_
  split_ifs
  · exact (stays_lift_of ht.1 yields_resume).bind fun _ t' ht => stays_pure ht.1 ht
  · refine (stays_fill ht.1 (fits_top ht.2)).bind fun r t'' ht' => ?_
    have htop : t''.AtTop o := ⟨ht'.1, (congrArg Armed.phase ht'.2).trans ht.2⟩
    rcases r with e | _ | k
    · cases e <;> exact stays_pure ht'.1 htop
    · exact stays_pure ht'.1 htop
    · exact stays_modify_bind
        (Stays.bind (stays_lift_of (t := t''.budgeted o _) ht'.1 (yields_execute _ _))
        fun _ t' ht => stays_pure ht.1 ht)

theorem stays_round (h : t.AtTop o) :
    Stays (round o app n) t (Sound o) fun r t' => Sum.elim (fun _ => t'.AtTop o)
      (fun _ => True) r := by
  refine (stays_roundStart h).bind fun r t' ht => ?_
  cases r with
  | error again =>
    refine stays_pure ht.1 ?_
    split_ifs
    · exact ht
    · trivial
  | ok r =>
    refine Stays.bind (stays_loop (K := fun r t => t.Sound o ∧ Headed r t.conn)
      (Q := fun _ t => t.Sound o)
      (fun _ _ h => h.1) (fun r t h => ?_) n r t' ht) fun _ t' ht => ?_
    · refine ⟨(stays_dispatchTurn h.1 h.2).1, fun t' r heq => ?_⟩
      have ht := (stays_dispatchTurn h.1 h.2).2 t' r heq
      cases r with
      | inl r => exact ht
      | inr _ => exact ht.1
    · refine Stays.bind (Q := fun more t' => t'.Sound o ∧ (more = true → t'.AtTop o)) ?_
        fun more t' ht => ?_
      · refine stays_modify_bind
          (Stays.bind (stays_lift (t := t'.passed) ht (Q := fun _ t' => t'.Sound o)
          fun _ _ _ _ hs => hs) fun more t' ht => stays_modify_bind ?_)
        cases more with
        | true => exact stays_pure ht ⟨ht, fun _ => ⟨ht, rfl⟩⟩
        | false => exact stays_pure ht ⟨ht, by rintro ⟨⟩⟩
      · refine stays_pure ht.1 ?_
        cases more with
        | true => exact ht.2 rfl
        | false => trivial

/-- **Which reads are timed right**: in every run, whatever arrives in whatever pieces at whatever
times, the deadline a read waits under fits the phase its request is in exactly when the read is
timely. -/
theorem fits_iff_timely (opt : ReceiveOptions) (net : Net) (items : List Item) (ticks : ℕ → ℕ)
    (n : ℕ) {x : Suspension}
    (hx : x ∈ (run o app n { conn := Receiver.accepted opt net items, ticks := ticks }).1.log) :
    x.Fits o ↔ x.Timely o := by
  have hstart : Timed.AtTop o (budgeted o .idle
    { conn := Receiver.accepted opt net items, ticks := ticks }) :=
    ⟨fun _ hx => absurd hx List.not_mem_nil, rfl⟩
  have hrun : Stays (run o app n) { conn := Receiver.accepted opt net items, ticks := ticks }
    (Sound o) fun _ _ => True :=
    stays_modify_bind (stays_loop (K := fun _ t => t.AtTop o) (fun _ _ h => h.1)
      (fun _ t h => stays_round h) n () _ hstart)
  exact hrun.1 x hx

/-- A request for `/`. -/
def smallRequest : List Item :=
  [.call .messageBegin, .raw (ascii "GET "), .run .url (ascii "/"), .raw (ascii " HTTP/1.1\r\n"),
   .run .field (ascii "Host"), .call .fieldComplete, .raw (ascii ": "), .run .value (ascii "a"),
     .call .valueComplete,
   .raw crlf, .raw crlf, .call (.headersComplete { method := .get, version := .http11 }),
     .call .messageComplete]

/-- Routes that take everything, and handlers that keep the connection. -/
def takesAll : App := ⟨fun _ _ => some .auto, fun _ => false⟩

/-- Its peer sends it in pieces of `k + 1` bytes. -/
def inPieces (k : ℕ) : Net :=
  { inbox := bytesOf smallRequest, fin := true, recvs := fun _ => .upTo k }

/-- The read behind a request that arrived in one piece. -/
def between : Suspension := ⟨false, .idle, ⟨.idle, some 60002⟩, 2, 1, 1⟩

theorem fits_iff_timely_between :
    between ∈ (run {} takesAll 9
      { conn := Receiver.accepted {} (inPieces 65535) smallRequest, ticks := fun _ => 1 }).1.log ∧
        between.Fits {} := by
  have hmem : between ∈ (run {} takesAll 9
      { conn := Receiver.accepted {} (inPieces 65535) smallRequest, ticks := fun _ =>
          1 }).1.log := by
    decide +kernel
  exact ⟨hmem, (fits_iff_timely {} _ _ _ 9 hmem).2 rfl⟩

/-- The read behind the first eight bytes of a header section. -/
def midHeader : Suspension := ⟨false, .header, ⟨.idle, some 60002⟩, 2, 1, 1⟩

/-- A header section that has begun is waited for as long as an idle connection is. -/
theorem header_waits_idle :
    midHeader ∈ (run {} takesAll 9
      { conn := Receiver.accepted {} (inPieces 7) smallRequest, ticks := fun _ => 1 }).1.log ∧
        ¬ midHeader.Fits {} :=
  ⟨by decide +kernel, fun h => h.1 rfl⟩

end Server.Timed

end Cornet.Http
