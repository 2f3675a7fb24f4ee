import Cornet.Http.Client.Trail
import Cornet.Http.Client.Termination

/-!
# Http/Client/Retry — when a request is sent again, and how often

    attempt ─ reused, idempotent, nothing heard, not timed out ─▸ attempt          at most 1 + max_retries a hop

A request is sent again only where that cannot be noticed: an earlier attempt of the hop was on a
connection that had been used before, and the peer had not answered one byte of it
(`unanswered_exchange`).  Attempts and hops are bounded, and every exchange comes to an end, so
`send` does.
-/

namespace Cornet.Http.Client

open List

open Coro

/-! ## What was heard of an attempt -/

namespace Connection

variable {l : List Byte} (n : ℕ) (req : Request)

/-- Nothing was received of `l`, unless the flag is up. -/
def Unheard (l : List Byte) (c : Connection) : Prop :=
  c.intake.responded = false → c.intake.net.inbox = l

theorem Unheard.listens {c d : Connection} (h : Unheard l c) (hd : c.Listens d) : Unheard l d := by
  intro hresp
  obtain ⟨hc, hinbox⟩ := hd.hears hresp
  exact hinbox.trans (h hc)

/-- Reading keeps the flag honest. -/
theorem triple_listens {α : Type} {m : Task α} (h : Moves Listens m) :
    Triple (Unheard l) m (fun _ => Unheard l) fun _ => Unheard l := by
  intro c hc
  have hmove := h c
  generalize m c = r at hmove
  match r with
  | (d, .ok a) => exact hc.listens hmove
  | (d, .error (some e)) => exact hc.listens hmove
  | (d, .error none) => trivial

theorem unheard_writeStaged (text : List Byte) :
    Triple (Unheard l) (writeStaged text) (fun _ => Unheard l) fun _ => Unheard l := by
  intro c hc
  rw [writeStaged]
  split <;> exact hc

/-- A request starts with the flag down. -/
theorem unheard_sendHead (chunkedUpload headOnly : Bool) :
    Triple (fun c => c.intake.net.inbox = l) (sendHead req chunkedUpload headOnly)
      (fun _ => Unheard l)
      fun _ => Unheard l := by
  refine Triple.bind (Q := fun _ => Unheard l) ?_ fun _ => ?_
  · exact fun c hc _ => hc
  · refine (triple_get (Q := fun _ => Unheard l) fun c hc => hc).bind fun c => ?_
    split
    · exact triple_listens (listens_breaks _)
    · exact unheard_writeStaged _

theorem unheard_sendAndReadHeaders :
    Triple (fun c => c.intake.net.inbox = l) (sendAndReadHeaders n req) (fun _ => Unheard l)
      fun _ => Unheard l := by
  rw [sendAndReadHeaders]
  split
  · exact triple_fail fun c hc _ => hc
  · have hnode (c : Connection)
      (hc : c.intake.net.inbox = l) : c.ensureNode.intake.net.inbox = l := by
      rw [ensureNode]
      split <;> exact hc
    refine (triple_modify (Q := fun _ c => c.intake.net.inbox = l) hnode).bind fun _ => ?_
    refine (unheard_sendHead req false _).bind fun _ => ?_
    split
    · refine (triple_listens (listens_readHeaders n _ true)).bind fun b => ?_
      split
      · refine (unheard_writeStaged _).bind fun _ => ?_
        exact (triple_listens (listens_readHeaders n _ false)).bind fun _ => triple_pure fun _ h =>
          h
      · exact triple_modify fun c hc => hc
    · exact (triple_listens (listens_readHeaders n _ false)).bind fun _ => triple_pure fun _ h => h

/-- **A failed exchange that did not respond left every byte of the peer where it was.** -/
theorem unheard_exchange :
    Triple (fun c => c.intake.net.inbox = l) (exchange n req) (fun _ _ => True) fun _ =>
      Unheard l :=
  ((unheard_sendAndReadHeaders n req).bind fun _ => triple_listens (listens_finish n)).mono
    (fun _ h => h)
    (fun _ _ _ => trivial) fun _ _ h => h

theorem unheard_beginExchange :
    Triple (fun c => c.intake.net.inbox = l) (beginExchange n req) (fun _ _ => True) fun _ =>
      Unheard l :=
  ((unheard_sendAndReadHeaders n req).bind fun _ => triple_listens (listens_prepare true)).mono
    (fun _ h => h) (fun _ _ _ => trivial) fun _ _ h => h

end Connection

/-- Of what the peer has sent, nothing was received before the exchange, and nothing during it. -/
def Attempt.Unanswered (a : Attempt) : Prop :=
  a.lease.conn.Quiet ∧ a.after.intake.net.inbox = a.lease.conn.intake.net.inbox

/-- What has to be so before a request is sent again. -/
structure Attempt.Replayable (a : Attempt) : Prop where
  reused : a.lease.reused = true
  idempotent : a.req.isIdempotent = true
  unanswered : a.Unanswered
  failed : ∃ e, a.outcome = .error (some e) ∧ e ≠ .sys eTimedOut

/-- A run whose failures leave the flag honest. -/
def Honest {α : Type} (run : Request → Task α) : Prop :=
  ∀ req l, Triple (fun c => c.intake.net.inbox = l) (run req) (fun _ _ => True) fun _ =>
    Connection.Unheard l

variable {α : Type} {run : Request → Task α} {k left tries : ℕ} {req : Request} {l : List Attempt}
  {cl : HttpClient}

theorem Issued.replayable {a : Attempt} (hrun : Honest run) (h : Issued run k req a)
    (hretry : a.Retryable) :
    a.Replayable := by
  obtain ⟨e, hout, hretry⟩ := hretry
  obtain ⟨r, hr, hmap⟩ := h.ran
  simp only [retryable, Bool.and_eq_true, Bool.not_eq_true', bne_iff_ne, ne_eq] at hretry
  obtain ⟨⟨⟨hreused, hidem⟩, hresp⟩, htime⟩ := hretry
  have hpost := hrun req _ a.lease.conn rfl
  rw [hr] at hpost
  match r, hmap.symm.trans hout with
  | .error (some e'), _ => exact ⟨hreused, hidem, ⟨a.lease.quiet, hpost hresp⟩, e, hout, htime⟩

/-! ## A safe record -/

/-- Within a hop every attempt but the last could be replayed, and hops and attempts are few. -/
structure RetrySafe (retries redirects : ℕ) (log : List Attempt) : Prop where
  earlier : log.Pairwise fun a b => a.hop = b.hop → a.Replayable
  attempts_le : ∀ k, (log.filter (·.hop = k)).length ≤ 1 + retries
  hop_le : ∀ a ∈ log, a.hop ≤ redirects

theorem HopLog.replayable (hrun : Honest run) (h : HopLog run k req tries l) :
    l.Pairwise fun a b => a.hop = b.hop → a.Replayable := by
  refine List.Pairwise.imp_of_mem ?_ h.pairwise
  intro a b ha _ hretry _
  exact (h.issued a ha).replayable hrun hretry

theorem retries_follow {req' : Request} {resp : Response} (h : follow req resp = some req') :
    cl.retries req' = cl.retries req := by
  rw [HttpClient.retries, HttpClient.retries, (follows_of_follow h).eq]
  exact congrArg (fun o : Option ℕ => o.getD cl.maxRetries) (req.maxRetries_rewritten _)

theorem Trail.le_hop (h : Trail cl run left k req l) : ∀ a ∈ l, k ≤ a.hop ∧ a.hop ≤ k + left := by
  induction h with
  | last hlog =>
    intro a ha
    rw [(hlog.issued a ha).hop_eq]
    omega
  | redirected hlog _ _ _ ih =>
    intro a ha
    rcases mem_append.mp ha with ha | ha
    · rw [(hlog.issued a ha).hop_eq]
      omega
    · have := ih a ha
      omega

theorem HopLog.filter_le (h : HopLog run k req tries l) (j : ℕ) : (l.filter (·.hop = j)).length ≤
    tries :=
  (length_filter_le _ l).trans h.length_le

theorem Trail.replayable (hrun : Honest run) (h : Trail cl run left k req l) :
    l.Pairwise fun a b => a.hop = b.hop → a.Replayable := by
  induction h with
  | last hlog => exact hlog.replayable hrun
  | redirected hlog _ _ htrail ih =>
    refine pairwise_append.mpr ⟨hlog.replayable hrun, ih, fun a ha b hb heq => ?_⟩
    have h₁ := (hlog.issued a ha).hop_eq
    have h₂ := (htrail.le_hop b hb).1
    omega

theorem Trail.filter_le (h : Trail cl run left k req l) (j : ℕ) :
    (l.filter (·.hop = j)).length ≤ 1 + cl.retries req := by
  induction h with
  | last hlog => exact hlog.filter_le j
  | @redirected left k req req' resp l l' hlog _ hfollow htrail ih =>
    rw [filter_append, length_append]
    by_cases hj : j = k
    · have hnone : l'.filter (·.hop = j) = [] := by
        refine filter_eq_nil_iff.mpr fun a ha => ?_
        have := (htrail.le_hop a ha).1
        simp only [decide_eq_true_eq]
        omega
      rw [hnone]
      exact hlog.filter_le j
    · have hnone : l.filter (·.hop = j) = [] := by
        refine filter_eq_nil_iff.mpr fun a ha => ?_
        have := (hlog.issued a ha).hop_eq
        simp only [decide_eq_true_eq]
        omega
      rw [hnone, length_nil, Nat.zero_add, ← retries_follow hfollow]
      exact ih

theorem Trail.safe (hrun : Honest run) (h : Trail cl run left 0 req l) :
    RetrySafe (cl.retries req) left l :=
  ⟨h.replayable hrun, h.filter_le, fun a ha => by have := (h.le_hop a ha).2; omega⟩

/-! ## Coming to an end -/

/-- So many turns are enough for the connections of the next so many leases. -/
def Enough (n tries : ℕ) (pool : ℕ → Except ReadError Lease) : Prop :=
  ∀ i < tries, ∀ lease, pool i = .ok lease → 8 * lease.conn.intake.load + 7 < n

/-- A run that comes to an end with enough turns. -/
def Terminates (run : ℕ → Request → Task α) : Prop :=
  ∀ n req c, 8 * c.intake.load + 7 < n → (run n req c).2 ≠ .error none

theorem Enough.tail {n : ℕ} {pool : ℕ → Except ReadError Lease} (h : Enough n (tries + 1) pool) :
    Enough n tries fun i => pool (i + 1) :=
  fun i hi => h (i + 1) (Nat.succ_lt_succ hi)

theorem Enough.mono {n tries' : ℕ} {pool : ℕ → Except ReadError Lease} (h : Enough n tries pool)
    (hle : tries' ≤ tries) : Enough n tries' pool :=
  fun i hi => h i (hi.trans_le hle)

/-- Any number of leases is served by some number of turns. -/
theorem exists_enough (tries : ℕ) (pool : ℕ → Except ReadError Lease) : ∃ N, ∀ n ≥ N,
    Enough n tries pool := by
  refine ⟨(Finset.range tries).sup fun i => (pool i).toOption.elim 0 fun lease =>
    8 * lease.conn.intake.load + 8,
    fun n hn i hi lease hlease => ?_⟩
  have hle := (Finset.le_sup (f := fun i => (pool i).toOption.elim 0 fun lease =>
    8 * lease.conn.intake.load + 8)
    (Finset.mem_range.mpr hi)).trans hn
  rw [hlease] at hle
  exact hle

theorem finishes_borrow (s : Session) :
    Finishes borrow s fun lease t => s.pool 0 = .ok lease ∧ t.pool = fun i => s.pool (i + 1) := by
  rw [Finishes, borrow]
  cases hpool : s.pool 0 with
  | error e => exact ⟨by rintro ⟨⟩, by rintro _ _ ⟨⟩⟩
  | ok lease =>
    refine ⟨by rintro ⟨⟩, fun t a heq => ?_⟩
    obtain ⟨rfl, ha⟩ := Prod.mk.inj heq
    exact ⟨congrArg Except.ok (Except.ok.inj ha), rfl⟩

theorem finishes_issue {lease : Lease} (h : (run req lease.conn).2 ≠ .error none) (s : Session) :
    Finishes (issue run k req lease) s fun _ t => t.pool = s.pool := by
  rw [Finishes, issue]
  rcases hr : run req lease.conn with ⟨c, (_ | e) | a⟩
  · exact absurd (congrArg Prod.snd hr) h
  · exact ⟨by rintro ⟨⟩, fun t b heq => (Prod.mk.inj heq).1 ▸ rfl⟩
  · exact ⟨by rintro ⟨⟩, fun t b heq => (Prod.mk.inj heq).1 ▸ rfl⟩

theorem finishes_attempts {run : ℕ → Request → Task α} (hrun : Terminates run) {n rest : ℕ} (k : ℕ)
    (req : Request) (idem : Bool) : ∀ (tries : ℕ) (s : Session), Enough n (tries + rest) s.pool →
    Finishes (attempts (run n) k req idem tries) s fun _ t => Enough n rest t.pool
  | 0, s, _ => finishes_fail _
  | tries + 1, s, h => by
      rw [Nat.add_right_comm] at h
      refine (finishes_borrow s).bind ?_
      rintro lease t ⟨hlease, ht⟩
      have henough : Enough n (tries + rest) t.pool := ht ▸ h.tail
      refine (finishes_issue (hrun n req lease.conn (h 0 (Nat.succ_pos _) lease hlease)) t).bind ?_
      rintro ⟨after, r⟩ u hu
      have hrest : Enough n rest u.pool := hu ▸ henough.mono (Nat.le_add_left _ _)
      cases r with
      | ok a => exact finishes_pure hrest
      | error e =>
        dsimp only
        split
        · exact finishes_attempts hrun k req idem tries u (hu ▸ henough)
        · exact finishes_fail _

theorem finishes_hops {n : ℕ} (cl : HttpClient) : ∀ (left k : ℕ) (req : Request) (s : Session),
    Enough n ((left + 1) * (1 + cl.retries req)) s.pool →
    Finishes (cl.hops n left k req) s fun _ _ => True
  | 0, k, req, s, h => by
      have hhop := finishes_attempts (fun n req c hn =>
        (Connection.finishes_exchange (c := c) req hn).1)
        k req req.isIdempotent (1 + cl.retries req) s
          (show Enough n (1 + cl.retries req + 0) s.pool by simpa using h)
      exact hhop.mono fun _ _ _ => trivial
  | left + 1, k, req, s, h => by
      rw [Nat.succ_mul, Nat.add_comm] at h
      have hhop := finishes_attempts (fun n req c hn =>
        (Connection.finishes_exchange (c := c) req hn).1)
        k req req.isIdempotent (1 + cl.retries req) s h
      refine hhop.bind fun resp t ht => ?_
      split
      · exact finishes_pure trivial
      · split
        · exact finishes_pure trivial
        · rename_i req' hfollow
          exact finishes_hops cl left (k + 1) req' t (retries_follow hfollow ▸ ht)

/-! ## Sends and streams -/

theorem honest_exchange (n : ℕ) : Honest (Connection.exchange n) :=
  fun req _ => Connection.unheard_exchange n req

theorem honest_beginExchange (n : ℕ) : Honest (Connection.beginExchange n) :=
  fun req _ => Connection.unheard_beginExchange n req

/-- **Retries are safe and bounded.**  Whatever the pool gives and the peers do: within a hop a
request is sent again only after attempts that could be replayed, a hop has at most `1 +
max_retries` attempts, at most `max_redirects` redirects are followed; and with enough turns for
each exchange, `send` and `stream` end. -/
theorem retrySafe (cl : HttpClient) (req : Request) (pool : ℕ → Except ReadError Lease) :
    (∀ n, RetrySafe (cl.retries req) (cl.redirects req) (cl.send n req { pool }).1.log ∧
      RetrySafe (cl.retries req) 0 (cl.stream n req { pool }).1.log) ∧
    ∃ N, ∀ n ≥ N, (cl.send n req { pool }).2 ≠ .error none ∧ (cl.stream n req { pool }).2 ≠ .error
      none := by
  refine ⟨fun n => ⟨(trail_send cl n req pool).safe (honest_exchange n), ?_⟩, ?_⟩
  · have htrail : Trail cl (Connection.beginExchange n) 0 0 req _ :=
      .last (hopLog_stream cl n req pool)
    exact htrail.safe (honest_beginExchange n)
  · obtain ⟨N, hN⟩ := exists_enough ((cl.redirects req + 1) * (1 + cl.retries req)) pool
    refine ⟨N, fun n hn => ⟨?_, ?_⟩⟩
    · rw [HttpClient.send]
      cases req.error with
      | some e => rintro ⟨⟩
      | none => exact (finishes_hops cl _ 0 req { pool } (hN n hn)).1
    · rw [HttpClient.stream]
      cases req.error with
      | some e => rintro ⟨⟩
      | none =>
        have henough := (hN n hn).mono (Nat.le_mul_of_pos_left (1 + cl.retries req)
          (Nat.succ_pos _))
        exact (finishes_attempts (fun n req c hn =>
          (Connection.finishes_beginExchange (c := c) req hn).1)
          0 req req.isIdempotent (1 + cl.retries req) { pool }
            (show Enough n (1 + cl.retries req + 0) pool from henough)).1

end Cornet.Http.Client
