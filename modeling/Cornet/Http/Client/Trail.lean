import Cornet.Http.Client.Send

/-!
# Http/Client/Trail — what a `send` can have put on record

    ‖ attempt, retried │ attempt, retried │ attempt ‖ attempt, retried │ attempt ‖ …
      └──────────────── hop 0 ────────────────────┘   └──────── hop 1 ────────┘

Whatever the pool and the peers do, the record of a `send` is a trail: a hop is a list of attempts
each of which but the last was retried (`HopLog`), and a hop but the last was redirected (`Trail`).
This holds at any moment, so also of a `send` that has not returned.
-/

namespace Cornet.Http.Client

open List

variable {α : Type} {run : Request → Task α} {k : ℕ} {req : Request}

/-- The attempt is an exchange of the request, as it ran. -/
structure Issued (run : Request → Task α) (k : ℕ) (req : Request) (a : Attempt) : Prop where
  hop_eq : a.hop = k
  req_eq : a.req = req
  ran : ∃ r, run req a.lease.conn = (a.after, r) ∧ a.outcome = r.map fun _ => ()

/-- The attempt failed in a way that allows another one. -/
def Attempt.Retryable (a : Attempt) : Prop :=
  ∃ e, a.outcome = .error (some e) ∧ retryable a.req.isIdempotent a.lease a.after e = true

/-- The attempts of one hop, at most so many. -/
inductive HopLog (run : Request → Task α) (k : ℕ) (req : Request) : ℕ → List Attempt → Prop
  | nil {tries : ℕ} : HopLog run k req tries []
  | last {tries : ℕ} {a : Attempt} : Issued run k req a → HopLog run k req (tries + 1) [a]
  | retry {tries : ℕ} {a : Attempt} {l : List Attempt} :
      Issued run k req a → a.Retryable → HopLog run k req tries l → HopLog run k req (tries + 1)
        (a :: l)

/-- The hops of a `send`, with so many redirects left. -/
inductive Trail (cl : HttpClient) (run : Request → Task α) : ℕ → ℕ → Request → List Attempt → Prop
  | last {left k : ℕ} {req : Request} {l : List Attempt} :
      HopLog run k req (1 + cl.retries req) l → Trail cl run left k req l
  | redirected {left k : ℕ} {req req' : Request} {resp : Response} {l l' : List Attempt} :
      HopLog run k req (1 + cl.retries req) l → isRedirect resp.answer.status = true →
      follow req resp = some req' → Trail cl run left (k + 1) req' l' →
      Trail cl run (left + 1) k req (l ++ l')

/-- What is put on record is a trail of some sort. -/
def Logs (m : ClientTask α) (P : List Attempt → Prop) : Prop :=
  ∀ s, ∃ l, (m s).1.log = s.log ++ l ∧ P l

/-- The record of one exchange. -/
def Attempt.of (k : ℕ) (req : Request) (lease : Lease)
    (r : Connection × Except (Option ReadError) α) :
    Attempt :=
  ⟨k, req, lease, r.1, r.2.map fun _ => ()⟩

theorem issued_of (run : Request → Task α) (k : ℕ) (req : Request) (lease : Lease) :
    Issued run k req (.of k req lease (run req lease.conn)) :=
  ⟨rfl, rfl, _, rfl, rfl⟩

theorem logs_attempts (run : Request → Task α) (k : ℕ) (req : Request) :
    ∀ tries, Logs (attempts run k req req.isIdempotent tries) (HopLog run k req tries)
  | 0, s => ⟨[], (append_nil _).symm, .nil⟩
  | tries + 1, s => by
      cases hpool : s.pool 0 with
      | error e => exact ⟨[], by simp [attempts, borrow, hpool, bind], .nil⟩
      | ok lease =>
        have hissued := issued_of run k req lease
        match hrun : run req lease.conn with
        | (c, .ok a) =>
          exact ⟨[_], by simp [attempts, borrow, hpool, bind, issue, hrun, Attempt.of, pure], .last hissued⟩
        | (c, .error none) =>
          exact ⟨[_], by simp [attempts, borrow, hpool, bind, issue, hrun, Attempt.of], .last hissued⟩
        | (c, .error (some e)) =>
          by_cases hagain : (retryable req.isIdempotent lease c e && 0 < tries) = true
          · obtain ⟨l, hl, hlog⟩ := logs_attempts run k req tries
              { s with
                pool := fun i => s.pool (i + 1)
                log := s.log ++ [.of k req lease (run req lease.conn)] }
            refine ⟨_ :: l, ?_, .retry hissued ⟨e, ?_, ?_⟩ hlog⟩
            · rw [hrun] at hl
              simp only [attempts, borrow, hpool, bind, issue, hrun, hagain, ↓reduceIte]
              exact hl.trans (by simp)
            · simp [Attempt.of, hrun, Except.map]
            · rw [hrun]
              exact (Bool.and_eq_true_iff.mp hagain).1
          · refine ⟨[_], ?_, .last hissued⟩
            simp [attempts, borrow, hpool, bind, issue, hrun, Attempt.of, hagain, Coro.fail]

theorem logs_hop (cl : HttpClient) (run : Request → Task α) (k : ℕ) (req : Request) :
    Logs (cl.hop run k req) (HopLog run k req (1 + cl.retries req)) :=
  logs_attempts run k req _

/-- **The record of a `send` is a trail.** -/
theorem logs_hops (cl : HttpClient) (n : ℕ) :
    ∀ left k req, Logs (cl.hops n left k req) (Trail cl (Connection.exchange n) left k req)
  | 0, k, req, s => by
      obtain ⟨l, hl, hlog⟩ := logs_hop cl (Connection.exchange n) k req s
      exact ⟨l, hl, .last hlog⟩
  | left + 1, k, req, s => by
      obtain ⟨l, hl, hlog⟩ := logs_hop cl (Connection.exchange n) k req s
      match hhop : cl.hop (Connection.exchange n) k req s with
      | (t, .error e) =>
        rw [hhop] at hl
        exact ⟨l, by simpa [HttpClient.hops, bind, hhop] using hl, .last hlog⟩
      | (t, .ok resp) =>
        rw [hhop] at hl
        by_cases hredirect : isRedirect resp.answer.status = true
        · match hfollow : follow req resp with
          | none =>
            exact ⟨l, by simpa [HttpClient.hops, bind, hhop, hredirect, hfollow, pure] using hl, .last hlog⟩
          | some req' =>
            obtain ⟨l', hl', htrail⟩ := logs_hops cl n left (k + 1) req' t
            refine ⟨l ++ l', ?_, .redirected hlog hredirect hfollow htrail⟩
            simp only [HttpClient.hops, bind, hhop, hredirect, Bool.not_true, Bool.false_eq_true,
              ↓reduceIte, hfollow]
            rw [hl', hl, append_assoc]
        · exact ⟨l, by simpa [HttpClient.hops, bind, hhop, hredirect, pure] using hl, .last hlog⟩

theorem trail_send (cl : HttpClient) (n : ℕ) (req : Request) (pool : ℕ → Except ReadError Lease) :
    Trail cl (Connection.exchange n) (cl.redirects req) 0 req (cl.send n req { pool }).1.log := by
  rw [HttpClient.send]
  cases req.error with
  | some e => exact .last .nil
  | none =>
    obtain ⟨l, hl, htrail⟩ := logs_hops cl n (cl.redirects req) 0 req { pool }
    exact hl ▸ htrail

theorem hopLog_stream (cl : HttpClient) (n : ℕ) (req : Request)
    (pool : ℕ → Except ReadError Lease) :
    HopLog (Connection.beginExchange n) 0 req (1 + cl.retries req)
      (cl.stream n req { pool }).1.log := by
  rw [HttpClient.stream]
  cases req.error with
  | some e => exact .nil
  | none =>
    obtain ⟨l, hl, hlog⟩ := logs_hop cl (Connection.beginExchange n) 0 req { pool }
    exact hl ▸ hlog

/-! ## Following -/

/-- What a followed redirect makes of a request. -/
structure Follows (req : Request) (resp : Response) (req' : Request) : Prop where
  parsed : ∃ text : List Byte, text.length ≤ kAbsolute ∧ Url.parse text = .ok req'.url
  allowed : req'.url.sameOrigin req.url = true ∨ req.saw.authorization = false
  eq : req' = { req.rewritten resp.answer.status with url := req'.url }

/-- Where a redirect leads is a url that parses. -/
theorem parse_of_redirectTarget {base target : Url} {location : List Byte}
    (h : redirectTarget base location = some target) :
    ∃ text : List Byte, text.length ≤ kAbsolute ∧ Url.parse text = .ok target := by
  rw [redirectTarget] at h
  split at h
  · cases h
  · rename_i text hresolve
    refine ⟨text, Url.length_le_of_resolve hresolve, ?_⟩
    cases hparse : Url.parse text with
    | error e =>
      rw [hparse] at h
      cases h
    | ok u =>
      rw [hparse] at h
      exact congrArg Except.ok (Option.some.inj h)

theorem follows_of_follow {req req' : Request} {resp : Response} (h : follow req resp = some req') :
    Follows req resp req' := by
  rw [follow] at h
  split at h
  · cases h
  · split at h
    · cases h
    · rename_i target htarget
      split at h
      · cases h
      · rename_i hallowed
        obtain rfl := Option.some.inj h
        exact ⟨parse_of_redirectTarget htarget, by simpa [or_iff_not_imp_left] using hallowed, rfl⟩

theorem Request.saw_rewritten (req : Request) (s : Status) : (req.rewritten s).saw = req.saw := by
  rw [rewritten]
  split <;> rfl

theorem Request.maxRetries_rewritten (req : Request) (s : Status) :
    (req.rewritten s).maxRetries = req.maxRetries := by
  rw [rewritten]
  split <;> rfl

/-! ## Attempts on a trail -/

variable {cl : HttpClient} {tries left : ℕ} {l : List Attempt} {a : Attempt}

theorem HopLog.issued (h : HopLog run k req tries l) : ∀ a ∈ l, Issued run k req a := by
  induction h with
  | nil => exact fun a ha => absurd ha not_mem_nil
  | last h =>
    intro a ha
    rwa [mem_singleton.mp ha]
  | retry h _ _ ih =>
    intro a ha
    rcases mem_cons.mp ha with rfl | ha
    · exact h
    · exact ih a ha

theorem HopLog.length_le (h : HopLog run k req tries l) : l.length ≤ tries := by
  induction h with
  | nil => exact Nat.zero_le _
  | last _ => exact Nat.succ_le_succ (Nat.zero_le _)
  | retry _ _ _ ih => exact Nat.succ_le_succ ih

/-- Every attempt that was followed by another one allowed it. -/
theorem HopLog.pairwise (h : HopLog run k req tries l) : l.Pairwise fun a _ => a.Retryable := by
  induction h with
  | nil => exact .nil
  | last _ => exact pairwise_singleton _ _
  | retry _ hretry _ ih => exact .cons (fun _ _ => hretry) ih

/-- **The rule for trails**: what a redirect preserves of a request holds of every request sent. -/
theorem Trail.forall_req {P : Request → Prop} (h : Trail cl run left k req l) (h₀ : P req)
    (hfollow : ∀ req resp req', P req → follow req resp = some req' → P req') : ∀ a ∈ l,
      P a.req := by
  induction h with
  | last hlog =>
    intro a ha
    exact (hlog.issued a ha).req_eq ▸ h₀
  | redirected hlog _ hreq' _ ih =>
    intro a ha
    rcases mem_append.mp ha with ha | ha
    · exact (hlog.issued a ha).req_eq ▸ h₀
    · exact ih (hfollow _ _ _ h₀ hreq') a ha

/-- The same behind a redirect: what following establishes holds of every request but the first. -/
theorem Trail.forall_followed {P Q : Request → Prop} (h : Trail cl run left k req l) (h₀ : P req)
    (hfollow : ∀ req resp req', P req → follow req resp = some req' → P req' ∧ Q req') :
    ∀ a ∈ l, a.hop ≠ k → P a.req ∧ Q a.req := by
  cases h with
  | last hlog => exact fun a ha hne => absurd (hlog.issued a ha).hop_eq hne
  | redirected hlog _ hreq' htrail =>
    intro a ha hne
    rcases mem_append.mp ha with ha | ha
    · exact absurd (hlog.issued a ha).hop_eq hne
    · exact htrail.forall_req (P := fun req => P req ∧ Q req) (hfollow _ _ _ h₀ hreq')
        (fun _ _ _ hreq => hfollow _ _ _ hreq.1) a ha

/-- Every attempt on a trail is a run of its request. -/
theorem Trail.ran (h : Trail cl run left k req l) :
    ∀ a ∈ l, ∃ r, run a.req a.lease.conn = (a.after, r) ∧ a.outcome = r.map fun _ => () := by
  induction h with
  | last hlog =>
    intro a ha
    have hissued := hlog.issued a ha
    exact hissued.req_eq ▸ hissued.ran
  | redirected hlog _ _ _ ih =>
    intro a ha
    rcases mem_append.mp ha with ha | ha
    · have hissued := hlog.issued a ha
      exact hissued.req_eq ▸ hissued.ran
    · exact ih a ha

end Cornet.Http.Client
