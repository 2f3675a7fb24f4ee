import Cornet.Http.Server.Drafting
import Cornet.Http.Server.Flushing

/-!
# Http/Server/Slots — the queue of a round, and how much a round wants to put into it

    request ──▸ [100] [final] ⋯ request ──▸ [100] [final] · open request ──▸ [100] · error ──▸ [final]
                 └────────────── pending_[64] ──────────────┘

A round answers at most `max_pipelined` requests, and each of them may queue an interim and a final
response.  Behind them there may be a request whose body has not arrived, and an error.  Nothing
compares `max_pipelined` with the slots.
-/

namespace Cornet.Http.Server

/-- The interim responses a request is given when its header section is in. -/
def Req.interims (q : Req) : ℕ := if q.expectsContinue && !q.carried then 1 else 0

/-- What a round ends with: a request whose body has not all arrived, and an error. -/
structure Tail where
  opened : Option Req := none
  /-- Whether the request is a `HEAD`, and the status. -/
  error : Option (Bool × Status) := none

/-- The responses framed for it. -/
def Tail.frames (tail : Tail) : ℕ :=
  (tail.opened.map Req.interims).getD 0 + if tail.error.isSome then 1 else 0

theorem Tail.frames_le (tail : Tail) : tail.frames ≤ 2 := by
  have hopened : (tail.opened.map Req.interims).getD 0 ≤ 1 := by
    cases tail.opened with
    | none => exact Nat.zero_le _
    | some q =>
      change q.interims ≤ 1
      rw [Req.interims]
      split_ifs <;> omega
  rw [Tail.frames]
  split_ifs <;> omega

namespace Conn

variable {c : Conn} {q : Req} {max : ℕ} {qs : List Req} {tail : Tail}

/-! ## A burst -/

def opens (c : Conn) : Option Req → Conn
  | some q => c.staged (·.prepare q)
  | none => c

def errs (c : Conn) : Option (Bool × Status) → Conn
  | some (head, status) => c.staged (·.writeError head status)
  | none => c

/-- A burst of requests in one round, up to the flush. -/
def burst : ℕ → Conn → List Req → Tail → Conn
  | _, c, [], tail => (c.opens tail.opened).errs tail.error
  | max, c, q :: qs, tail =>
    if (c.answer q).2 || max ≤ 1 then (c.answer q).1 else burst (max - 1) (c.answer q).1 qs tail

/-- The responses framed for a request. -/
def frames (c : Conn) (q : Req) : ℕ := q.interims + if (c.draft q).isSome then 1 else 0

/-- The responses framed in a burst. -/
def framed : ℕ → Conn → List Req → Tail → ℕ
  | _, _, [], tail => tail.frames
  | max, c, q :: qs, tail =>
    c.frames q + if (c.answer q).2 || max ≤ 1 then 0 else framed (max - 1) (c.answer q).1 qs tail

/-- **Every response that is framed has a slot.** -/
def Slotted (max : ℕ) (c : Conn) (qs : List Req) (tail : Tail) : Prop :=
  (burst max c qs tail).pending.length = c.pending.length + framed max c qs tail

instance : Decidable (Slotted max c qs tail) := inferInstanceAs (Decidable (_ = _))

/-! ## Slots -/

open Staging

theorem length_prepare (h : c.pending.length ≤ kPending) :
    (c.toStaging.prepare q).pending.length = min kPending (c.pending.length + q.interims) := by
  have hnone : c.pending.length = min kPending c.pending.length := (Nat.min_eq_right h).symm
  rw [Staging.prepare, Req.interims]
  cases hcarried : q.carried with
  | true =>
    rw [Bool.not_true, Bool.and_false]
    exact hnone
  | false =>
    cases hexpects : q.expectsContinue with
    | false => exact hnone
    | true =>
      simp only [Bool.false_eq_true, if_false, if_true, Bool.not_false, Bool.and_true,
        Staging.writeContinue]
      split_ifs with hlt
      · change (c.pending ++ [_]).length = _
        rw [List.length_append, List.length_singleton]
        exact (Nat.min_eq_right hlt).symm
      · change c.pending.length = _
        have : kPending ≤ c.pending.length := not_lt.1 hlt
        omega

theorem length_frameResponse {s : Staging} {headRequest closeAfter : Bool}
    (h : s.pending.length ≤ kPending)
    (hsrc : s.resp.source ≠ .streaming) :
    (s.frameResponse headRequest closeAfter).pending.length = min kPending
      (s.pending.length + 1) := by
  rw [Staging.frameResponse, if_neg hsrc]
  dsimp only
  split_ifs with hlt
  · change (s.pending ++ [_]).length = _
    rw [List.length_append, List.length_singleton]
    exact (Nat.min_eq_right hlt).symm
  · change s.pending.length = _
    omega

theorem length_answer (h : c.pending.length ≤ kPending) :
    (c.answer q).1.pending.length = min kPending (c.pending.length + c.frames q) := by
  have hprepare := length_prepare (q := q) h
  have hanswer := answer_draft c q
  rw [frames]
  cases hd : c.draft q with
  | none =>
    rw [hd] at hanswer
    obtain ⟨b, b', heq⟩ := hanswer
    rw [heq]
    change (c.handled q).pending.length = _
    rw [pending_handled, hprepare]
    rfl
  | some d =>
    rw [hd] at hanswer
    obtain ⟨hsrc, close, b, heq⟩ := hanswer
    rw [heq]
    change (d.frameResponse q.head close).pending.length = _
    rw [length_frameResponse (by rw [pending_draft hd, hprepare]; exact Nat.min_le_left _ _) hsrc,
      pending_draft hd, hprepare,
      Option.isSome_some, if_pos rfl]
    omega

theorem length_tail (h : c.pending.length ≤ kPending) :
    ((c.opens tail.opened).errs tail.error).pending.length = min kPending
      (c.pending.length + tail.frames) := by
  have hopens : (c.opens tail.opened).pending.length =
      min kPending (c.pending.length + (tail.opened.map Req.interims).getD 0) := by
    cases tail.opened with
    | none => exact (Nat.min_eq_right h).symm
    | some q => exact length_prepare h
  rw [Tail.frames]
  cases tail.error with
  | none => exact hopens
  | some e =>
    change (((c.opens tail.opened).errorDraft e.2).frameResponse e.1 true).pending.length = _
    rw [length_frameResponse (s := (c.opens tail.opened).errorDraft e.2)
      (by change (c.opens tail.opened).pending.length ≤ _; omega) (Staging.source_errorDraft _ _)]
    change min kPending ((c.opens tail.opened).pending.length + 1) = _
    rw [hopens, Option.isSome_some, if_pos rfl]
    omega

/-- **The queue after a burst** has what was framed, as far as there are slots. -/
theorem length_burst (h : c.pending.length ≤ kPending) :
    (burst max c qs tail).pending.length = min kPending
      (c.pending.length + framed max c qs tail) := by
  induction qs generalizing max c with
  | nil => exact length_tail h
  | cons q qs ih =>
    have hanswer := length_answer (q := q) h
    rw [burst, framed]
    split_ifs
    · exact hanswer
    · rw [ih (by omega)]
      omega

theorem frames_le (c : Conn) (q : Req) : c.frames q ≤ 2 := by
  rw [frames, Req.interims]
  split_ifs <;> omega

/-- Two responses for each request that is answered, and for the tail of a round that could have
answered another. -/
theorem framed_le (max : ℕ) (c : Conn) (qs : List Req) (tail : Tail) : framed max c qs tail ≤ 2 *
    (max - 1) + 2 := by
  induction qs generalizing max c with
  | nil =>
    have := tail.frames_le
    rw [framed]
    omega
  | cons q qs ih =>
    have hq := frames_le c q
    rw [framed]
    split_ifs with hdone
    · omega
    · have := ih (max - 1) (c.answer q).1
      have : ¬ max ≤ 1 := fun hle => hdone (by simp [hle])
      omega

/-- **What the slots of a round suffice for**: every response framed in a burst has a slot exactly
when no more than 64 are framed, as always when `max_pipelined` is at most 32; and the vectors of
whatever is queued are all gathered. -/
theorem slotted_iff (hc : c.pending = []) (max : ℕ) (qs : List Req) (tail : Tail) :
    (Slotted max c qs tail ↔ framed max c qs tail ≤ kPending) ∧
      (max ≤ 32 → framed max c qs tail ≤ kPending) ∧
      ∀ ps, ps <:+: (burst max c qs tail).pending → ∀ s : Staging,
        s.buildIovecs 0 ps = ps.flatMap fun p => s.headVectors p ++ s.bodyVectors p := by
  have hlen : c.pending.length = 0 := by rw [hc, List.length_nil]
  have hburst : (burst max c qs tail).pending.length = min kPending
    (c.pending.length + framed max c qs tail) :=
    length_burst (hlen.trans_le (Nat.zero_le _))
  rw [hlen, Nat.zero_add] at hburst
  refine ⟨?_, fun hmax => ?_, fun ps hps s => ?_⟩
  · rw [Slotted, hburst, hlen, Nat.zero_add]
    exact min_eq_right_iff
  · have hle := framed_le max c qs tail
    rw [kPending]
    omega
  · have hle := hps.length_le
    rw [hburst, kPending] at hle
    exact s.buildIovecs_eq 0 ps (by rw [kMaxPendingIov]; omega)

/-- A small request that asks for an interim response. -/
def cautious : Req := { expectsContinue := true, ops := [.bodyStatic (ascii "x")] }

theorem slotted_iff_default : Slotted 32 start (List.replicate 33 cautious) {} := by
  obtain ⟨hiff, hle, -⟩ := slotted_iff (c := start) rfl 32 (List.replicate 33 cautious) {}
  exact hiff.2 (hle le_rfl)

/-- **A round that may answer one request more loses all of it**: the last final response finds no
slot, and although every buffer has room left the flush writes nothing. -/
theorem full_queue_loses :
    ¬ Slotted 33 start (List.replicate 33 cautious) {} ∧
      (burst 33 start (List.replicate 33 cautious) {}).headOut.size < start.headOut.cap ∧
      (burst 33 start (List.replicate 33 cautious) {}).flush.1.wire = [] := by
  refine ⟨?_, ?_, ?_⟩ <;> decide +kernel

end Conn

end Cornet.Http.Server
