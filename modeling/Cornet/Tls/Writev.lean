import Cornet.Machinery.Segments
import Cornet.Tls.Stream

/-!
# Tls/Writev — gathered writes (`transport_t::writev_all`, `tls_stream_t::writev`)

    segments   |── a ──|| |── b ──|──────── c ────────|
    writes     |───|────────|──|──────────|───────────|      any sizes the socket likes
    records    |──── 16 KiB ────|──── 16 KiB ────|────|      full ones, and a tail

Both loops take the segments apart at places of their own.  What was accepted is always a first part
of the concatenation, and all of it when the call returns without an error.
-/

namespace Cornet.Tls

open List

/-- Where a gathered write stands. -/
inductive Sent
  | waiting
  | done
  | failed (e : ℕ)
  deriving DecidableEq, Repr

/-! ## Short writes -/

def kConnReset : ℕ := 104

/-- `writev_all`, with the results of its writes: what they took, and how it ends.  A write that
returns `n` has taken the first `n` bytes it was given. -/
def writevAll : List (Except ℕ ℕ) → List (List Byte) → List Byte × Sent
  | _, [] => ([], .done)
  | [], _ :: _ => ([], .waiting)
  | .error e :: _, _ :: _ => ([], .failed e)
  | .ok n :: results, iov@(_ :: _) =>
    if n = 0 then ([], .failed kConnReset)
    else
      let rest := writevAll results (Segments.left n iov)
      (iov.flatten.take n ++ rest.1, rest.2)

variable {iov : List (List Byte)} {ws : List ℕ}

/-- One write. -/
theorem writevAll_cons {n : ℕ} (hn : 1 ≤ n) (hiov : iov ≠ []) (results : List (Except ℕ ℕ)) :
    ∃ iov', iov'.flatten = iov.flatten.drop n ∧ (iov'.flatten = [] → iov' = []) ∧
      writevAll (.ok n :: results) iov =
        (iov.flatten.take n ++ (writevAll results iov').1, (writevAll results iov').2) := by
  obtain ⟨s, rest, rfl⟩ := exists_cons_of_ne_nil hiov
  refine ⟨Segments.left n (s :: rest), Segments.flatten_left .., Segments.left_eq_nil, ?_⟩
  rw [writevAll, if_neg (by omega)]

/-- **Some writes**, short of all there is. -/
theorem writevAll_append (results : List (Except ℕ ℕ)) : ∀ (ws : List ℕ) (iov : List (List Byte)),
    (∀ w ∈ ws, 1 ≤ w) → ws.sum < iov.flatten.length →
    ∃ iov', iov'.flatten = iov.flatten.drop ws.sum ∧ iov' ≠ [] ∧
      writevAll (ws.map .ok ++ results) iov =
        (iov.flatten.take ws.sum ++ (writevAll results iov').1, (writevAll results iov').2)
  | [], iov, _, hlt => ⟨iov, rfl, by rintro rfl; simp at hlt, rfl⟩
  | w :: ws, iov, hpos, hlt => by
      rw [sum_cons] at hlt
      have hiov : iov ≠ [] := by
        rintro rfl
        simp at hlt
      obtain ⟨iov₁, hflat₁, -, heq₁⟩ :=
        writevAll_cons (hpos w mem_cons_self) hiov (ws.map .ok ++ results)
      obtain ⟨iov', hflat', hne, heq'⟩ := writevAll_append results ws iov₁
        (fun x hx => hpos x (mem_cons_of_mem _ hx)) (by rw [hflat₁, length_drop]; omega)
      refine ⟨iov', by rw [hflat', hflat₁, drop_drop, sum_cons], hne, ?_⟩
      rw [map_cons, cons_append, heq₁, heq', hflat₁, sum_cons, take_add, append_assoc]

/-- **`writev_all`.**  Writes that each take some of what is left are at most as many as there are
bytes; they have taken what they say, in order, and the call returns when that is everything.  A
write that fails or takes nothing before that ends it with an error. -/
theorem writevAll_sends (iov : List (List Byte)) (htotal : 0 < iov.flatten.length) (ws : List ℕ)
    (hpos : ∀ w ∈ ws, 1 ≤ w) (hsum : ws.sum ≤ iov.flatten.length) :
    ws.length ≤ iov.flatten.length ∧
      (ws.sum = iov.flatten.length → ∀ more,
        writevAll (ws.map .ok ++ more) iov = (iov.flatten, .done)) ∧
      (ws.sum < iov.flatten.length →
        writevAll (ws.map .ok) iov = (iov.flatten.take ws.sum, .waiting) ∧
        (∀ e more, writevAll (ws.map .ok ++ .error e :: more)
          iov = (iov.flatten.take ws.sum, .failed e)) ∧
        ∀ more, writevAll (ws.map .ok ++ .ok 0 :: more)
          iov = (iov.flatten.take ws.sum, .failed kConnReset)) := by
  refine ⟨(length_le_sum_of_one_le ws hpos).trans hsum, fun hall more => ?_, fun hlt => ?_⟩
  · -- the last write takes all that the ones before it left
    obtain ⟨init, w, rfl⟩ : ∃ init w, ws = init ++ [w] := by
      rcases eq_nil_or_concat' ws with rfl | h
      · rw [sum_nil] at hall
        omega
      · exact h
    have hw := hpos w (mem_append_right _ mem_cons_self)
    rw [sum_append, sum_singleton] at hall
    obtain ⟨iov₁, hflat₁, hne, heq₁⟩ := writevAll_append (.ok w :: more) init iov
      (fun x hx => hpos x (mem_append_left _ hx)) (by omega)
    obtain ⟨iov₂, hflat₂, hnil, heq₂⟩ := writevAll_cons hw hne more
    have hlen : iov₁.flatten.length = w := by
      rw [hflat₁, length_drop]
      omega
    obtain rfl := hnil (by rw [hflat₂, ← hlen, drop_length])
    rw [map_append, append_assoc, map_singleton, singleton_append, heq₁, heq₂, writevAll,
      append_nil, take_of_length_le hlen.le, hflat₁, take_append_drop]
  · have hcut (results : List (Except ℕ ℕ)) := writevAll_append results ws iov hpos hlt
    refine ⟨?_, fun e more => ?_, fun more => ?_⟩
    · obtain ⟨_ | ⟨s, iov'⟩, -, hne, heq⟩ := hcut []
      · exact absurd rfl hne
      · rw [append_nil] at heq
        rw [heq, writevAll, append_nil]
    · obtain ⟨_ | ⟨s, iov'⟩, -, hne, heq⟩ := hcut (.error e :: more)
      · exact absurd rfl hne
      · rw [heq, writevAll, append_nil]
    · obtain ⟨_ | ⟨s, iov'⟩, -, hne, heq⟩ := hcut (.ok 0 :: more)
      · exact absurd rfl hne
      · rw [heq, writevAll, if_pos rfl, append_nil]

theorem writevAll_sends_pieces :
    writevAll [.ok 1, .ok 2] [[], [97, 98], [], [99], []] = ([97, 98, 99], .done) :=
  (writevAll_sends [[], [97, 98], [], [99], []] (by decide) [1, 2] (by decide) (by decide)).2.1 rfl
    []

/-! ## Records -/

/-- What comes of one `engine_.write` of the staged record: the engine's step, and after a
`WantRead` or `WantWrite` whether `flush_output` and, with no output pending, `fill_input`
succeed. -/
inductive Attempt
  | done
  | wants (flushed : Bool) (filled : Option Bool)
  | closed
  | failed
  deriving DecidableEq, Repr

/-- How the attempts at one record end: it is accepted, given up, or there are no more of them. -/
inductive Sealed
  | accepted
  | refused
  | waiting
  deriving DecidableEq, Repr

/-- The loop around `flush_stage`, with the attempts that are left. -/
def sealRecord : List Attempt → Sealed × List Attempt
  | [] => (.waiting, [])
  | .done :: as => (.accepted, as)
  | .wants true none :: as | .wants true (some true) :: as => sealRecord as
  | _ :: as => (.refused, as)

/-- The locals of `writev`: the stage is never full between two slices. -/
structure Staging where
  attempts : List Attempt
  staged : { l : List Byte // l.length < kRecordPayload } := ⟨[], by decide⟩
  accepted : List (List Byte) := []

/-- The inner loop: one segment goes to the stage, a slice at a time. -/
def stageSegment (w : Staging) (left : List Byte) : Staging × Sealed :=
  if _hleft : left = [] then (w, .accepted)
  else
    let take := min left.length (kRecordPayload - w.staged.1.length)
    let staged := w.staged.1 ++ left.take take
    if hfull : staged.length < kRecordPayload then
      stageSegment { w with staged := ⟨staged, hfull⟩ } (left.drop take)
    else
      match sealRecord w.attempts with
      | (.accepted, as) =>
        stageSegment { attempts := as, accepted := w.accepted ++ [staged] } (left.drop take)
      | (r, as) => ({ w with attempts := as }, r)
termination_by left.length
decreasing_by
  all_goals
    have := length_pos_iff.mpr _hleft
    have := w.staged.2
    rw [length_drop]
    omega

/-- The loop over the segments. -/
def stageAll (w : Staging) : List (List Byte) → Staging × Sealed
  | [] => (w, .accepted)
  | s :: iov =>
    match stageSegment w s with
    | (w, .accepted) => stageAll w iov
    | stopped => stopped

/-- `tls_stream_t::writev`: the records the engine accepted, and how it ends; `flushed` is the last
`flush_output`, and a return carries the count. -/
def writev (attempts : List Attempt) (flushed : Bool) (iov : List (List Byte)) : List
    (List Byte) × Sealed × ℕ :=
  match stageAll { attempts := attempts } iov with
  | (w, .accepted) =>
    let tail := if w.staged.1 = [] then (Sealed.accepted, w.attempts) else sealRecord w.attempts
    if tail.1 = .accepted then
      (w.accepted ++ if w.staged.1 = [] then [] else [w.staged.1],
        if flushed then .accepted else .refused, iov.flatten.length)
    else (w.accepted, tail.1, 0)
  | (w, r) => (w.accepted, r, 0)

/-- Records that were made of `l`: whole and full, but for the last. -/
structure RecordsOf (l : List Byte) (records : List (List Byte)) : Prop where
  flatten_eq : records.flatten = l
  bounds : ∀ r ∈ records, 0 < r.length ∧ r.length ≤ kRecordPayload
  full : ∀ r ∈ records.dropLast, r.length = kRecordPayload

/-- How many records the attempts can still bring about. -/
def dones (as : List Attempt) : ℕ := as.count .done

theorem dones_sealRecord (as : List Attempt) :
    dones as = dones (sealRecord as).2 + (if (sealRecord as).1 = .accepted then 1 else 0) ∧
      ((sealRecord as).1 = .waiting → (sealRecord as).2 = []) := by
  fun_induction sealRecord as with
  | case1 => exact ⟨rfl, fun _ => rfl⟩
  | case2 => exact ⟨by simp [dones], by rintro ⟨⟩⟩
  | case3 as ih | case4 as ih => exact ⟨by simpa [dones] using ih.1, ih.2⟩
  | case5 a as h => exact ⟨by cases a <;> simp_all [dones], by rintro ⟨⟩⟩

/-- The stage after the first part `l` of the plaintext: full records only, and the attempts
accounted for. -/
structure Staging.Holds (w : Staging) (n : ℕ) (l : List Byte) : Prop where
  flatten_eq : w.accepted.flatten ++ w.staged.1 = l
  full : ∀ r ∈ w.accepted, r.length = kRecordPayload
  count_eq : n = w.accepted.length + dones w.attempts

/-- A loop over the stage stopped: with all of `l` taken, or at a record that was not accepted. -/
def Staged (n : ℕ) (l : List Byte) (res : Staging × Sealed) : Prop :=
  (res.2 = .accepted ∧ res.1.Holds n l) ∨
    res.2 ≠ .accepted ∧ (res.1.accepted.flatten <+: l ∧ res.1.accepted.flatten.length < l.length) ∧
      (∀ r ∈ res.1.accepted, r.length = kRecordPayload) ∧
      (res.2 = .waiting → n = res.1.accepted.length)

variable {w : Staging} {n : ℕ} {l : List Byte}

/-- Not accepted: what was before stays. -/
theorem Staging.Holds.stopped (h : w.Holds n l) {r : Sealed} {as : List Attempt}
    (hseal : sealRecord w.attempts = (r, as)) (hr : r ≠ .accepted) {m : List Byte}
    (hm : w.staged.1 ++ m ≠ []) : Staged n (l ++ m) ({ w with attempts := as }, r) := by
  have hdones := dones_sealRecord w.attempts
  rw [hseal] at hdones
  have hpos := length_pos_iff.mpr hm
  refine .inr ⟨hr, ⟨?_, ?_⟩, h.full, fun hwait => ?_⟩
  · rw [← h.flatten_eq, append_assoc]
    exact prefix_append _ _
  · rw [← h.flatten_eq, append_assoc, List.length_append]
    exact Nat.lt_add_of_pos_right hpos
  · have hnil : as = [] := hdones.2 hwait
    rw [h.count_eq, hdones.1, if_neg hr, hnil]
    rfl

/-- Accepted: one record more. -/
theorem Staging.Holds.sealed (h : w.Holds n l) {as : List Attempt}
    (hseal : sealRecord w.attempts = (.accepted, as))
    {m : List Byte} (hfull : (w.staged.1 ++ m).length = kRecordPayload) :
    Staging.Holds { attempts := as, accepted := w.accepted ++ [w.staged.1 ++ m] } n (l ++ m) := by
  have hdones : dones w.attempts = dones as + 1 := by
    have h := (dones_sealRecord w.attempts).1
    rwa [hseal, if_pos rfl] at h
  refine ⟨?_, fun r hr => ?_, ?_⟩
  · rw [← h.flatten_eq]
    simp
  · rcases mem_append.mp hr with hr | hr
    · exact h.full r hr
    · rw [mem_singleton.mp hr, hfull]
  · rw [h.count_eq, hdones, length_append, length_singleton]
    exact Nat.add_right_comm _ _ 1

/-- **One segment.** -/
theorem staged_stageSegment (n : ℕ) (w : Staging) (left : List Byte) :
    ∀ l, w.Holds n l → Staged n (l ++ left) (stageSegment w left) := by
  fun_induction stageSegment w left with
  | case1 w => exact fun l h => .inl ⟨rfl, by simpa using h⟩
  | case2 w left _ take staged _ ih =>
    intro l h
    have hrest := ih (l ++ left.take take)
      ⟨by rw [← h.flatten_eq, append_assoc], h.full, h.count_eq⟩
    rwa [append_assoc, take_append_drop] at hrest
  | case3 w left _ take staged hfull as hseal ih =>
    intro l h
    have hlen : staged.length = kRecordPayload := by
      have := w.staged.2
      simp only [staged, take, length_append, length_take, not_lt] at hfull ⊢
      omega
    have hrest := ih _ (h.sealed hseal hlen)
    rwa [append_assoc, take_append_drop] at hrest
  | case4 w left hleft take staged _ r as hr hseal =>
    exact fun l h => h.stopped hseal hr (append_ne_nil_of_right_ne_nil _ hleft)

/-- **The segments.** -/
theorem staged_stageAll : ∀ (iov : List (List Byte)) {w : Staging} {l : List Byte}, w.Holds n l →
    Staged n (l ++ iov.flatten) (stageAll w iov)
  | [], w, l, h => .inl ⟨rfl, by rw [flatten_nil, append_nil]; exact h⟩
  | s :: iov, w, l, h => by
      have hs := staged_stageSegment n w s l h
      rw [stageAll]
      rcases hres : stageSegment w s with ⟨w', r⟩
      rw [hres] at hs
      rcases hs with ⟨hr, hw⟩ | ⟨hr, hcut, hfull, hwait⟩
      · obtain rfl : r = .accepted := hr
        have ih := staged_stageAll iov hw
        rwa [append_assoc] at ih
      · have hmore : l ++ s <+: l ++ (s :: iov).flatten := by
          rw [flatten_cons, ← append_assoc]
          exact prefix_append _ _
        have hstop : Staged n (l ++ (s :: iov).flatten) (w', r) :=
          .inr ⟨hr, ⟨hcut.1.trans hmore, hcut.2.trans_le hmore.length_le⟩, hfull, hwait⟩
        cases r with
        | accepted => exact absurd rfl hr
        | refused | waiting => exact hstop

theorem recordsOf_full {records : List (List Byte)} (h : ∀ r ∈ records, r.length = kRecordPayload) :
    RecordsOf records.flatten records :=
  ⟨rfl, fun r hr => by rw [h r hr]; decide, fun r hr => h r (mem_of_mem_dropLast hr)⟩

/-- The tail record. -/
theorem recordsOf_tail (h : w.Holds n l) (hne : w.staged.1 ≠ []) : RecordsOf l
    (w.accepted ++ [w.staged.1]) := by
  refine ⟨by rw [← h.flatten_eq]; simp, fun r hr => ?_, fun r hr => h.full r ?_⟩
  · rcases mem_append.mp hr with hr | hr
    · exact (recordsOf_full h.full).bounds r hr
    · rw [mem_singleton.mp hr]
      exact ⟨length_pos_iff.mpr hne, w.staged.2.le⟩
  · rwa [dropLast_concat] at hr

/-- How a `writev` of `l` may end, whose engine would answer Done `n` times: with a count, and then
`l` has been accepted in records; or without, and then whole records of a first part of it have. -/
structure Ended (n : ℕ) (l : List Byte) (res : List (List Byte) × Sealed × ℕ) : Prop where
  success : res.2.1 = .accepted → RecordsOf l res.1 ∧ res.2.2 = l.length
  failure : res.2.1 ≠ .accepted → ∃ p, p <+: l ∧ RecordsOf p res.1 ∧
    (p ≠ l → ∀ r ∈ res.1, r.length = kRecordPayload)
  waiting : res.2.1 = .waiting → n = res.1.length ∧ res.1.flatten.length < l.length

theorem ended_whole {records : List (List Byte)} (h : RecordsOf l records) (flushed : Bool) :
    Ended n l (records, if flushed then .accepted else .refused, l.length) :=
  ⟨fun _ => ⟨h, rfl⟩, fun _ => ⟨l, prefix_rfl, h, absurd rfl⟩, by cases flushed <;> rintro ⟨⟩⟩

theorem ended_cut {res : Staging × Sealed} (h : Staged n l res) (hr : res.2 ≠ .accepted) :
    Ended n l (res.1.accepted, res.2, 0) := by
  rcases h with h | ⟨-, hcut, hfull, hwait⟩
  · exact absurd h.1 hr
  · exact ⟨fun h => absurd h hr, fun _ => ⟨_, hcut.1, recordsOf_full hfull, fun _ => hfull⟩,
      fun h => ⟨hwait h, hcut.2⟩⟩

theorem ended_writev (attempts : List Attempt) (flushed : Bool) (iov : List (List Byte)) :
    Ended (dones attempts) iov.flatten (writev attempts flushed iov) := by
  have hinit : Staging.Holds { attempts := attempts } (dones attempts) [] :=
    ⟨rfl, by rintro _ ⟨⟩, (Nat.zero_add _).symm⟩
  have hall := staged_stageAll iov hinit
  rw [nil_append] at hall
  rw [writev]
  rcases hres : stageAll { attempts := attempts } iov with ⟨w, r⟩
  rw [hres] at hall
  cases r with
  | refused | waiting => exact ended_cut hall (by rintro ⟨⟩)
  | accepted =>
    have hw := (hall.resolve_right fun h => h.1 rfl).2
    dsimp only at hw ⊢
    by_cases hnil : w.staged.1 = []
    · have hflat := hw.flatten_eq
      rw [hnil, append_nil] at hflat
      rw [if_pos hnil, if_pos rfl, if_pos hnil, append_nil]
      exact ended_whole (hflat ▸ recordsOf_full hw.full) flushed
    · rw [if_neg hnil, if_neg hnil]
      rcases hseal : sealRecord w.attempts with ⟨r, as⟩
      by_cases hr : r = .accepted
      · rw [if_pos hr]
        exact ended_whole (recordsOf_tail hw hnil) flushed
      · rw [if_neg hr]
        have hstopped := hw.stopped hseal hr (m := []) (by rwa [append_nil])
        rw [append_nil] at hstopped
        exact ended_cut hstopped hr

/-! ## Whether it ends well -/

/-- An attempt after which the record is accepted or tried again. -/
def Attempt.goesOn : Attempt → Bool
  | .done | .wants true none | .wants true (some true) => true
  | _ => false

theorem sealRecord_goesOn (as : List Attempt) (h : ∀ a ∈ as, a.goesOn = true) :
    (sealRecord as).1 ≠ .refused ∧ ∀ a ∈ (sealRecord as).2, a.goesOn = true := by
  fun_induction sealRecord as with
  | case1 => exact ⟨by rintro ⟨⟩, h⟩
  | case2 as => exact ⟨by rintro ⟨⟩, fun a ha => h a (mem_cons_of_mem _ ha)⟩
  | case3 as ih | case4 as ih => exact ih fun a ha => h a (mem_cons_of_mem _ ha)
  | case5 a as h₁ h₂ h₃ =>
    have ha := h a mem_cons_self
    cases a with
    | done => exact absurd rfl h₁
    | wants flushed filled =>
      cases flushed with
      | false => cases ha
      | true =>
        rcases filled with _ | _ | _
        · exact absurd rfl h₂
        · cases ha
        · exact absurd rfl h₃
    | closed | failed => cases ha

theorem stageSegment_goesOn (w : Staging) (left : List Byte)
    (h : ∀ a ∈ w.attempts, a.goesOn = true) :
    (stageSegment w left).2 ≠ .refused ∧ ∀ a ∈ (stageSegment w left).1.attempts,
      a.goesOn = true := by
  fun_induction stageSegment w left with
  | case1 w => exact ⟨by rintro ⟨⟩, h⟩
  | case2 w left _ take staged _ ih => exact ih h
  | case3 w left _ take staged _ as hseal ih =>
    refine ih ?_
    have has := (sealRecord_goesOn w.attempts h).2
    rwa [hseal] at has
  | case4 w left _ take staged _ r as _ hseal =>
    have has := sealRecord_goesOn w.attempts h
    rwa [hseal] at has

theorem stageAll_goesOn : ∀ (iov : List (List Byte)) (w : Staging),
    (∀ a ∈ w.attempts, a.goesOn = true) →
    (stageAll w iov).2 ≠ .refused ∧ ∀ a ∈ (stageAll w iov).1.attempts, a.goesOn = true
  | [], _, h => ⟨by rintro ⟨⟩, h⟩
  | s :: iov, w, h => by
      have hs := stageSegment_goesOn w s h
      rw [stageAll]
      rcases hres : stageSegment w s with ⟨w', r⟩
      rw [hres] at hs
      cases r with
      | accepted => exact stageAll_goesOn iov w' hs.2
      | refused => exact absurd rfl hs.1
      | waiting => exact hs

/-- With attempts that go on, nothing is refused. -/
theorem writev_goesOn {attempts : List Attempt} (h : ∀ a ∈ attempts, a.goesOn = true)
    (iov : List (List Byte)) : (writev attempts true iov).2.1 ≠ .refused := by
  have hall := stageAll_goesOn iov { attempts := attempts } h
  rw [writev]
  rcases hres : stageAll { attempts := attempts } iov with ⟨w, r⟩
  rw [hres] at hall
  cases r with
  | refused => exact absurd rfl hall.1
  | waiting => rintro ⟨⟩
  | accepted =>
    dsimp only
    have htail := (sealRecord_goesOn w.attempts hall.2).1
    by_cases hnil : w.staged.1 = []
    · rw [if_pos hnil, if_pos rfl]
      rintro ⟨⟩
    · rw [if_neg hnil]
      by_cases hr : (sealRecord w.attempts).1 = .accepted
      · rw [if_pos hr]
        rintro ⟨⟩
      · rw [if_neg hr]
        exact htail

/-- With an engine that answers Done often enough, it does not wait for ever. -/
theorem Ended.not_waiting {res : List (List Byte) × Sealed × ℕ} (h : Ended n l res)
    (henough : l.length ≤ n * kRecordPayload) : res.2.1 ≠ .waiting := by
  intro hwait
  obtain ⟨hn, hlt⟩ := h.waiting hwait
  obtain ⟨p, -, hp, hfull⟩ := h.failure (by rw [hwait]; rintro ⟨⟩)
  have hne : p ≠ l := by
    rintro rfl
    rw [hp.flatten_eq] at hlt
    exact lt_irrefl _ hlt
  have hlen : res.1.flatten.length = n * kRecordPayload := by
    rw [length_flatten, map_congr_left (hfull hne), map_const', sum_replicate, smul_eq_mul, hn]
  omega

/-- **`tls_stream_t::writev`.**  When it returns a count, the engine has accepted the concatenation
of the segments in records that are full but for the last, and the count is its length.  Otherwise
it has accepted whole records of a first part of it; and it still waits only as long as the engine
has not answered Done once more.  It does return a count if no attempt ends it, the last flush
succeeds and the engine answers Done for as many records as the bytes fill. -/
theorem writev_records (attempts : List Attempt) (flushed : Bool) (iov : List (List Byte)) :
    Ended (dones attempts) iov.flatten (writev attempts flushed iov) ∧
      ((∀ a ∈ attempts, a.goesOn = true) → flushed = true →
        iov.flatten.length ≤ dones attempts * kRecordPayload →
          (writev attempts flushed iov).2.1 = .accepted) := by
  refine ⟨ended_writev attempts flushed iov, ?_⟩
  rintro hgo rfl henough
  have hrefused := writev_goesOn hgo iov
  have hwaiting := (ended_writev attempts true iov).not_waiting henough
  cases hres : (writev attempts true iov).2.1 with
  | accepted => rfl
  | refused => exact absurd hres hrefused
  | waiting => exact absurd hres hwaiting

/-- Two segments whose bytes meet in the first record; the engine wants output flushed before it
takes that one, and input before it takes the other. -/
theorem writev_records_retried :
    let res := writev [.wants true none, .done, .wants true (some true), .done] true
      [replicate 16380 97, replicate 10 98]
    res.2 = (.accepted, 16390) ∧ RecordsOf (replicate 16380 97 ++ replicate 10 98) res.1 := by
  obtain ⟨hended, hok⟩ :=
    writev_records [.wants true none, .done, .wants true (some true), .done] true
    [replicate 16380 97, replicate 10 98]
  have hlen : [replicate 16380 (97 : Byte), replicate 10 98].flatten.length = 16390 := by
    simp only [flatten_cons, flatten_nil, length_append, length_replicate, length_nil]
  have haccepted := hok (by decide) rfl (by rw [hlen]; decide)
  obtain ⟨hrecords, hcount⟩ := hended.success haccepted
  exact ⟨Prod.ext haccepted (hcount.trans hlen), hrecords⟩

end Cornet.Tls
