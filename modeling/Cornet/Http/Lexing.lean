import Cornet.Http.Parser

/-!
# Http/Lexing — what one call of llhttp can do

    input = i₁ … iⱼ | iⱼ₊₁ …        Upto:  quiet items and a part of one are behind, nothing that stops

Three things are said once here, and everything about windows, pauses and messages is derived from
them: what a call leaves alone (`Kept`), how far it gets (`lex_pos`), and why it came back
(`lex_spec`).
-/

namespace Cornet.Http

open List

/-! ## Items -/

namespace Item

variable {i : Item} {n : ℕ}

/-- Bytes, or a call that answers "go on". -/
def quiet : Item → Bool
  | raw _ => true
  | run _ _ => true
  | call c => c.peeks
  | closed => false
  | bad _ => false

@[simp] theorem bytes_drop : (i.drop n).bytes = i.bytes.drop n := by
  cases i <;> simp [drop, bytes]

theorem length_le_of_endsIn (h : i.endsIn n = true) : i.bytes.length ≤ n := by
  cases i <;> simp_all [endsIn]

/-- What does not end in the window is cut by it, or ends with the connection. -/
theorem lt_length_of_not_endsIn (h : ¬ i.endsIn n = true) : i = closed ∨ n < i.bytes.length := by
  cases i <;> simp_all [endsIn]

end Item

@[simp] theorem bytesOf_nil : bytesOf [] = [] := rfl

@[simp] theorem bytesOf_cons (i : Item) (l : List Item) : bytesOf (i :: l) = i.bytes ++ bytesOf l :=
  rfl

@[simp] theorem bytesOf_append (l₁ l₂ : List Item) : bytesOf (l₁ ++ l₂) = bytesOf l₁ ++
    bytesOf l₂ :=
  flatMap_append

/-- `rest` is what is left of `l` when quiet items, and a part of one, are behind. -/
inductive Upto : List Item → List Item → Prop
  | refl (l : List Item) : Upto l l
  | part (i : Item) (l : List Item) (n : ℕ) : Upto (i :: l) (i.drop n :: l)
  | skip {i : Item} {l rest : List Item} : i.quiet = true → Upto l rest → Upto (i :: l) rest

namespace Parser

variable {p q q' : Parser} {pos n : ℕ} {items : List Item}

/-! ## What a call leaves alone -/

/-- `q` is `p` further on in the stream: the same parser over the same bytes. -/
structure Kept (p q : Parser) : Prop where
  limits_eq : q.limits = p.limits
  response_eq : q.response = p.response
  responseTo_eq : q.responseTo = p.responseTo
  sink_eq : q.sink = p.sink
  feedEnd_eq : q.feedEnd = p.feedEnd
  zeroFed_eq : q.zeroFed = p.zeroFed
  head_eq : q.io.head = { p.io.head with parsing := q.io.head.parsing }

theorem Kept.refl (p : Parser) : Kept p p := ⟨rfl, rfl, rfl, rfl, rfl, rfl, rfl⟩

theorem Kept.trans (h : Kept p q) (h' : Kept q q') : Kept p q' where
  limits_eq := h'.limits_eq.trans h.limits_eq
  response_eq := h'.response_eq.trans h.response_eq
  responseTo_eq := h'.responseTo_eq.trans h.responseTo_eq
  sink_eq := h'.sink_eq.trans h.sink_eq
  feedEnd_eq := h'.feedEnd_eq.trans h.feedEnd_eq
  zeroFed_eq := h'.zeroFed_eq.trans h.zeroFed_eq
  head_eq := by rw [h'.head_eq, h.head_eq]

/-- The bytes stay where they are. -/
theorem Kept.view_eq (h : Kept p q) (off len : ℕ) : q.io.head.view off len = p.io.head.view off
    len := by
  rw [h.head_eq]
  rfl

/-- Nothing has been signalled, and the message still speaks HTTP. -/
structure Idle (p : Parser) : Prop where
  headersSignal_eq : p.headersSignal = false
  messageDone_eq : p.messageDone = false
  upgraded_eq : p.upgraded = false

/-- `q` is `p` after a callback that signals nothing and learns nothing about the message. -/
structure Passed (p q : Parser) : Prop extends Kept p q where
  past_eq : q.past = p.past
  idle : Idle p → Idle q
  facts_eq : q.facts = p.facts
  framing_eq : q.hasContentLength = p.hasContentLength ∧ q.chunked = p.chunked

theorem Passed.refl (p : Parser) : Passed p p := ⟨.refl p, rfl, id, rfl, rfl, rfl⟩

theorem Passed.trans (h : Passed p q) (h' : Passed q q') : Passed p q' :=
  ⟨h.toKept.trans h'.toKept, h'.past_eq.trans h.past_eq, h'.idle ∘ h.idle,
    h'.facts_eq.trans h.facts_eq,
    h'.framing_eq.1.trans h.framing_eq.1, h'.framing_eq.2.trans h.framing_eq.2⟩

/-- Only what no field of `Passed` speaks of was written. -/
theorem Passed.of_eq {io : Inbound} (hio : io.head = p.io.head) {pending : HeaderRef}
    {pendingValid skipTrailer bodyPaused : Bool} {target : Ref} {bodyReceived runOff runLen : ℕ}
    {error : Option ReadError} :
    Passed p
      { p with
        io := io, pending := pending, pendingValid := pendingValid
        skipTrailer := skipTrailer, bodyPaused := bodyPaused, target := target
        bodyReceived := bodyReceived, runOff := runOff, runLen := runLen, error := error } :=
  ⟨⟨rfl, rfl, rfl, rfl, rfl, rfl, by change io.head = _; rw [hio]⟩, rfl, fun h => ⟨h.1, h.2, h.3⟩,
    rfl, rfl, rfl⟩

theorem passed_onUrl : Passed p (p.onUrl pos n).1 := by
  rw [onUrl]
  split <;> exact .of_eq (by rfl)

theorem passed_refuse (e : ReadError) : Passed p (p.refuse e).1 := by
  rw [refuse]
  split <;> exact .of_eq (by rfl)

theorem passed_onHeaderField : Passed p (p.onHeaderField pos n).1 := by
  rw [onHeaderField]
  split
  · exact .refl p
  · split
    · exact .of_eq (by rfl)
    · exact passed_refuse _

theorem passed_onHeaderFieldComplete : Passed p p.onHeaderFieldComplete := by
  rw [onHeaderFieldComplete]
  split <;> exact .of_eq (by rfl)

theorem passed_onHeaderValue : Passed p (p.onHeaderValue pos n).1 := by
  rw [onHeaderValue]
  split
  · exact .refl p
  · split
    · exact .of_eq (by rfl)
    · exact passed_refuse _

theorem head_add {io io' : Inbound} {h : HeaderRef} {m : ℕ} (hadd : io.add h m = some io') :
    io'.head = io.head := by
  rw [Inbound.add] at hadd
  split at hadd
  · cases hadd
  · rw [← Option.some.inj hadd]

theorem passed_finishHeader : Passed p p.finishHeader.1 := by
  rw [finishHeader]
  split
  · exact .refl p
  · dsimp only
    split
    · split
      · exact .of_eq (by rfl)
      · refine .of_eq ?_
        cases hadd : p.io.add p.pending p.limits.maxTrailers with
        | none => rfl
        | some io => exact head_add hadd
    · split
      · exact .of_eq (head_add ‹_›)
      · exact .of_eq (by rfl)

theorem passed_onBody : Passed p (p.onBody pos n).1 := by
  rw [onBody]
  dsimp only
  split
  · exact .of_eq (by rfl)
  · split
    · split <;> exact .of_eq (by rfl)
    · exact .of_eq (by rfl)

theorem passed_onRun (k : Span) (pos n : ℕ) : Passed p (p.onRun k pos n).1 := by
  cases k
  · exact passed_onUrl
  · exact passed_onHeaderField
  · exact passed_onHeaderValue
  · rw [onRun]
    split
    · exact passed_onBody
    · exact .refl p

theorem passed_onMessageBegin : Passed p p.onMessageBegin :=
  ⟨⟨rfl, rfl, rfl, rfl, rfl, rfl, rfl⟩, rfl, fun h => ⟨rfl, rfl, h.3⟩, rfl, rfl, rfl⟩

theorem passed_onCall {c : Call} (hc : c.peeks = true) : Passed p (p.onCall c).1 := by
  cases c with
  | messageBegin =>
    rw [onCall]
    split
    · exact .refl p
    · exact passed_onMessageBegin
  | fieldComplete => exact passed_onHeaderFieldComplete
  | valueComplete =>
    exact Passed.trans (q := { p with skipTrailer := false }) (.of_eq (by rfl)) passed_finishHeader
  | headersComplete | messageComplete => cases hc

theorem kept_onMessageComplete : Kept p p.onMessageComplete := ⟨rfl, rfl, rfl, rfl, rfl, rfl, rfl⟩

theorem kept_onHeadersComplete (f : Facts) : Kept p (p.onHeadersComplete f).1 := by
  rw [onHeadersComplete]
  split
  · exact ⟨rfl, rfl, rfl, rfl, rfl, rfl, rfl⟩
  · split <;> exact ⟨rfl, rfl, rfl, rfl, rfl, rfl, rfl⟩

theorem kept_onCall (c : Call) : Kept p (p.onCall c).1 := by
  cases hc : c.peeks with
  | true => exact (passed_onCall hc).toKept
  | false =>
    cases c with
    | headersComplete f =>
      have h := kept_onHeadersComplete (p := p) f
      rw [onCall]
      split
      · exact .refl p
      · split
        · rename_i q hq
          rw [hq] at h
          exact h.trans kept_onMessageComplete
        · exact h
    | messageComplete =>
      rw [onCall]
      split
      · exact kept_onMessageComplete
      · exact .refl p
    | _ => cases hc

theorem kept_onItem (pos n : ℕ) (i : Item) : Kept p (p.onItem pos n i).1 := by
  cases i with
  | raw l => exact .refl p
  | run k l => exact (passed_onRun k _ _).toKept
  | call c => exact kept_onCall c
  | closed =>
    rw [onItem]
    split
    · exact (passed_onRun .body _ _).toKept
    · exact .refl p
  | bad e => exact ⟨rfl, rfl, rfl, rfl, rfl, rfl, rfl⟩

theorem kept_stopAt (pos : ℕ) (rest : List Item) : Kept p (p.stopAt pos rest) :=
  ⟨rfl, rfl, rfl, rfl, rfl, rfl, rfl⟩

/-! ## The induction -/

/-- **The shape of a call**: items are eaten one by one until the window ends before one or inside
one, or a callback stops or gives up. -/
theorem lex_induct {motive : Parser → ℕ → ℕ → List Item → Parser × Stop → Prop}
    (nil : ∀ p pos n, motive p pos n [] (p.stopAt pos [], if n = 0 then .ok else .failed))
    (wait : ∀ p pos i rest, i.waits = true → motive p pos 0 (i :: rest)
      (p.stopAt pos (i :: rest), .ok))
    (eat : ∀ p pos n i rest q r, i.endsIn n = true → p.onItem pos i.bytes.length i = (q, .ok) →
      motive q (pos + i.bytes.length) (n - i.bytes.length) rest r → motive p pos n (i :: rest) r)
    (pause : ∀ p pos n i rest q, i.endsIn n = true → p.onItem pos i.bytes.length i = (q, .pause) →
      motive p pos n (i :: rest) (q.stopAt (pos + i.bytes.length) rest, .paused))
    (cut : ∀ p pos n i rest q, ¬ i.endsIn n = true → p.onItem pos n i = (q, .ok) →
      motive p pos n (i :: rest) (q.stopAt (pos + n) (i.drop n :: rest), .ok))
    (cutPause : ∀ p pos n i rest q, ¬ i.endsIn n = true → p.onItem pos n i = (q, .pause) →
      motive p pos n (i :: rest) (q.stopAt (pos + n) (i.drop n :: rest), .paused))
    (fail : ∀ p pos n i rest m, motive p pos n (i :: rest) ((p.onItem pos m i).1, .failed)) :
    ∀ (items : List Item) (p : Parser) (pos n : ℕ), motive p pos n items (p.lex pos n items)
  | [], p, pos, n => nil p pos n
  | i :: rest, p, pos, n => by
      rw [lex]
      split
      · rename_i h
        obtain ⟨rfl, hwait⟩ : n = 0 ∧ i.waits = true := by simpa using h
        exact wait p pos i rest hwait
      · split
        · rename_i hends
          split
          · rename_i q hq
            exact eat p pos n i rest q _ hends hq
              (lex_induct nil wait eat pause cut cutPause fail rest q _ _)
          · rename_i q hq
            exact pause p pos n i rest q hends hq
          · rename_i q _ _ _ hq
            have h := fail p pos n i rest i.bytes.length
            rwa [hq] at h
        · rename_i hends
          split
          · rename_i q hq
            exact cut p pos n i rest q hends hq
          · rename_i q hq
            exact cutPause p pos n i rest q hends hq
          · rename_i q _ _ _ hq
            have h := fail p pos n i rest n
            rwa [hq] at h

theorem kept_of_onItem {i : Item} {ret : Ret} (h : p.onItem pos n i = (q, ret)) : Kept p q := by
  have := kept_onItem (p := p) pos n i
  rwa [h] at this

/-- **A call moves no byte of the head buffer**, nor the end of the window. -/
theorem kept_lex (p : Parser) (pos n : ℕ) (items : List Item) : Kept p (p.lex pos n items).1 := by
  refine lex_induct (motive := fun p _ _ _ r => Kept p r.1) ?_ ?_ ?_ ?_ ?_ ?_ ?_ items p pos n
  · exact fun p pos n => kept_stopAt pos []
  · exact fun p pos i rest _ => kept_stopAt _ _
  · exact fun p pos n i rest q r _ hq ih => (kept_of_onItem hq).trans ih
  · exact fun p pos n i rest q _ hq => (kept_of_onItem hq).trans (kept_stopAt _ _)
  · exact fun p pos n i rest q _ hq => (kept_of_onItem hq).trans (kept_stopAt _ _)
  · exact fun p pos n i rest q _ hq => (kept_of_onItem hq).trans (kept_stopAt _ _)
  · exact fun p pos n i rest m => kept_onItem pos m i

/-! ## How far it gets -/

/-- What a call that did not fail has eaten: the first bytes of the stream, up to where it stopped;
all of the window, unless it paused. -/
def Ate (pos n : ℕ) (items : List Item) (r : Parser × Stop) : Prop :=
  r.2 ≠ .failed → ∃ l, bytesOf items = l ++ bytesOf r.1.input ∧ r.1.feedPos = pos + l.length ∧
    l.length ≤ n ∧ (r.2 = .ok → l.length = n)

theorem ate_cut {i : Item} {rest : List Item} {stop : Stop} (hends : ¬ i.endsIn n = true)
    (hclosed : i = .closed → n = 0) :
    Ate pos n (i :: rest) (q.stopAt (pos + n) (i.drop n :: rest), stop) := by
  intro _
  have hlen : (i.bytes.take n).length = n := by
    rcases Item.lt_length_of_not_endsIn hends with rfl | h
    · obtain rfl := hclosed rfl
      rfl
    · rw [length_take]
      omega
  refine ⟨i.bytes.take n, ?_, ?_, hlen.le, fun _ => hlen⟩
  · change bytesOf (i :: rest) = i.bytes.take n ++ bytesOf (i.drop n :: rest)
    rw [bytesOf_cons, bytesOf_cons, Item.bytes_drop, ← append_assoc, take_append_drop]
  · change pos + n = _
    rw [hlen]

/-- Only an empty window may stand at the end of the connection. -/
theorem eq_zero_of_closed {i : Item} {ret : Ret} (h : p.onItem pos n i = (q, ret))
    (hret : ret ≠ .fail) :
    i = .closed → n = 0 := by
  rintro rfl
  by_contra hn
  rw [onItem, if_neg hn] at h
  exact hret (Prod.mk.inj h).2.symm

/-- **How far a call gets.** -/
theorem ate_lex (p : Parser) (pos n : ℕ) (items : List Item) : Ate pos n items
    (p.lex pos n items) := by
  refine lex_induct (motive := fun _ pos n items r => Ate pos n items r) ?_ ?_ ?_ ?_ ?_ ?_ ?_ items
    p pos n
  · intro p pos n hok
    have hn : n = 0 := by
      by_contra h
      exact hok (if_neg h)
    exact ⟨[], rfl, rfl, Nat.zero_le n, fun _ => hn.symm⟩
  · exact fun p pos i rest _ _ => ⟨[], rfl, rfl, le_rfl, fun _ => rfl⟩
  · intro p pos n i rest q r hends _ ih hok
    have hle := Item.length_le_of_endsIn hends
    obtain ⟨l, hl, hpos, hlen, hall⟩ := ih hok
    refine ⟨i.bytes ++ l, ?_, ?_, ?_, fun h => ?_⟩
    · rw [bytesOf_cons, hl, append_assoc]
    · rw [hpos, length_append, Nat.add_assoc]
    · rw [length_append]
      omega
    · have := hall h
      rw [length_append]
      omega
  · intro p pos n i rest q hends _ _
    exact ⟨i.bytes, rfl, rfl, Item.length_le_of_endsIn hends, nofun⟩
  · exact fun p pos n i rest q hends hq => ate_cut hends (eq_zero_of_closed hq nofun)
  · exact fun p pos n i rest q hends hq => ate_cut hends (eq_zero_of_closed hq nofun)
  · exact fun p pos n i rest m h => absurd rfl h

/-! ## Why it came back -/

/-- The parser at the end of a header section it accepts: stopped there, or past the whole
message. -/
def headed (p : Parser) (f : Facts) : Parser :=
  let q := { p.noteHead f with headersSignal := true }
  if (p.noteHead f).headersEndMessage then q.onMessageComplete else q

theorem onCall_headersComplete (p : Parser) (f : Facts) :
    (∃ q, p.onCall (.headersComplete f) = (q, .fail)) ∨
      (p.past = false ∧ p.onCall (.headersComplete f) = (p.headed f, .pause)) := by
  rw [onCall]
  by_cases hpast : p.past = true
  · rw [if_pos hpast]
    exact .inl ⟨_, rfl⟩
  rw [if_neg hpast, onHeadersComplete, headed]
  by_cases hhost : (p.noteHead f).hostRefused = true
  · rw [if_pos hhost]
    exact .inl ⟨_, rfl⟩
  · rw [if_neg hhost]
    by_cases hlen : ((p.noteHead f).hasContentLength &&
        decide ((p.noteHead f).limits.maxBodyBytes < (p.noteHead f).facts.contentLength)) = true
    · rw [if_pos hlen]
      exact .inl ⟨_, rfl⟩
    · rw [if_neg hlen]
      by_cases hend : (p.noteHead f).headersEndMessage = true
      · rw [if_pos hend, if_pos hend]
        exact .inr ⟨by simpa using hpast, rfl⟩
      · rw [if_neg hend, if_neg hend]
        exact .inr ⟨by simpa using hpast, rfl⟩

/-- What a callback that answers "go on" was about. -/
theorem passed_of_onItem {i : Item} (h : p.onItem pos n i = (q, .ok)) :
    Passed p q ∧ (i.quiet = true ∨ i = .closed) := by
  cases i with
  | raw l =>
    obtain rfl := (Prod.mk.inj h).1
    exact ⟨.refl p, .inl rfl⟩
  | run k l =>
    have hp := passed_onRun (p := p) k pos n
    rw [show p.onRun k pos n = (q, .ok) from h] at hp
    exact ⟨hp, .inl rfl⟩
  | call c =>
    cases hc : c.peeks with
    | true =>
      have hp := passed_onCall (p := p) hc
      rw [show p.onCall c = (q, .ok) from h] at hp
      exact ⟨hp, .inl hc⟩
    | false =>
      cases c with
      | headersComplete f =>
        rw [onItem] at h
        rcases onCall_headersComplete p f with ⟨q', hq⟩ | ⟨-, hq⟩
        · cases hq.symm.trans h
        · cases hq.symm.trans h
      | messageComplete =>
        rw [onItem, onCall] at h
        split at h <;> cases h
      | _ => cases hc
  | closed =>
    have hp := passed_onRun (p := p) .body pos 0
    rw [onItem] at h
    split at h
    · rw [h] at hp
      exact ⟨hp, .inr rfl⟩
    · cases h
  | bad e => cases h

/-- What a callback that stops was about: a run of a streamed body, a header section, or a
message. -/
inductive Halted (p : Parser) (pos n : ℕ) : Item → Parser → Prop
  | body {i : Item} {m : ℕ} :
      i.quiet = true ∨ i = .closed → p.past = true → p.sink = false → m ≤ n →
      p.bodyReceived + m ≤ p.limits.maxBodyBytes →
      Halted p pos n i
        { p with bodyReceived := p.bodyReceived + m, runOff := pos, runLen := m,
                 bodyPaused := true }
  | head (f : Facts) : p.past = false → Halted p pos n (.call (.headersComplete f)) (p.headed f)
  | message : p.past = true → Halted p pos n (.call .messageComplete) p.onMessageComplete

theorem onRun_ne_pause {k : Span} (hk : k ≠ .body) : (p.onRun k pos n).2 ≠ .pause := by
  cases k with
  | url =>
    rw [onRun, onUrl]
    split <;> nofun
  | field =>
    rw [onRun, onHeaderField]
    split
    · nofun
    · split
      · nofun
      · rw [refuse]
        split <;> nofun
  | value =>
    rw [onRun, onHeaderValue]
    split
    · nofun
    · split
      · nofun
      · rw [refuse]
        split <;> nofun
  | body => exact absurd rfl hk

theorem onBody_pause (h : p.onBody pos n = (q, .pause)) :
    p.sink = false ∧ p.bodyReceived + n ≤ p.limits.maxBodyBytes ∧
      q = { p with bodyReceived := p.bodyReceived + n, runOff := pos, runLen := n,
                   bodyPaused := true } := by
  rw [onBody] at h
  dsimp only at h
  split at h
  · cases h
  · rename_i hle
    split at h
    · split at h <;> cases h
    · rename_i hsink
      exact ⟨by simpa using hsink, not_lt.mp hle, (Prod.mk.inj h).1.symm⟩

theorem halted_of_onItem {i : Item} (h : p.onItem pos n i = (q, .pause)) : Halted p pos n i q := by
  cases i with
  | raw | bad => cases h
  | run k l =>
    rw [onItem] at h
    by_cases hk : k = .body
    · subst hk
      rw [onRun] at h
      split at h
      · obtain ⟨hsink, hle, rfl⟩ := onBody_pause h
        exact .body (.inl rfl) ‹_› hsink le_rfl hle
      · cases h
    · exact absurd (congrArg Prod.snd h) (onRun_ne_pause hk)
  | call c =>
    rw [onItem] at h
    cases c with
    | messageBegin =>
      rw [onCall] at h
      split at h <;> cases h
    | fieldComplete => cases h
    | valueComplete =>
      rw [onCall, onHeaderValueComplete, finishHeader] at h
      split at h
      · cases h
      · dsimp only at h
        split at h
        · split at h <;> cases h
        · split at h <;> cases h
    | headersComplete f =>
      rcases onCall_headersComplete p f with ⟨q', hq⟩ | ⟨hpast, hq⟩
      · cases hq.symm.trans h
      · obtain rfl := (Prod.mk.inj (hq.symm.trans h)).1
        exact .head f hpast
    | messageComplete =>
      rw [onCall] at h
      split at h
      · obtain rfl := (Prod.mk.inj h).1
        exact .message ‹_›
      · cases h
  | closed =>
    rw [onItem] at h
    split at h
    · rw [onRun] at h
      split at h
      · obtain ⟨hsink, hle, rfl⟩ := onBody_pause h
        exact .body (.inr rfl) ‹_› hsink (Nat.zero_le n) hle
      · cases h
    · cases h

/-- **Why a call came back**: the window was used up, or some parser further on in the same message
was stopped at an item. -/
inductive Came (p : Parser) (items : List Item) : Parser × Stop → Prop
  | dry {q : Parser} : Upto items q.input → Passed p q → Came p items (q, .ok)
  | body {q : Parser} :
      Upto items q.input → Passed p q → q.past = true → q.sink = false → q.bodyPaused = true →
      Came p items (q, .paused)
  | head {q : Parser} (f : Facts) (pos : ℕ) (rest : List Item) :
      Upto items (.call (.headersComplete f) :: rest) → Passed p q → p.past = false →
      Came p items ((q.headed f).stopAt pos rest, .paused)
  | message {q : Parser} (pos : ℕ) (rest : List Item) :
      Upto items (.call .messageComplete :: rest) → Passed p q → p.past = true →
      Came p items (q.onMessageComplete.stopAt pos rest, .paused)
  | failed {q : Parser} : Came p items (q, .failed)

theorem Came.skip {i : Item} {r : Parser × Stop} (hi : i.quiet = true) (hp : Passed p q)
    (h : Came q items r) : Came p (i :: items) r := by
  cases h with
  | dry hu hq => exact .dry (.skip hi hu) (hp.trans hq)
  | body hu hq h₁ h₂ h₃ => exact .body (.skip hi hu) (hp.trans hq) h₁ h₂ h₃
  | head f pos rest hu hq hpast =>
    exact .head f pos rest (.skip hi hu) (hp.trans hq) (hp.past_eq.symm.trans hpast)
  | message pos rest hu hq hpast =>
    exact .message pos rest (.skip hi hu) (hp.trans hq) (hp.past_eq.symm.trans hpast)
  | failed => exact .failed

theorem passed_stopAt (p : Parser) (pos : ℕ) (rest : List Item) : Passed p (p.stopAt pos rest) :=
  ⟨kept_stopAt pos rest, rfl, fun h => ⟨h.1, h.2, h.3⟩, rfl, rfl, rfl⟩

/-- A pause, with what is left of the item it was about. -/
theorem Halted.came {i : Item} {left rest : List Item} (h : Halted p pos n i q)
    (hpart : i.quiet = true ∨ i = .closed → Upto (i :: rest) left)
      (hcall : ∀ c, i = .call c → left = rest)
    (pos' : ℕ) : Came p (i :: rest) (q.stopAt pos' left, .paused) := by
  cases h with
  | body hi hpast hsink _ _ =>
    exact .body (hpart hi) ((Passed.of_eq (by rfl)).trans (passed_stopAt _ _ _)) hpast hsink rfl
  | head f hpast =>
    obtain rfl := hcall _ rfl
    exact .head f pos' _ (.refl _) (.refl p) hpast
  | message hpast =>
    obtain rfl := hcall _ rfl
    exact .message pos' _ (.refl _) (.refl p) hpast

theorem not_closed_of_endsIn {i : Item} (h : i.endsIn n = true)
    (hi : i.quiet = true ∨ i = .closed) :
    i.quiet = true := by
  rcases hi with hi | rfl
  · exact hi
  · cases h

theorem came_lex (p : Parser) (pos n : ℕ) (items : List Item) : Came p items
    (p.lex pos n items) := by
  refine lex_induct (motive := fun p _ _ items r => Came p items r) ?_ ?_ ?_ ?_ ?_ ?_ ?_ items p pos
    n
  · intro p pos n
    split
    · exact .dry (.refl _) (passed_stopAt _ _ _)
    · exact .failed
  · exact fun p pos i rest _ => .dry (.refl _) (passed_stopAt _ _ _)
  · intro p pos n i rest q r hends hq ih
    obtain ⟨hp, hi⟩ := passed_of_onItem hq
    exact ih.skip (not_closed_of_endsIn hends hi) hp
  · intro p pos n i rest q hends hq
    exact (halted_of_onItem hq).came (fun hi => .skip (not_closed_of_endsIn hends hi) (.refl _))
      (fun _ _ => rfl) _
  · intro p pos n i rest q _ hq
    exact .dry (.part i rest n) ((passed_of_onItem hq).1.trans (passed_stopAt _ _ _))
  · intro p pos n i rest q hends hq
    refine (halted_of_onItem hq).came (fun _ => .part i rest n) ?_ _
    rintro c rfl
    exact absurd (decide_eq_true (Nat.zero_le n)) hends
  · exact fun p pos n i rest m => .failed

/-! ## One pump -/

/-- What a pump was: a window that had been handed over before, or a call of llhttp. -/
theorem pump_eq (hfed : p.Fed) (hup : p.upgraded = false) :
    (p.feedLen = 0 ∧ p.zeroFed = true ∧ p.pump = (p.stopped, .needMore)) ∨
      ((p.feedLen = 0 → p.zeroFed = false) ∧
        p.pump = classify (p.primed.lex p.feedPos p.feedLen p.input)) := by
  rw [pump]
  by_cases h : (p.feedLen = 0 && p.zeroFed) = true
  · obtain ⟨hlen, hzero⟩ : p.feedLen = 0 ∧ p.zeroFed = true := by simpa using h
    exact .inl ⟨hlen, hzero, if_pos h⟩
  · rw [if_neg h, if_neg (by rw [hup]; nofun), if_pos hfed]
    exact .inr ⟨fun hlen => by simpa [hlen] using h, rfl⟩

theorem facts_headed (f : Facts) : (p.headed f).facts = f := by
  rw [headed]
  split <;> rfl

theorem headersEndMessage_headed (f : Facts) :
    (p.headed f).headersEndMessage = (p.noteHead f).headersEndMessage := by
  rw [headed]
  split <;> rfl

theorem past_headed (f : Facts) : (p.headed f).past = !(p.headed f).headersEndMessage := by
  rw [headersEndMessage_headed, headed]
  split
  · rename_i h
    rw [h]
    rfl
  · rename_i h
    rw [Bool.not_eq_true] at h
    rw [h]
    rfl

theorem signals_headed (hp : Idle p) (f : Facts) :
    (p.headed f).headersSignal = true ∧
      (p.headed f).messageDone = (p.headed f).headersEndMessage := by
  rw [headersEndMessage_headed, headed]
  split
  · rename_i h
    exact ⟨rfl, h.symm⟩
  · rename_i h
    exact ⟨rfl, hp.2.trans (by simpa using h)⟩

theorem upgraded_headed (hp : Idle p) (f : Facts) :
    ((p.headed f).headersEndMessage = true → (p.headed f).upgraded = (p.headed f).facts.upgrade) ∧
      ((p.headed f).headersEndMessage = false → (p.headed f).upgraded = false) := by
  rw [headersEndMessage_headed, headed]
  split
  · rename_i h
    exact ⟨fun _ => rfl, fun h' => absurd (h.symm.trans h') nofun⟩
  · rename_i h
    exact ⟨fun h' => absurd h' h, fun _ => hp.3⟩

/-- **What a pump means.** -/
inductive Pumped (p : Parser) : Parser × Result → Prop
  | needMore {q : Parser} :
      Upto p.input q.input → q.facts = p.facts → q.past = p.past → q.upgraded = false →
      q.hasPendingInput = false → Pumped p (q, .needMore)
  | bodyPaused {q : Parser} :
      Upto p.input q.input → q.facts = p.facts → p.past = true → q.past = true →
        q.upgraded = false →
      q.sink = false → Pumped p (q, .bodyPaused)
  | headersReady {q : Parser} :
      Upto p.input (.call (.headersComplete q.facts) :: q.input) → q.headersEndMessage = false →
      p.past = false → q.past = true → q.upgraded = false → Pumped p (q, .headersReady)
  | headMessage {q : Parser} :
      Upto p.input (.call (.headersComplete q.facts) :: q.input) → q.headersEndMessage = true →
      p.past = false → q.past = false → q.upgraded = q.facts.upgrade → Pumped p (q, q.completed)
  | message {q : Parser} :
      Upto p.input (.call .messageComplete :: q.input) → q.facts = p.facts → p.past = true →
      q.past = false → q.upgraded = q.facts.upgrade → Pumped p (q, q.completed)
  | error {q : Parser} : Pumped p (q, .error)

theorem pumped_pump (hfed : p.Fed) (hup : p.upgraded = false) : Pumped p p.pump := by
  rcases pump_eq hfed hup with ⟨hlen, -, h⟩ | ⟨-, h⟩
  · rw [h]
    refine .needMore (.refl _) rfl rfl hup ?_
    exact decide_eq_false (Nat.not_lt.mpr (Nat.sub_eq_zero_iff_le.mp hlen))
  · rw [h]
    have hidle : Idle p.primed := ⟨rfl, rfl, hup⟩
    generalize hr : p.primed.lex p.feedPos p.feedLen p.input = r
    have hcame : Came p.primed p.input r := hr ▸ came_lex _ _ _ _
    cases hcame with
    | dry hu hp =>
      exact .needMore hu hp.facts_eq hp.past_eq (hp.idle hidle).3 (decide_eq_false (lt_irrefl _))
    | @body q hu hp hpast hsink hpaused =>
      have hq := hp.idle hidle
      simp only [classify, hq.2, hq.1, hpaused, Bool.false_eq_true, if_false, if_true]
      exact .bodyPaused hu hp.facts_eq (hp.past_eq.symm.trans hpast) hpast hq.3 hsink
    | @head q f pos rest hu hp hpast =>
      have hq := hp.idle hidle
      obtain ⟨hsig, hdone⟩ := signals_headed hq f
      have hfacts := facts_headed (p := q) f
      have hu' : Upto p.input (.call (.headersComplete (q.headed f).facts) :: rest) :=
        by rwa [hfacts]
      have hpast' := past_headed (p := q) f
      have hup' := upgraded_headed hq f
      cases hend : (q.headed f).headersEndMessage with
      | true =>
        rw [hend] at hpast'
        rw [classify, if_pos (show ((q.headed f).stopAt pos rest).messageDone = true
          from hdone.trans hend)]
        exact .headMessage hu' hend hpast hpast' (hup'.1 hend)
      | false =>
        have hne : ¬ ((q.headed f).stopAt pos rest).messageDone = true := by
          change ¬ (q.headed f).messageDone = true
          rw [hdone, hend]
          nofun
        rw [hend] at hpast'
        rw [classify, if_neg hne, if_pos (show ((q.headed f).stopAt pos rest).headersSignal = true
          from hsig)]
        exact .headersReady hu' hend hpast hpast' (hup'.2 hend)
    | message pos rest hu hp hpast => exact .message hu hp.facts_eq hpast rfl rfl
    | failed => exact .error

/-! ## The window -/

/-- A window that covers an item holds its bytes, and then the bytes of what follows. -/
theorem view_covers {b : HeadBuffer} {l tail : List Byte} (h : b.view pos n <+: l ++ tail)
    (hl : l.length ≤ n) : b.view pos l.length = l ∧ b.view (pos + l.length)
      (n - l.length) <+: tail := by
  obtain ⟨t, ht⟩ := h
  rw [show b.view pos n = _ from Mem.read_split b.mem pos hl, append_assoc] at ht
  have hlen : (b.mem.read pos l.length).length = l.length := Mem.length_read
  obtain ⟨hhead, htail⟩ := append_inj ht hlen
  exact ⟨hhead, ⟨t, htail⟩⟩

/-- A window that ends inside an item holds the first bytes of it. -/
theorem view_cut {b : HeadBuffer} {l tail : List Byte} (h : b.view pos n <+: l ++ tail)
    (hn : n < l.length) : b.view pos n = l.take n := by
  have hlen : (b.view pos n).length = n := Mem.length_read
  have := prefix_iff_eq_take.mp h
  rwa [hlen, take_append_of_le_length hn.le] at this

/-- What a pump leaves alone. -/
structure Steady (p q : Parser) : Prop where
  limits_eq : q.limits = p.limits
  response_eq : q.response = p.response
  responseTo_eq : q.responseTo = p.responseTo
  sink_eq : q.sink = p.sink
  feedEnd_eq : q.feedEnd = p.feedEnd
  head_eq : q.io.head = { p.io.head with parsing := q.io.head.parsing }

theorem steady_classify {r : Parser × Stop} (h : Kept p r.1) : Steady p (classify r).1 := by
  obtain ⟨h₁, h₂, h₃, h₄, h₅, h₆, h₇⟩ := h
  obtain ⟨q, stop⟩ := r
  cases stop with
  | ok | failed => exact ⟨h₁, h₂, h₃, h₄, h₅, h₇⟩
  | paused =>
    simp only [classify]
    split
    · refine ⟨h₁, h₂, h₃, h₄, h₅, ?_⟩
      dsimp only [stopped, endMessage, HeadBuffer.endMessage]
      rw [h₇]
    · split
      · exact ⟨h₁, h₂, h₃, h₄, h₅, h₇⟩
      · split <;> exact ⟨h₁, h₂, h₃, h₄, h₅, h₇⟩

theorem ne_failed_of_classify {r : Parser × Stop} (hok : (classify r).2 ≠ .error) : r.2 ≠
    .failed := by
  obtain ⟨q, stop⟩ := r
  rintro rfl
  exact hok rfl

theorem execute_eq (off len : ℕ) :
    p.execute off len = { p with feedPos := off, feedEnd := off + len, zeroFed := false }.pump :=
      rfl

end Parser

/-! ## What is left of a stream -/

theorem Upto.length_le {l rest : List Item} (h : Upto l rest) : rest.length ≤ l.length := by
  induction h with
  | refl | part => exact le_rfl
  | skip _ _ ih => exact ih.trans (Nat.le_succ _)

end Cornet.Http
