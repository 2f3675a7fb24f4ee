import Cornet.Http.Recording

/-!
# Http/Splitting — does it show how a header section was cut into windows?

    execute n₁ · execute n₂ · …  ──?──  execute (n₁ + n₂ + …)

The parser records what a sheet says, and a sheet does not see windows, as long as it takes no run
of 64 KiB before the header section ends or is refused.  So that is the condition under which the
parser reports the same message, or the same error, however the bytes are handed to it
(`faithful_of_short`); and if a longer run is taken there is a way to cut it that is answered with
`HeaderTooLarge`.
-/

namespace Cornet.Http

open List

/-! ## Outcomes -/

/-- The headers, in the order they came. -/
def Inbound.fields (io : Inbound) : List (List Byte × List Byte) :=
  (io.ofKind false).map fun h => (io.resolve h.name, io.resolve h.value)

/-- What the parser reports of a header section. -/
inductive Outcome
  | needMore
  | head (r : Result) (f : Facts) (target : List Byte) (fields : List (List Byte × List Byte))
  | error (e : Option ReadError)
  deriving DecidableEq, Repr

def Parser.outcome : Parser × Result → Outcome
  | (_, .needMore) => .needMore
  | (p, .error) => .error p.error
  | (p, r) => .head r p.facts p.targetText p.io.fields

/-- What a header section that is accepted is reported as. -/
def Gate.result (k : Gate) (f : Facts) : Result :=
  if k.response && (f.status.forbidsBody || k.responseTo == .head) then
    if f.upgrade then .upgrade else .messageReady
  else .headersReady

def Reading.outcome (k : Gate) : Reading → Outcome
  | .going _ => .needMore
  | .headed s f => .head (k.result f) f s.target.bytes s.fields
  | .failed e => .error (some e)

/-! ## Windows -/

/-- The bytes are handed over in windows of these lengths, until the parser has something to
report. -/
def Parser.feed (p : Parser) (off : ℕ) : List ℕ → Parser × Result
  | [] => (p, .needMore)
  | n :: ws =>
    match p.execute off n with
    | (q, .needMore) => q.feed (off + n) ws
    | r => r

/-- The same for a sheet. -/
def Sheet.feed (k : Gate) (s : Sheet) (items : List Item) : List ℕ → Reading
  | [] => .going s
  | n :: ws =>
    match s.lex k n items with
    | (.going s', rest) => s'.feed k rest ws
    | (r, _) => r

namespace Sheet

variable {k : Gate}

/-- A report that lies in the window. -/
theorem lex_next {s s' : Sheet} (i : Item) {rest : List Item} (a : ℕ) {m : ℕ}
    (hm : 0 < a + m) (hlen : i.bytes.length = a) (hstep : s.step k i = .going s')
    (hi : i ≠ .closed := by rintro ⟨⟩) :
    s.lex k (a + m) (i :: rest) = s'.lex k m rest := by
  rw [lex_eat (by omega) (Item.endsIn_of_le hi (by omega)), hstep, hlen, Nat.add_sub_cancel_left]

/-- What is left of a short header section is short. -/
theorem short_of_lex : ∀ {items : List Item} {s s' : Sheet} {n : ℕ} {rest : List Item},
    s.readsShort k items = true → s.lex k n items = (.going s', rest) → s'.readsShort k rest = true
  | [], s, s', n, rest, hshort, h => by
      rw [lex] at h
      obtain ⟨-, rfl⟩ := Prod.mk.inj h
      rfl
  | i :: items, s, s', n, rest, hshort, h => by
      by_cases hw : n = 0 ∧ i.waits = true
      · obtain ⟨rfl, hw⟩ := hw
        rw [lex_wait hw] at h
        obtain ⟨hs, rfl⟩ := Prod.mk.inj h
        exact Reading.going.inj hs ▸ hshort
      by_cases hends : i.endsIn n = true
      · rw [lex_eat hw hends] at h
        cases hstep : s.step k i with
        | going s₁ =>
          rw [hstep] at h
          rw [readsShort_cons hstep, Bool.and_eq_true] at hshort
          exact short_of_lex hshort.2 h
        | headed | failed =>
          rw [hstep] at h
          cases h
      · rw [lex_cut hw hends] at h
        rcases Item.lt_length_of_not_endsIn hends with rfl | hn
        · cases h
        have hcut := step_cut (k := k) (short_of_opens hshort) hn
        cases hstep : s.step k (i.take n) with
        | going s₁ =>
          rw [hstep] at h hcut
          obtain ⟨hs, rfl⟩ := Prod.mk.inj h
          obtain rfl := Reading.going.inj hs
          -- the rest of the report does what the report does in one piece
          have hsame : s.step k i = s₁.step k (i.drop n) := hcut
          cases hrest : s₁.step k (i.drop n) with
          | going s₂ =>
            rw [readsShort_cons (hsame.trans hrest), Bool.and_eq_true] at hshort
            rw [readsShort_cons hrest, Bool.and_eq_true]
            exact ⟨Item.short_drop hshort.1, hshort.2⟩
          | headed | failed => rw [readsShort, hrest]
        | headed | failed =>
          rw [hstep] at h
          cases h

theorem feed_singleton (s : Sheet) (items : List Item) (n : ℕ) : s.feed k items
    [n] = (s.lex k n items).1 := by
  rw [feed]
  generalize s.lex k n items = r
  match r with
  | (.going s', rest) | (.headed s' f, rest) | (.failed e, rest) => rfl

/-- **However a short header section is cut, it gives one sheet.** -/
theorem feed_eq_lex : ∀ {ws : List ℕ} {items : List Item} {s : Sheet}, s.readsShort k items = true →
    ws ≠ [] → s.feed k items ws = (s.lex k ws.sum items).1
  | [], _, _, _, hne => absurd rfl hne
  | [n], items, s, _, _ => by rw [feed_singleton, sum_singleton]
  | n :: m :: ws, items, s, hshort, _ => by
      rw [feed, sum_cons, lex_add hshort]
      cases h : s.lex k n items with
      | mk r rest =>
        match r with
        | .going s' => exact feed_eq_lex (short_of_lex hshort h) (cons_ne_nil m ws)
        | .headed s' f => rfl
        | .failed e => rfl

end Sheet

/-! ## The parser over windows -/

namespace Parser

variable {p : Parser} {s : Sheet} {off n : ℕ}

/-- Between two messages. -/
structure Blank (p : Parser) : Prop where
  past : p.past = false
  upgraded : p.upgraded = false
  error : p.error = none

/-- The sheet of a blank parser. -/
def blankSheet (p : Parser) : Sheet := { pen := { used := p.io.spill.used } }

theorem Blank.shows (h : p.Blank) (off : ℕ) : p.Shows off p.blankSheet :=
  ⟨h.past, h.error, rfl, fun hne => absurd rfl hne⟩

theorem Noted.fields_eq {pos : ℕ} (h : p.Noted pos s) : p.io.fields = s.fields := by
  rw [Inbound.fields, h.ofKind_eq, Sheet.fields]
  have hforall := h.headers
  generalize p.io.headers = hs at hforall
  generalize s.entries = es at hforall
  induction hforall with
  | nil => rfl
  | cons hf _ ih => rw [map_cons, map_cons, hf.name.text, hf.value.text, ih]

/-- The outcome of a header section that ends in a window. -/
theorem outcome_headed {pos pos' : ℕ} (h : p.Noted pos s) (hidle : Idle p) (f : Facts)
    (rest : List Item) :
    outcome (classify ((p.headed f).stopAt pos' rest, .paused)) = (Reading.headed s f).outcome
      p.gate := by
  have htarget : p.io.resolve p.target = s.target.bytes := h.target.text
  have hfields := h.fields_eq
  rw [Reading.outcome, Gate.result, ← htarget, ← hfields, headed]
  by_cases hends : (p.noteHead f).headersEndMessage = true
  · have hgate : (p.gate.response && (f.status.forbidsBody || p.gate.responseTo == .head)) = true :=
      hends
    rw [if_pos hends, if_pos hgate, classify, if_pos (by rfl)]
    change outcome (_, if f.upgrade then _ else _) = _
    split_ifs <;> rfl
  · have hgate : ¬ (p.gate.response &&
      (f.status.forbidsBody || p.gate.responseTo == .head)) = true := hends
    rw [if_neg hends, if_neg hgate, classify,
      if_neg (by simp [stopAt, noteHead, hidle.messageDone_eq]),
      if_pos (by rfl)]
    rfl

/-- What is left of a window that was used up. -/
theorem classify_ok {pos : ℕ} (h : p.Shows pos s) (rest : List Item) :
    ∃ q, classify (p.stopAt pos rest, .ok) = (q, .needMore) ∧ q.Shows pos s ∧
      q.upgraded = p.upgraded ∧ q.input = rest ∧ q.gate = p.gate ∧ q.io.head = p.io.head := by
  refine ⟨_, rfl, ?_, rfl, rfl, rfl, rfl⟩
  exact h.congr rfl rfl rfl rfl rfl (fun _ _ _ => rfl) rfl rfl rfl

/-- **One window.**  The parser reports what the sheet says. -/
theorem execute_refines {bare : Bool} (h : p.Shows off s) (hup : p.upgraded = false)
    (horder : Ordered bare s.phase p.input)
    (hfed : p.io.head.view off n <+: bytesOf p.input) :
    match s.lex p.gate n p.input with
    | (.going s', rest) =>
      ∃ q, p.execute off n = (q, .needMore) ∧ q.Shows (off + n) s' ∧ q.upgraded = false ∧
        q.input = rest ∧
        Ordered bare s'.phase rest ∧ q.gate = p.gate ∧
          (∀ a b, q.io.head.view a b = p.io.head.view a b) ∧
        bytesOf p.input = p.io.head.view off n ++ bytesOf rest
    | (r, _) => outcome (p.execute off n) = r.outcome p.gate := by
  generalize hp₀ : ({ p with feedPos := off, feedEnd := off + n, zeroFed := false } : Parser) = p₀
  have hlen : p₀.feedLen = n := by
    rw [← hp₀]
    exact Nat.add_sub_cancel_left off n
  have hexec : p.execute off n = classify (p₀.primed.lex off n p.input) := by
    have hfed₀ : p₀.Fed := by
      rw [Fed, hlen, ← hp₀]
      exact hfed
    rcases pump_eq hfed₀ (by rw [← hp₀]; exact hup) with ⟨-, hzero, -⟩ | ⟨-, hpump⟩
    · rw [← hp₀] at hzero
      cases hzero
    · rw [execute_eq, hp₀, hpump, hlen, ← hp₀]
  have hprimed : p₀.primed.Shows off s := by
    rw [← hp₀]
    exact h.congr rfl rfl rfl rfl rfl (fun _ _ _ => rfl) rfl rfl rfl
  have hgate : p₀.primed.gate = p.gate := by
    rw [← hp₀]
    rfl
  have hidle : Idle p₀.primed := by
    rw [← hp₀]
    exact ⟨rfl, rfl, hup⟩
  have hview : ∀ a b, p₀.primed.io.head.view a b = p.io.head.view a b := by
    rw [← hp₀]
    exact fun _ _ => rfl
  have hspec := lex_refines hprimed horder (by rw [hview]; exact hfed)
  rw [hgate] at hspec
  have hgate' {q : Parser} (hq : Passed p₀.primed q) : q.gate = p.gate := by
    rw [← hgate, gate, gate, hq.limits_eq, hq.response_eq, hq.responseTo_eq]
  rw [hexec]
  generalize s.lex p.gate n p.input = r at hspec
  obtain ⟨s' | ⟨s', f⟩ | e, rest⟩ := r
  · obtain ⟨q, hlex, hshows, hpassed, hrest⟩ := hspec
    obtain ⟨q', hclass, hshows', hup', hinput', hgate₁, hhead⟩ := classify_ok hshows rest
    refine ⟨q', by rw [hlex, hclass], hshows', hup'.trans (hpassed.idle hidle).3, hinput', hrest,
      hgate₁.trans (hgate' hpassed), fun a b => ?_, ?_⟩
    · rw [hhead]
      exact (hpassed.view_eq a b).trans (hview a b)
    · obtain ⟨l, hl, -, -, hlen⟩ := ate_lex p₀.primed off n p.input (by rw [hlex]; rintro ⟨⟩)
      rw [hlex] at hl hlen
      rw [hl] at hfed ⊢
      have hinit := prefix_of_prefix_length_le hfed (prefix_append l _)
        (by rw [HeadBuffer.length_view, hlen rfl])
      rw [hinit.eq_of_length (by rw [HeadBuffer.length_view, hlen rfl])]
      rfl
  · obtain ⟨q, pos', hlex, hshows, hpassed, -, hphase, -⟩ := hspec
    have hn := hshows.noted (by rw [hphase]; rintro ⟨⟩)
    rw [hlex]
    exact (outcome_headed hn (hpassed.idle hidle) f rest).trans (by rw [hgate' hpassed])
  · obtain ⟨q, hlex, herr⟩ := hspec
    rw [hlex]
    exact congrArg Outcome.error herr

/-- A report ends the feeding. -/
theorem outcome_feed_of_ne {ws : List ℕ} (h : outcome (p.execute off n) ≠ .needMore) :
    outcome (p.feed off (n :: ws)) = outcome (p.execute off n) := by
  rw [feed]
  generalize p.execute off n = r at h
  match r, h with
  | (q, .needMore), h => exact absurd rfl h
  | (q, .headersReady), _ | (q, .messageReady), _ | (q, .bodyPaused), _ | (q, .upgrade),
    _ | (q, .error), _ => rfl

/-- **However many windows.** -/
theorem outcome_feed {bare : Bool} : ∀ {ws : List ℕ} {p : Parser} {s : Sheet} {off : ℕ},
    p.Shows off s →
    p.upgraded = false → Ordered bare s.phase p.input → p.io.head.view off ws.sum <+: bytesOf
      p.input →
    outcome (p.feed off ws) = (s.feed p.gate p.input ws).outcome p.gate
  | [], _, _, _, _, _, _, _ => rfl
  | n :: ws, p, s, off, h, hup, horder, hfed => by
      rw [sum_cons, HeadBuffer.view_add] at hfed
      have hspec := execute_refines (n := n) h hup horder ((prefix_append _ _).trans hfed)
      rw [Sheet.feed]
      generalize s.lex p.gate n p.input = r at hspec
      match r, hspec with
      | (.going s', rest), ⟨q, hexec, hshows, hup', hinput, hrest, hgate, hview, hbytes⟩ =>
        rw [feed, hexec]
        dsimp only
        rw [← hgate, ← hinput]
        refine outcome_feed hshows hup' (hinput ▸ hrest) ?_
        rw [hview, hinput]
        rw [hbytes] at hfed
        exact (prefix_append_right_inj _).mp hfed
      | (.headed s' f, rest), hspec => exact (outcome_feed_of_ne (by rw [hspec]; nofun)).trans hspec
      | (.failed e, _), hspec => exact (outcome_feed_of_ne (by rw [hspec]; nofun)).trans hspec

/-! ## The condition -/

/-- However the bytes are handed over, the outcome is that of handing them over at once, and what is
recorded is what the runs say. -/
def Faithful (p : Parser) (off len : ℕ) : Prop :=
  ∀ ws : List ℕ, ws ≠ [] → ws.sum = len →
    outcome (p.feed off ws) = outcome (p.execute off len) ∧
      ∀ r f target fields, outcome (p.feed off ws) = .head r f target fields →
        target = (said p.input).target ∧ fields = (said p.input).fields

theorem feed_singleton (p : Parser) (off n : ℕ) : outcome (p.feed off [n]) = outcome
    (p.execute off n) := by
  rw [feed]
  generalize p.execute off n = r
  match r with
  | (q, .needMore) => rfl
  | (q, .headersReady) | (q, .messageReady) | (q, .bodyPaused) | (q, .upgrade) | (q, .error) => rfl

section Stored

variable {len : ℕ} (hp : p.Blank) (horder : Ordered p.response .idle p.input)
  (hstored : p.io.head.view off len = bytesOf p.input)

include hp horder hstored

theorem outcome_of_sum {ws : List ℕ} (hsum : ws.sum = len) :
    outcome (p.feed off ws) = (p.blankSheet.feed p.gate p.input ws).outcome p.gate :=
  outcome_feed (hp.shows off) hp.upgraded horder (by rw [hsum, hstored])

/-- No run that the parser takes before the header section ends or is refused has 64 KiB. -/
def TakesShort (p : Parser) : Prop := p.blankSheet.readsShort p.gate p.input = true

instance (p : Parser) : Decidable p.TakesShort := inferInstanceAs (Decidable (_ = true))

/-- Without long runs the windows do not show. -/
theorem faithful_of_short (hshort : p.TakesShort) : p.Faithful off len := by
  intro ws hne hsum
  have hall := outcome_of_sum hp horder hstored hsum
  have hone := outcome_of_sum hp horder hstored (show [len].sum = len from sum_singleton)
  rw [Sheet.feed_eq_lex hshort hne, hsum] at hall
  rw [Sheet.feed_singleton, feed_singleton] at hone
  refine ⟨hall.trans hone.symm, fun r f target fields hhead => ?_⟩
  rw [hhead] at hall
  cases hlex : p.blankSheet.lex p.gate len p.input with
  | mk reading rest =>
    rw [hlex] at hall
    cases reading with
    | going s' => cases hall
    | failed e => cases hall
    | headed s' f' =>
      obtain ⟨-, -, rfl, rfl⟩ := Outcome.head.inj hall
      have htells : p.blankSheet.Tells {} := ⟨rfl, rfl, rfl, rfl, nofun⟩
      obtain ⟨-, htells⟩ := htells.lex horder hshort hlex
      exact ⟨htells.target, htells.fields⟩

/-- A run that is too long can be cut so that it is refused. -/
theorem exists_windows_refused (hlong : ¬ p.TakesShort) :
    ∃ ws, ws ≠ [] ∧ ws.sum = len ∧ outcome (p.feed off ws) = .error (some .headerTooLarge) := by
  have hlen : (bytesOf p.input).length = len := by rw [← hstored, HeadBuffer.length_view]
  obtain ⟨n, m, -, hnm, s', rest, hlex, hfail⟩ :=
    Sheet.exists_cut_failed (k := p.gate) (s := p.blankSheet) (Bool.eq_false_iff.mpr hlong)
  have hsum : [n, m].sum = len := by
    rw [sum_cons, sum_singleton, hnm, hlen]
  refine ⟨[n, m], cons_ne_nil _ _, hsum, ?_⟩
  rw [outcome_of_sum hp horder hstored hsum, Sheet.feed, hlex]
  dsimp only
  rw [Sheet.feed_singleton, hfail]
  rfl

/-- With a long run some windows show, unless what is behind it is too large too. -/
theorem short_of_faithful (h : p.Faithful off len)
    (hok : outcome (p.execute off len) ≠ .error (some .headerTooLarge)) : p.TakesShort := by
  by_contra hlong
  obtain ⟨ws, hne, hsum, href⟩ := exists_windows_refused hp horder hstored hlong
  exact hok ((h ws hne hsum).1.symm.trans href)

end Stored

/-- **Windows do not show when no run that is taken has 64 KiB.**  A message without one is reported
alike however it is handed over, and as its runs say; with one, there are windows for which it is
refused as too large, and so the windows show unless it is refused as too large in one piece. -/
theorem faithful_iff {len : ℕ} (hp : p.Blank) (horder : Ordered p.response .idle p.input)
    (hstored : p.io.head.view off len = bytesOf p.input) :
    (p.TakesShort → p.Faithful off len) ∧
      (¬ p.TakesShort → ∃ ws, ws ≠ [] ∧ ws.sum = len ∧
        outcome (p.feed off ws) = .error (some .headerTooLarge)) ∧
      (outcome (p.execute off len) ≠ .error (some .headerTooLarge) →
        (p.Faithful off len ↔ p.TakesShort)) :=
  ⟨faithful_of_short hp horder hstored, exists_windows_refused hp horder hstored,
    fun hok => ⟨fun h => short_of_faithful hp horder hstored h hok,
      faithful_of_short hp horder hstored⟩⟩

/-! ## Runs -/

/-- A parser with a message at the front of its head buffer. -/
def holding (response : Bool) (items : List Item) : Parser where
  limits := ⟨64, 0, 8 <<< 20⟩
  response := response
  io := { head := { mem := Mem.zero.write 0 (bytesOf items), cap := (bytesOf items).length } }
  input := items

theorem blank_holding (response : Bool) (items : List Item) : (holding response items).Blank :=
  ⟨rfl, rfl, rfl⟩

theorem stored_holding (response : Bool) (items : List Item) :
    (holding response items).io.head.view 0 (bytesOf items).length = bytesOf items := by
  change (Mem.zero.write 0 (bytesOf items)).read 0 (bytesOf items).length = _
  exact Mem.read_write_self

/-- A request with a folded header. -/
def foldedGet : List Item :=
  [.call .messageBegin, .raw (ascii "GET "), .run .url (ascii "/x"), .raw (ascii " HTTP/1.1\r\n"),
    .run .field (ascii "Host"), .call .fieldComplete, .raw (ascii ": "), .run .value (ascii "a"),
      .raw crlf,
    .call .valueComplete, .run .field (ascii "Fold"), .call .fieldComplete, .raw (ascii ": "),
    .run .value (ascii "b"), .raw (ascii "\r\n "), .run .value (ascii "c"), .raw crlf,
      .call .valueComplete,
    .raw crlf, .call (.headersComplete { method := .get, version := .http11 })]

theorem faithful_iff_folded : (holding false foldedGet).TakesShort ∧
    (holding false foldedGet).Faithful 0 (bytesOf foldedGet).length :=
  ⟨by decide,
    (faithful_iff (blank_holding false foldedGet) (by decide) (stored_holding false foldedGet)).1
      (by decide)⟩

/-- A response with one header, of this value. -/
def oneHeader (value : List Byte) : List Item :=
  [.call .messageBegin, .raw (ascii "HTTP/1.1 200 OK\r\n"), .run .field (ascii "A"),
    .call .fieldComplete,
    .raw (ascii ":"), .run .value value, .raw crlf, .call .valueComplete, .raw crlf,
    .call (.headersComplete { status := ⟨200⟩, version := .http11 })]

theorem ordered_oneHeader (value : List Byte) :
    Ordered (holding true (oneHeader value)).response .idle
      (holding true (oneHeader value)).input := by
  simp [oneHeader, holding, Ordered, Phase.takes, Phase.next, Phase.trails]

/-- In one piece a value of 64 KiB becomes an empty one. -/
theorem outcome_oneHeader {value : List Byte} (hvalue : value.length = 2 ^ 16) :
    outcome ((holding true (oneHeader value)).execute 0 (bytesOf (oneHeader value)).length) =
      .head .headersReady { status := ⟨200⟩, version := .http11 } [] [(ascii "A", [])] := by
  have hone := outcome_of_sum (blank_holding true (oneHeader value)) (ordered_oneHeader value)
    (stored_holding true _) (show [(bytesOf (oneHeader value)).length].sum = _ from sum_singleton)
  rw [feed_singleton, Sheet.feed_singleton] at hone
  rw [hone]
  have hlen : (bytesOf (oneHeader value)).length = 0 +
    (17 + (1 + (0 + (1 + (2 ^ 16 + (2 + (0 + (2 + 0)))))))) := by
    simp only [oneHeader, bytesOf_cons, bytesOf_nil, length_append, Item.bytes, hvalue]
    rfl
  have hstep {k : Gate} {s : Sheet} (hs : s.value = {}) :
      s.step k (.run .value value) = .going
        { s with value := {}, pen := { s.pen with flush := false } } := by
    have hne : value ≠ [] := by
      rintro rfl
      cases hvalue
    rw [Sheet.step, Sheet.onValue, Sheet.write, Text.add, if_neg hne, if_pos hs, hvalue]
    rfl
  rw [hlen]
  change Reading.outcome _ (Sheet.lex ⟨⟨64, 0, 8 <<< 20⟩, true, .unknown⟩ {} _
    (oneHeader value)).1 = _
  rw [oneHeader, Sheet.lex_next (.call .messageBegin) 0 (by omega) rfl rfl,
    Sheet.lex_next (.raw _) 17 (by omega) rfl rfl, Sheet.lex_next (.run .field _) 1
      (by omega) rfl rfl,
    Sheet.lex_next (.call .fieldComplete) 0 (by omega) rfl rfl,
    Sheet.lex_next (.raw _) 1 (by omega) rfl rfl,
    Sheet.lex_next (.run .value _) (2 ^ 16) (by omega) hvalue (hstep rfl),
    Sheet.lex_next (.raw _) 2 (by omega) rfl rfl,
    Sheet.lex_next (.call .valueComplete) 0 (by omega) rfl rfl,
    Sheet.lex_next (.raw _) 2 (by omega) rfl rfl]
  rfl

theorem not_takesShort_oneHeader {value : List Byte} (hvalue : value.length = 2 ^ 16) :
    ¬ (holding true (oneHeader value)).TakesShort := by
  have hlong : Item.short (.run .value value) = false := by simp [Item.short, hvalue]
  intro h
  change Sheet.readsShort ⟨⟨64, 0, 8 <<< 20⟩, true, .unknown⟩ {} (oneHeader value) = true at h
  rw [oneHeader, Sheet.readsShort_cons (i := .call .messageBegin) rfl, Sheet.readsShort_cons
    (i := .raw _) rfl,
    Sheet.readsShort_cons (i := .run .field _) rfl, Sheet.readsShort_cons
      (i := .call .fieldComplete) rfl,
    Sheet.readsShort_cons (i := .raw _) rfl] at h
  simp only [Bool.and_eq_true] at h
  rw [Sheet.short_of_opens h.2.2.2.2.2 rfl] at hlong
  cases hlong

theorem not_faithful_oneHeader {value : List Byte} (hvalue : value.length = 2 ^ 16) :
    ¬ (holding true (oneHeader value)).Faithful 0 (bytesOf (oneHeader value)).length := by
  intro h
  have hone := outcome_oneHeader hvalue
  generalize hp : holding true (oneHeader value) = p at h hone
  have hlong : ¬ p.TakesShort := hp ▸ not_takesShort_oneHeader hvalue
  have hstored : p.io.head.view 0 (bytesOf (oneHeader value)).length = bytesOf p.input :=
    hp ▸ stored_holding true _
  refine hlong (short_of_faithful (hp ▸ blank_holding true _) (hp ▸ ordered_oneHeader value)
    hstored h ?_)
  rw [hone]
  rintro ⟨⟩

/-- **A value of 64 KiB**: in one piece it is reported as an empty one, and there are windows that
show. -/
theorem long_value_shows :
    outcome ((holding true (oneHeader (List.replicate (2 ^ 16) 0x61))).execute 0
        (bytesOf (oneHeader (List.replicate (2 ^ 16) 0x61))).length) =
        .head .headersReady { status := ⟨200⟩, version := .http11 } [] [(ascii "A", [])] ∧
      ¬ (holding true (oneHeader (List.replicate (2 ^ 16) 0x61))).Faithful 0
        (bytesOf (oneHeader (List.replicate (2 ^ 16) 0x61))).length :=
  ⟨outcome_oneHeader length_replicate, not_faithful_oneHeader length_replicate⟩

end Parser

end Cornet.Http
