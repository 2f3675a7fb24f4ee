import Cornet.Http.Reading

/-!
# Http/Progress — reading gets somewhere, whatever the peer sends

    load = bytes not received + bytes in the window + items of the stream

A call of llhttp over a window that is not empty eats a byte or an item; one over an empty window
happens once before something else does.  So every turn of a read takes something off the load, or
uses up the one call over an empty window (`toil`).  Nothing is assumed of the stream: it need not
be HTTP at all.
-/

namespace Cornet.Http

namespace Parser

variable {p q : Parser}

/-- How far a call got: it stopped inside the window, with no more items than before; it came to the
end of the window, or was paused behind an item. -/
def Advanced (pos n : ℕ) (items : List Item) (r : Parser × Stop) : Prop :=
  r.2 ≠ .failed → ∃ k ≤ n, r.1.feedPos = pos + k ∧ r.1.input.length ≤ items.length ∧
    (k = n ∨ r.1.input.length < items.length)

theorem advanced_lex (p : Parser) (pos n : ℕ) (items : List Item) :
    Advanced pos n items (p.lex pos n items) := by
  refine lex_induct (motive := fun _ pos n items r => Advanced pos n items r) ?_ ?_ ?_ ?_ ?_ ?_ ?_
    items p pos n
  · intro p pos n hok
    have hn : n = 0 := by
      by_contra h
      exact hok (if_neg h)
    exact ⟨0, Nat.zero_le n, rfl, le_rfl, .inl hn.symm⟩
  · exact fun p pos i rest _ _ => ⟨0, le_rfl, rfl, le_rfl, .inl rfl⟩
  · intro p pos n i rest q r hends _ ih hok
    have hle := Item.length_le_of_endsIn hends
    obtain ⟨k, hk, hpos, hlen, -⟩ := ih hok
    exact ⟨i.bytes.length + k, by omega, by rw [hpos, Nat.add_assoc], hlen.trans (Nat.le_succ _),
      .inr (Nat.lt_succ_of_le hlen)⟩
  · intro p pos n i rest q hends _ _
    exact ⟨_, Item.length_le_of_endsIn hends, rfl, Nat.le_succ _, .inr (Nat.lt_succ_self _)⟩
  · exact fun p pos n i rest q _ _ _ => ⟨n, le_rfl, rfl, le_rfl, .inl rfl⟩
  · exact fun p pos n i rest q _ _ _ => ⟨n, le_rfl, rfl, le_rfl, .inl rfl⟩
  · exact fun p pos n i rest m h => absurd rfl h

/-- What llhttp has before it. -/
def work (p : Parser) : ℕ := p.feedLen + p.input.length

theorem work_classify {pos n : ℕ} {r : Parser × Stop} (hadv : Advanced pos n p.input r)
    (hn : r.1.feedEnd - pos = n) (hok : (classify r).2 ≠ .error) :
    (classify r).1.zeroFed = r.1.zeroFed ∧ (classify r).1.upgraded = r.1.upgraded ∧
      (classify r).1.work ≤ n + p.input.length ∧
      (n ≠ 0 ∨ r.1.input.length < p.input.length → (classify r).1.work < n + p.input.length) := by
  obtain ⟨k, hk, hpos, hlen, hfar⟩ := hadv (ne_failed_of_classify hok)
  obtain ⟨q, stop⟩ := r
  dsimp only at hpos hlen hfar hn
  cases stop with
  | ok =>
    have hwork : (classify (q, .ok)).1.work = q.input.length := by
      change q.feedEnd - q.feedEnd + q.input.length = _
      omega
    rw [hwork]
    exact ⟨rfl, rfl, by omega, fun h => by dsimp only at h; omega⟩
  | paused =>
    have hwork : q.feedEnd - q.feedPos + q.input.length ≤ n + p.input.length ∧
        (n ≠ 0 ∨ q.input.length < p.input.length → q.feedEnd - q.feedPos + q.input.length < n +
          p.input.length) := by omega
    simp only [classify] at hok ⊢
    split at hok
    · rw [if_pos ‹_›]
      exact ⟨rfl, rfl, hwork⟩
    · rw [if_neg ‹_›]
      split at hok
      · rw [if_pos ‹_›]
        exact ⟨rfl, rfl, hwork⟩
      · rw [if_neg ‹_›]
        split at hok
        · rw [if_pos ‹_›]
          exact ⟨rfl, rfl, hwork⟩
        · exact absurd rfl hok
  | failed => exact absurd rfl hok

/-- A message that hands the connection over has been left behind. -/
theorem upgraded_lex (hup : p.upgraded = false) (pos n : ℕ) :
    (p.primed.lex pos n p.input).2 ≠ .failed → (p.primed.lex pos n p.input).1.upgraded = false ∨
      (p.primed.lex pos n p.input).1.input.length < p.input.length := by
  have hidle : Idle p.primed := ⟨rfl, rfl, hup⟩
  have hcame := came_lex p.primed pos n p.input
  generalize p.primed.lex pos n p.input = r at hcame
  intro hok
  cases hcame with
  | dry _ hp | body _ hp => exact .inl (hp.idle hidle).3
  | head f pos rest hu | message pos rest hu => exact .inr (Nat.lt_of_succ_le hu.length_le)
  | failed => exact absurd rfl hok

/-- How a pump that did not fail can have gone. -/
inductive Gained (p : Parser) : Parser × Result → Prop
  /-- The empty window was handed over for the second time. -/
  | nothing : p.feedLen = 0 → p.zeroFed = true → Gained p (p.stopped, .needMore)
  | upgrade : p.upgraded = true → Gained p ({ p.primed.stopped with upgraded := false }, .upgrade)
  | bytes {q : Parser} {r : Result} : p.feedLen ≠ 0 → p.upgraded = false → q.work < p.work →
    Gained p (q, r)
  | call {q : Parser} {r : Result} :
      p.feedLen = 0 → p.zeroFed = false → q.zeroFed = true → q.work ≤ p.work →
      q.upgraded = false ∨ q.work < p.work → Gained p (q, r)

/-- **A pump gets somewhere**, unless it was over an empty window for the second time. -/
theorem gained_pump (hok : p.pump.2 ≠ .error) : Gained p p.pump := by
  rw [pump] at hok ⊢
  split_ifs at hok ⊢ with hzero hupgraded hfed
  · obtain ⟨hlen, hfed⟩ : p.feedLen = 0 ∧ p.zeroFed = true := by simpa using hzero
    exact .nothing hlen hfed
  · exact .upgrade hupgraded
  · have hup : p.upgraded = false := by simpa using hupgraded
    have hkept := kept_lex p.primed p.feedPos p.feedLen p.input
    have hzero' := hkept.zeroFed_eq
    have hnot := upgraded_lex hup p.feedPos p.feedLen (ne_failed_of_classify hok)
    obtain ⟨hz, hu, hle, hlt⟩ := work_classify (advanced_lex p.primed p.feedPos p.feedLen p.input)
      (by rw [hkept.feedEnd_eq]; rfl) hok
    by_cases hlen : p.feedLen = 0
    · have hq := hz.trans (hzero'.trans (beq_iff_eq.mpr hlen))
      exact .call hlen (by simpa [hlen] using hzero) hq hle
        (hnot.imp hu.trans fun h => hlt (.inr h))
    · exact .bytes hlen hup (hlt (.inl hlen))
  · exact absurd rfl hok

theorem gained_execute {off n : ℕ} (hn : n ≠ 0) (hok : (p.execute off n).2 ≠ .error) :
    ((p.execute off n).2 = .upgrade ∧ p.upgraded = true ∧ (p.execute off n).1.upgraded = false ∧
        (p.execute off n).1.zeroFed = false ∧ (p.execute off n).1.work = n + p.input.length) ∨
      (p.execute off n).1.work < n + p.input.length := by
  have hlen : ({ p with feedPos := off, feedEnd := off + n,
                        zeroFed := false } : Parser).feedLen = n :=
    Nat.add_sub_cancel_left off n
  have hgained := gained_pump hok
  rw [← execute_eq] at hgained
  generalize p.execute off n = r at hgained
  cases hgained with
  | nothing hzero | call hzero => exact absurd (hlen.symm.trans hzero) hn
  | upgrade hup =>
    refine .inl ⟨rfl, hup, rfl, ?_, congrArg (· + p.input.length) hlen⟩
    exact beq_eq_false_iff_ne.mpr (hlen.trans_ne hn)
  | bytes _ _ hlt => exact .inr (hlt.trans_eq (congrArg (· + p.input.length) hlen))

end Parser

namespace Intake

variable {s t u : Intake}

/-- All that is still to be read. -/
def load (s : Intake) : ℕ := s.net.inbox.length + s.parser.work

/-- The same, with the one call over an empty window that is left, and the one that reports an
upgrade. -/
def toil (s : Intake) : ℕ :=
  4 * s.load + (if s.parser.upgraded then 2 else 0) + if s.parser.zeroFed then 0 else 1

theorem toil_lt_of_load (h : t.load < s.load) : t.toil < s.toil := by
  rw [toil, toil]
  split_ifs <;> omega

theorem toil_le (s : Intake) : s.toil ≤ 4 * s.load + 3 := by
  rw [toil]
  split_ifs <;> omega

/-- A pump that did not fail adds nothing; only a reader that needs more may have gained nothing. -/
theorem toil_resume {r : Result} (h : s.resume = (t, r)) (hok : r ≠ .error) :
    t.toil ≤ s.toil ∧ (r ≠ .needMore → t.toil < s.toil) ∧
      (s.parser.feedLen ≠ 0 → r ≠ .upgrade → t.load < s.load) := by
  obtain ⟨rfl, rfl⟩ := Prod.mk.inj h
  have hgained := Parser.gained_pump hok
  change toil { s with parser := s.parser.pump.1 } ≤ s.toil ∧
    (s.parser.pump.2 ≠ _ → toil { s with parser := s.parser.pump.1 } < s.toil) ∧
    (_ → s.parser.pump.2 ≠ _ → load { s with parser := s.parser.pump.1 } < s.load)
  generalize s.parser.pump = r at hgained
  cases hgained with
  | nothing hlen _ => exact ⟨le_rfl, fun hne => absurd rfl hne, fun hne => absurd hlen hne⟩
  | upgrade hup =>
    have htoil : toil { s with parser := { s.parser.primed.stopped with upgraded := false } } <
      s.toil := by
      have hload : load { s with parser := { s.parser.primed.stopped with upgraded := false }
                                   } = s.load := rfl
      rw [toil, toil, hload, if_pos hup, if_neg nofun]
      split_ifs <;> omega
    exact ⟨htoil.le, fun _ => htoil, fun _ hne => absurd rfl hne⟩
  | @bytes q _ _ _ hlt =>
    have hload : load { s with parser := q } < s.load := Nat.add_lt_add_left hlt _
    have htoil := toil_lt_of_load hload
    exact ⟨htoil.le, fun _ => htoil, fun _ _ => hload⟩
  | @call q _ hlen hz hz' hle hup =>
    have hload : load { s with parser := q } ≤ s.load := Nat.add_le_add_left hle _
    have htoil : toil { s with parser := q } < s.toil := by
      rcases hup with hup | hlt
      · simp only [toil, hz', hz, hup, Bool.false_eq_true, if_true, if_false]
        split_ifs <;> omega
      · exact toil_lt_of_load (Nat.add_lt_add_left hlt _)
    exact ⟨htoil.le, fun _ => htoil, fun hne => absurd hlen hne⟩

/-- Bytes that arrive and are parsed are off the load. -/
theorem toil_got {n off : ℕ} {r : Result} (hfill : s.fill = (t, .ok n)) (hn : n ≠ 0)
    (hexec : t.execute off n = (u, r)) (hok : r ≠ .error) :
    u.toil < s.toil ∧ (r ≠ .upgrade → u.load < s.load) := by
  have hfilled := filled_fill s
  rw [hfill] at hfilled
  obtain ⟨rfl, rfl⟩ := Prod.mk.inj hexec
  have hgained := Parser.gained_execute hn hok
  -- what is in the window is no longer in the inbox
  have hload : t.net.inbox.length + (n + t.parser.input.length) ≤ s.load ∧
      t.parser.upgraded = s.parser.upgraded := by
    cases hfilled with
    | eof => exact absurd rfl hn
    | @got net l _ hinbox =>
      have hsum := congrArg List.length hinbox
      rw [List.length_append] at hsum
      have hle : s.parser.input.length ≤ s.parser.work := Nat.le_add_left _ _
      refine ⟨?_, rfl⟩
      change net.inbox.length + (l.length + s.parser.input.length) ≤ s.net.inbox.length +
        s.parser.work
      omega
  rcases hgained with ⟨hr, hup, hup', hz, hwork⟩ | hlt
  · refine ⟨?_, fun hne => absurd hr hne⟩
    have hle : load { t with parser := (t.parser.execute off n).1 } ≤ s.load := by
      rw [load, hwork]
      exact hload.1
    simp only [toil, hload.2.symm.trans hup, hup', hz, Bool.false_eq_true, if_true, if_false]
    split_ifs <;> omega
  · have hlt : load { t with parser := (t.parser.execute off n).1 } < s.load :=
      lt_of_lt_of_le (Nat.add_lt_add_left hlt _) hload.1
    exact ⟨toil_lt_of_load hlt, fun _ => hlt⟩

theorem toil_refill {n : ℕ} {r : Result} (hfill : s.refill = (t, .ok n)) (hn : n ≠ 0)
    (hexec : t.execute t.bodyWindow n = (u, r)) (hok : r ≠ .error) : u.toil < s.toil :=
  (toil_got (s := s.setHead (s.head.rewindTo s.bodyWindow)) hfill hn hexec hok).1

/-! ## Turns -/

/-- What a turn leaves to do: less than before, and no run is pending that was not. -/
def Worked (s : Intake) : Intake × Turn → Prop
  | (t, .again) => t.toil < s.toil
  | (t, .run _) => t.toil = s.toil ∧ t.parser.runLen = 0 ∧ s.parser.runLen ≠ 0
  | (t, .done l) => l ≠ [] → t.toil < s.toil ∧ t.parser.runLen = 0
  | (t, .eof) => t.toil ≤ s.toil
  | (_, .failed _) => True

theorem Worked.of_le {r : Intake × Turn} (h : Worked t r) (hrun : ∀ l, r.2 ≠ .run l)
    (hle : t.toil ≤ s.toil) :
    Worked s r := by
  obtain ⟨u, turn⟩ := r
  cases turn with
  | again => exact lt_of_lt_of_le h hle
  | run l => exact absurd rfl (hrun l)
  | done l => exact fun hl => ⟨lt_of_lt_of_le (h hl).1 hle, (h hl).2⟩
  | eof => exact le_trans h hle
  | failed e => trivial

/-- Nothing came, and nothing was done. -/
theorem toil_refill_zero (hfill : s.refill = (t, .ok 0)) : t.toil ≤ s.toil := by
  have hfilled := filled_fill (s.setHead (s.head.rewindTo s.bodyWindow))
  rw [← refill, hfill] at hfilled
  generalize hzero : (0 : ℕ) = n at hfilled
  cases hfilled with
  | eof hnil _ hinbox _ =>
    have hload : load ({ s with net := _ } : Intake) = s.load :=
      congrArg (·.length + s.parser.work) (hinbox.trans hnil.symm)
    exact le_of_eq (congrArg (4 * · + _ + _) hload)
  | got hne => exact absurd (List.length_eq_zero_iff.mp hzero.symm) hne

theorem worked_readMore (s : Intake) : Worked s s.readMore ∧ ∀ l, s.readMore.2 ≠ .run l := by
  rw [readMore]
  split
  · exact ⟨trivial, by rintro _ ⟨⟩⟩
  · rename_i t hfill
    exact ⟨toil_refill_zero hfill, by rintro _ ⟨⟩⟩
  · rename_i t n hn hfill
    split
    · exact ⟨trivial, by rintro _ ⟨⟩⟩
    · rename_i u hexec
      have hlt := toil_refill hfill hn hexec (by rintro ⟨⟩)
      exact ⟨fun _ => ⟨hlt, rfl⟩, by rintro _ ⟨⟩⟩
    · rename_i u r herr _ hexec
      exact ⟨toil_refill hfill hn hexec herr, by rintro _ ⟨⟩⟩

theorem worked_readTurn (s : Intake) (complete : Bool) : Worked s (s.readTurn complete) := by
  rw [readTurn]
  split_ifs with hpending hcomplete
  · exact ⟨rfl, rfl, fun h => hpending (pendingBody_eq_nil h)⟩
  · exact fun h => absurd rfl h
  · split
    · rename_i t hresume
      exact (toil_resume hresume (by rintro ⟨⟩)).2.1 (by rintro ⟨⟩)
    · exact fun h => absurd rfl h
    · rename_i t hresume
      obtain ⟨h, hrun⟩ := worked_readMore t
      exact h.of_le hrun (toil_resume hresume (by rintro ⟨⟩)).1
    · trivial

theorem worked_feedTurn (s : Intake) : Worked s s.feedTurn ∧ ∀ l, s.feedTurn.2 ≠ .run l := by
  rw [feedTurn]
  split
  · exact ⟨fun h => absurd rfl h, by rintro _ ⟨⟩⟩
  · exact ⟨trivial, by rintro _ ⟨⟩⟩
  · rename_i t hresume
    have hle := (toil_resume hresume (by rintro ⟨⟩)).1
    rw [feedMore]
    split
    · exact ⟨trivial, by rintro _ ⟨⟩⟩
    · rename_i u hfill
      exact ⟨(toil_refill_zero hfill).trans hle, by rintro _ ⟨⟩⟩
    · rename_i u n hn hfill
      split
      · exact ⟨trivial, by rintro _ ⟨⟩⟩
      · exact ⟨fun h => absurd rfl h, by rintro _ ⟨⟩⟩
      · rename_i v r herr _ hexec
        exact ⟨(toil_refill hfill hn hexec herr).trans_le hle, by rintro _ ⟨⟩⟩
  · exact ⟨trivial, by rintro _ ⟨⟩⟩

/-- What a reader has before it: the toil, and a run that is pending. -/
def chore (s : Intake) : ℕ := 2 * s.toil + if s.parser.runLen = 0 then 0 else 1

theorem chore_lt_of_toil (h : t.toil < s.toil) : t.chore < s.chore := by
  rw [chore, chore]
  split_ifs <;> omega

theorem chore_le (s : Intake) : s.chore ≤ 8 * s.load + 7 := by
  have := s.toil_le
  rw [chore]
  split_ifs <;> omega

theorem toil_le_chore (s : Intake) : s.toil ≤ s.chore := by
  rw [chore]
  omega

end Intake

end Cornet.Http
