import Cornet.Http.Progress

/-!
# Http/Inside — between a header section and the end of its message

    header section ─▸ InBody ─▸ … ─▸ InBody ─▸ end of the message

Whatever the peer sends, the parser stays inside a message until the message ends (`InBody`).
-/

namespace Cornet.Http

namespace Parser

variable {p : Parser}

/-- Between a header section and the end of its message. -/
def InBody (p : Parser) : Prop := p.past = true ∧ p.upgraded = false

/-- …or behind a message that handed the connection over, which the next call reports. -/
def MidBody (p : Parser) : Prop := p.InBody ∨ (p.upgraded = true ∧ p.zeroFed = false)

/-- A call that is not refused was handed the stream's own bytes. -/
theorem fed_of_ne_error (hup : p.upgraded = false) (hok : p.pump.2 ≠ .error) : p.Fed := by
  by_contra hfed
  have hlen : p.feedLen ≠ 0 := fun hlen => hfed (by rw [Fed, hlen]; exact List.nil_prefix)
  rw [pump, if_neg (by simp [hlen]), if_neg (by simp [hup]), if_neg hfed] at hok
  exact hok rfl

theorem pumped_of_ne_error (hup : p.upgraded = false) (hok : p.pump.2 ≠ .error) : Pumped p p.pump :=
  pumped_pump (fed_of_ne_error hup hok) hup

theorem pump_upgraded (hup : p.upgraded = true)
    (hzero : p.zeroFed = false) : p.pump.2 = .upgrade := by
  rw [pump, if_neg (by simp [hzero]), if_pos hup]

/-- A header section ends in front of its body. -/
theorem inBody_of_headersReady (h : p.pump.2 = .headersReady) : p.pump.1.InBody := by
  cases hup : p.upgraded with
  | true =>
    rw [pump] at h
    split_ifs at h
  | false =>
    have hpumped := pumped_of_ne_error hup (by rw [h]; rintro ⟨⟩)
    generalize p.pump = r at h hpumped
    cases hpumped with
    | headersReady _ _ _ hpast hup' => exact ⟨hpast, hup'⟩
    | needMore | bodyPaused | error => cases h
    | headMessage | message =>
      rw [completed] at h
      split_ifs at h

/-- A call that does not end the message leaves the parser inside it. -/
theorem InBody.pump (hp : p.InBody)
    (h : p.pump.2 = .needMore ∨ p.pump.2 = .bodyPaused) : p.pump.1.InBody := by
  have hpumped := pumped_of_ne_error hp.2 (by rcases h with h | h <;> rw [h] <;> rintro ⟨⟩)
  generalize p.pump = r at h hpumped
  cases hpumped with
  | needMore _ _ hpast hup => exact ⟨hpast.trans hp.1, hup⟩
  | bodyPaused _ _ _ hpast hup => exact ⟨hpast, hup⟩
  | headersReady | error => simp at h
  | headMessage | message =>
    rw [completed] at h
    split_ifs at h <;> simp at h

theorem MidBody.pump (hp : p.MidBody)
    (h : p.pump.2 = .needMore ∨ p.pump.2 = .bodyPaused) : p.pump.1.InBody := by
  rcases hp with hp | ⟨hup, hzero⟩
  · exact hp.pump h
  · rw [pump_upgraded hup hzero] at h
    rcases h with ⟨⟨⟩⟩ | ⟨⟨⟩⟩

theorem zeroFed_pump (hup : p.upgraded = false) (hlen : p.feedLen ≠ 0) (hok : p.pump.2 ≠ .error) :
    p.pump.1.zeroFed = false := by
  obtain ⟨h, -, -⟩ | ⟨-, h⟩ := pump_eq (fed_of_ne_error hup hok) hup
  · exact absurd h hlen
  · rw [h] at hok ⊢
    have hkept := kept_lex p.primed p.feedPos p.feedLen p.input
    rw [(work_classify (advanced_lex p.primed p.feedPos p.feedLen p.input)
      (by rw [hkept.feedEnd_eq]; rfl) hok).1,
      hkept.zeroFed_eq]
    exact beq_eq_false_iff_ne.2 hlen

/-- A window that was not empty. -/
theorem InBody.execute {off n : ℕ} (hp : p.InBody) (hok : (p.execute off (n + 1)).2 ≠ .error)
    (hnot : (p.execute off (n + 1)).2 ≠ .messageReady) : (p.execute off (n + 1)).1.MidBody := by
  set q : Parser := { p with feedPos := off, feedEnd := off + (n + 1), zeroFed := false }
  have hlen : q.feedLen ≠ 0 := by
    change off + (n + 1) - off ≠ 0
    omega
  have hpumped : Pumped q (p.execute off (n + 1)) := pumped_of_ne_error hp.2 hok
  have hzero : (p.execute off (n + 1)).1.zeroFed = false := zeroFed_pump (p := q) hp.2 hlen hok
  generalize p.execute off (n + 1) = r at hok hnot hpumped hzero
  cases hpumped with
  | needMore _ _ hpast hup => exact .inl ⟨hpast.trans hp.1, hup⟩
  | bodyPaused _ _ _ hpast hup => exact .inl ⟨hpast, hup⟩
  | headersReady _ _ hpast | headMessage _ _ hpast =>
    exact absurd (hp.1.symm.trans hpast) (by rintro ⟨⟩)
  | message _ _ _ _ hup =>
    refine .inr ⟨hup.trans ?_, hzero⟩
    by_contra h
    rw [Bool.not_eq_true] at h
    exact hnot (by rw [completed, h]; rfl)
  | error => exact absurd rfl hok

end Parser

namespace Intake

variable {s : Intake}

/-- Receiving puts bytes into the head buffer, and leaves the parser where it was. -/
theorem parser_fill (s : Intake) : ∃ b, s.fill.1.parser = (s.setHead b).parser := by
  rw [fill]
  split_ifs
  · exact ⟨s.head, rfl⟩
  · split
    · exact ⟨s.head, rfl⟩
    · split_ifs
      · exact ⟨s.head, rfl⟩
      · exact ⟨_, rfl⟩

theorem inBody_fill (h : s.parser.InBody) : s.fill.1.parser.InBody := by
  obtain ⟨b, hb⟩ := s.parser_fill
  rw [hb]
  exact h

/-- A turn that is not the last leaves the parser inside the message. -/
theorem midBody_readMore (h : s.parser.InBody)
    (hagain : s.readMore.2 = .again) : s.readMore.1.parser.MidBody := by
  have hfill : s.refill.1.parser.InBody :=
    inBody_fill (s := s.setHead (s.head.rewindTo s.bodyWindow)) h
  rw [readMore] at hagain ⊢
  rcases hr : s.refill with ⟨i, e | _ | n⟩
  · rw [hr] at hagain
    cases hagain
  · rw [hr] at hagain
    cases hagain
  · rw [hr] at hagain hfill
    have hexec : (i.execute i.bodyWindow (n + 1)).2 ≠ .error → (i.execute i.bodyWindow (n + 1)).2 ≠
      .messageReady →
        (i.execute i.bodyWindow (n + 1)).1.parser.MidBody := hfill.execute
    rcases he : i.execute i.bodyWindow (n + 1) with ⟨j, r⟩
    rw [he] at hexec
    simp only [he] at hagain ⊢
    cases r with
    | error | messageReady => cases hagain
    | needMore | headersReady | bodyPaused | upgrade => exact hexec (by rintro ⟨⟩) (by rintro ⟨⟩)

theorem readMore_ne_run (s : Intake) (l : List Byte) : s.readMore.2 ≠ .run l := by
  rw [readMore]
  rcases s.refill with ⟨i, e | _ | n⟩
  · rintro ⟨⟩
  · rintro ⟨⟩
  · rcases he : i.execute i.bodyWindow (n + 1) with ⟨j, r⟩
    simp only [he]
    cases r <;> rintro ⟨⟩

theorem midBody_readTurn (h : s.parser.MidBody) {l : List Byte}
    (hmore : (s.readTurn false).2 = .again ∨ (s.readTurn false).2 = .run l) : (s.readTurn
      false).1.parser.MidBody := by
  rw [readTurn] at hmore ⊢
  by_cases hrun : s.parser.pendingBody = []
  · rw [if_neg (not_not.2 hrun), if_neg Bool.false_ne_true] at hmore ⊢
    have hpump : s.resume.2 = .needMore ∨ s.resume.2 = .bodyPaused → s.resume.1.parser.InBody :=
      h.pump
    rcases hr : s.resume with ⟨i, r⟩
    rw [hr] at hmore hpump
    cases r with
    | bodyPaused => exact .inl (hpump (.inr rfl))
    | needMore =>
      exact midBody_readMore (hpump (.inl rfl)) (hmore.resolve_right (i.readMore_ne_run l))
    | messageReady | headersReady | upgrade | error => simp at hmore
  · rw [if_pos hrun]
    exact h

end Intake

end Cornet.Http
