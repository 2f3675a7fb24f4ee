import Cornet.Websocket.Reassembly
import Cornet.Websocket.Verdicts

/-!
# Websocket/Prompt — when a session waits for the peer

    frame open:     | ⋯ rest of the frame ⋯ |            waits while the rest is not in the window
    no frame open:  | b₀ b₁ | len | key | ⋯              waits while the header is not in the window

`step` has three places where it calls `fill`.  They ask for the right thing but for one: a data
frame with nothing left to take waits for a non-empty window (`Hollow`).  A frame whose rest is in
the window is taken to its end in the same turn.
-/

namespace Cornet.Websocket

/-! ## Complete headers -/

/-- The bytes of the extended length that goes with a 7-bit length. -/
def extSize (len : ℕ) : ℕ := if len = 126 then 2 else if len = 127 then 8 else 0

/-- The length of a header, from its second byte. -/
def headerSize (b₁ : Byte) : ℕ :=
  2 + extSize (b₁ &&& 0x7F).toNat + if b₁ &&& 0x80 ≠ 0 then 4 else 0

/-- The window has a whole header. -/
def HasHeader : List Byte → Prop
  | b₀ :: b₁ :: rest => headerSize b₁ ≤ (b₀ :: b₁ :: rest).length
  | _ => False

theorem extendedLen_isSome {len : ℕ} {rest : List Byte} (h : extSize len ≤ rest.length) :
    ∃ r, extendedLen len rest = some r ∧ ∀ v ext, r = .ok (v, ext) → ext = extSize len := by
  rw [extSize] at h ⊢
  simp only [extendedLen]
  split_ifs at h ⊢
  all_goals try omega
  all_goals exact ⟨_, rfl, by simp [eq_comm]⟩

theorem takeKey_isSome : ∀ {l : List Byte}, 4 ≤ l.length → ∃ key, takeKey l = some key
  | _ :: _ :: _ :: _ :: _, _ => ⟨_, rfl⟩

theorem parseKey_ne_needMore {fin masked : Bool} {op : Opcode} {len : ℕ} {rest : List Byte}
    (h : extSize len + (if masked then 4 else 0) ≤ rest.length) :
    parseKey fin op masked rest (extendedLen len rest) ≠ .needMore := by
  obtain ⟨r, hr, hext⟩ := extendedLen_isSome (show extSize len ≤ rest.length by omega)
  rw [hr]
  match r, hext with
  | .error e, _ => simp [parseKey]
  | .ok (v, ext), hext =>
    obtain rfl := hext v ext rfl
    rw [parseKey]
    split_ifs at h ⊢
    · obtain ⟨key, hkey⟩ : ∃ key, takeKey (rest.drop (extSize len)) = some key :=
        takeKey_isSome (by rw [List.length_drop]; omega)
      simp [hkey]
    · simp

/-- **A whole header is judged**, one way or the other. -/
theorem parse_ne_needMore {role : Role} {w : List Byte} (h : HasHeader w) :
    parse role w ≠ .needMore := by
  match w, h with
  | b₀ :: b₁ :: rest, h =>
    simp only [HasHeader, headerSize, List.length_cons] at h
    rw [parse]
    split_ifs
    · simp
    · cases Opcode.ofByte (b₀ &&& 0x0F) with
      | none => simp
      | some op =>
        simp only [parseRest]
        split_ifs
        · simp
        · simp
        · simp
        · simp
        · refine parseKey_ne_needMore ?_
          simp only [decide_eq_true_eq]
          omega

/-! ## Waiting -/

namespace Session

variable {s : Session}

/-- What the session is waiting for is in the window: the rest of the open frame, or a header. -/
def Buffered (s : Session) : Prop :=
  if s.frameOpen then s.curRemaining ≤ s.inp.readable else HasHeader s.inp.unread

/-- The session with the frame at hand: the open one, or the one whose header is next and is let
in. -/
def atHand (s : Session) : Option Session :=
  if s.frameOpen then some s
  else if s.err ≠ none then none
  else
    match parse s.role s.inp.unread with
    | .frame f => (s.beginFrame f).toOption
    | _ => none

/-- The frame at hand is a data frame with nothing to take, at the end of the window. -/
def Hollow (s : Session) : Prop :=
  ∃ t ∈ s.atHand, t.cur.opcode.isControl = false ∧ t.curRemaining = 0 ∧ t.inp.readable = 0

/-- The frame at hand is the last one of a message, and the rest of it is in the window. -/
def LastBuffered (s : Session) : Prop :=
  ∃ t ∈ s.atHand, t.cur.opcode.isControl = false ∧ t.cur.fin = true ∧
    t.curRemaining ≤ t.inp.readable ∧ t.msg.size + t.curRemaining < 2 ^ 32

theorem beginFrame_eq_ok {f : Frame} {t : Session} (h : s.beginFrame f = .ok t) :
    t = s.openFrame f ∨ t = { s with msg := s.msg.clear }.openFrame f := by
  rw [beginFrame] at h
  split_ifs at h <;> cases h
  · exact .inr rfl
  · exact .inl rfl
  · exact .inl rfl

/-- The frame at hand is the open one, or has just been opened. -/
theorem atHand_cases {t : Session} (h : t ∈ s.atHand) :
    s.frameOpen = true ∧ t = s ∨
      s.frameOpen = false ∧ s.err = none ∧ ∃ f, parse s.role s.inp.unread = .frame f ∧
        s.beginFrame f = .ok t := by
  rw [atHand] at h
  split_ifs at h with hopen herr
  · exact .inl ⟨hopen, by simpa [eq_comm] using h⟩
  · simp at h
  · refine .inr ⟨by simpa using hopen, not_not.mp herr, ?_⟩
    split at h
    · rename_i f hf
      refine ⟨f, hf, ?_⟩
      cases hbegin : s.beginFrame f with
      | error e => simp [hbegin, Except.toOption] at h
      | ok t' => simpa [hbegin, Except.toOption] using h
    · simp at h

theorem frameOpen_atHand {t : Session} (h : t ∈ s.atHand) : t.frameOpen = true := by
  obtain ⟨hopen, rfl⟩ | ⟨-, -, f, -, hbegin⟩ := atHand_cases h
  · exact hopen
  · obtain rfl | rfl := beginFrame_eq_ok hbegin <;> rfl

theorem msg_atHand {t : Session} (h : t ∈ s.atHand) (hmsg : s.msg.Ok) : t.msg.Ok := by
  obtain ⟨-, rfl⟩ | ⟨-, -, f, -, hbegin⟩ := atHand_cases h
  · exact hmsg
  · obtain rfl | rfl := beginFrame_eq_ok hbegin
    · exact hmsg
    · exact hmsg.clear

/-- A turn with a frame at hand takes payload. -/
theorem iterate_atHand {t : Session} (h : t ∈ s.atHand) : s.iterate = t.payload := by
  obtain ⟨hopen, rfl⟩ | ⟨hopen, herr, f, hf, hbegin⟩ := atHand_cases h
  · rw [iterate, if_pos hopen]
  · rw [iterate, if_neg (by simp [hopen]), herr]
    simp only [hf, hbegin]

/-- A turn without one waits for a header, if it waits. -/
theorem iterate_of_atHand_none (h : s.atHand = none) (hfill : s.iterate.2 = .fill) :
    s.frameOpen = false ∧ s.iterate.1 = s ∧ parse s.role s.inp.unread = .needMore := by
  rw [atHand] at h
  split_ifs at h with hopen herr
  · obtain ⟨e, he⟩ := Option.ne_none_iff_exists'.mp herr
    simp [iterate, hopen, he, violationOf] at hfill
  · rw [not_not] at herr
    cases hparse : parse s.role s.inp.unread with
    | needMore => simp [iterate, hopen, herr, hparse]
    | error e => simp [iterate, hopen, herr, hparse, violationOf] at hfill
    | frame f =>
      cases hbegin : s.beginFrame f with
      | error e => simp [iterate, hopen, herr, hparse, hbegin] at hfill
      | ok t => simp [hparse, hbegin, Except.toOption] at h

/-! ## Payloads -/

theorem aggregate_ne_fill {msg : Http.BodyBuffer} {n : ℕ} {part : List Byte} {e : Event}
    (h : aggregate msg n part = .error e) : e ≠ .fill := by
  rw [aggregate] at h
  split at h <;> cases h <;> simp

theorem completeFrame_ne_fill (direct : Bool) (part : List Byte) :
    (s.completeFrame direct part).2 ≠ .fill := by
  simp only [completeFrame]
  split
  · split
    · split
      · simp
      · rename_i h
        exact aggregate_ne_fill h
    · simp
  · simp

theorem afterRun_ne_fill (direct : Bool) (part : List Byte) : (s.afterRun direct part).2 ≠
    .fill := by
  rw [afterRun]
  split
  · simp
  · exact completeFrame_ne_fill direct part

theorem takeRun_ne_fill (run : ℕ) (direct : Bool) (part : List Byte) :
    (s.takeRun run direct part).2 ≠ .fill := by
  rw [takeRun]
  split
  · exact afterRun_ne_fill direct part
  · split
    · exact afterRun_ne_fill direct part
    · rename_i h
      exact aggregate_ne_fill h

theorem closeEvent_ne_fill (l : List Byte) : closeEvent l ≠ .fill := by
  match l with
  | [] => simp [closeEvent]
  | [_] => simp [closeEvent]
  | a :: b :: rest =>
    rw [closeEvent]
    split <;> simp

theorem controlPayload_ne_fill (h : s.curRemaining ≤ s.inp.readable) :
    s.controlPayload.2 ≠ .fill := by
  rw [controlPayload, if_neg (not_lt.mpr h)]
  dsimp only
  split
  · simp
  · simp
  · exact closeEvent_ne_fill _
  · simp

/-- **When payload is waited for**: a control frame wants all of it, a data frame any of it. -/
theorem payload_fill_iff : s.payload.2 = .fill ↔
    if s.cur.opcode.isControl then s.inp.readable < s.curRemaining else s.inp.readable = 0 := by
  rw [payload]
  split_ifs with hop
  · constructor
    · intro h
      by_contra hlt
      exact controlPayload_ne_fill (not_lt.mp hlt) h
    · intro h
      rw [controlPayload, if_pos h]
  · rw [dataPayload]
    split_ifs with h
    · simp [h]
    · simp only [h, iff_false]
      exact takeRun_ne_fill _ _ _

theorem payload_fst_of_fill (h : s.payload.2 = .fill) : s.payload.1 = s := by
  have hcond := payload_fill_iff.mp h
  rw [payload]
  split_ifs at hcond ⊢
  · rw [controlPayload, if_pos hcond]
  · rw [dataPayload, if_pos hcond]

/-- The end of a final data frame is a message. -/
theorem afterRun_message (direct : Bool) (part : List Byte) (hrem : s.curRemaining = 0)
    (hfin : s.cur.fin = true) : ∃ op payload, (s.afterRun direct part).2 = .message op payload := by
  rw [afterRun, if_neg (by omega), completeFrame]
  simp [hfin]

/-- **A final data frame whose rest is in the window is taken to its end in one turn.** -/
theorem payload_message (hmsg : s.msg.Ok) (hop : s.cur.opcode.isControl = false)
    (hfin : s.cur.fin = true) (hrest : s.curRemaining ≤ s.inp.readable) (hne : s.inp.readable ≠ 0)
    (hsize : s.msg.size + s.curRemaining < 2 ^ 32) :
    ∃ op payload, s.payload.2 = .message op payload := by
  have hrun : min s.inp.readable s.curRemaining = s.curRemaining := min_eq_right hrest
  have hpart : (s.unmask (s.inp.unread.take s.curRemaining)).length = s.curRemaining := by
    simp [Receiver.length_unmask, hrest]
  rw [payload, if_neg (by simp [hop]), dataPayload, if_neg hne]
  simp only [hrun, takeRun]
  split
  · exact afterRun_message _ _ (Nat.sub_self _) hfin
  · obtain ⟨msg, hagg, -⟩ := Receiver.aggregate_ok hmsg
      (s.unmask (s.inp.unread.take s.curRemaining)) (by rwa [hpart])
    rw [hpart] at hagg
    rw [hagg]
    exact afterRun_message _ _ (Nat.sub_self _) hfin

/-- A wait for payload is one for bytes the frame still lacks, but for a hollow frame. -/
theorem fill_atHand_iff {t : Session} (h : t ∈ s.atHand) :
    (s.iterate.2 = .fill → ¬ s.iterate.1.Buffered) ↔ ¬ s.Hollow := by
  have hhollow : s.Hollow ↔
      t.cur.opcode.isControl = false ∧ t.curRemaining = 0 ∧ t.inp.readable = 0 := by
    simp [Hollow, Option.mem_def.mp h]
  rw [iterate_atHand h, hhollow]
  constructor
  · rintro hwait ⟨hop, hrem, hread⟩
    have hfill : t.payload.2 = .fill := payload_fill_iff.mpr (by simp [hop, hread])
    refine hwait hfill ?_
    rw [payload_fst_of_fill hfill, Buffered, if_pos (frameOpen_atHand h), hrem]
    exact Nat.zero_le _
  · intro hne hfill hbuf
    rw [payload_fst_of_fill hfill, Buffered, if_pos (frameOpen_atHand h)] at hbuf
    have hcond := payload_fill_iff.mp hfill
    split_ifs at hcond with hop
    · omega
    · exact hne ⟨by simpa using hop, by omega, hcond⟩

end Session

open Session

/-- **A session waits for the peer only for bytes it lacks, exactly when it is not at an empty data
frame with nothing behind it**, and outside that case a message whose last frame is in the window is
returned in this turn. -/
theorem waits_only_if_lacking_iff (s : Session) :
    ((s.iterate.2 = .fill → ¬ s.iterate.1.Buffered) ↔ ¬ s.Hollow) ∧
      (s.msg.Ok → s.LastBuffered → ¬ s.Hollow →
        ∃ op payload, s.iterate.2 = .message op payload) := by
  constructor
  · cases h : s.atHand with
    | some t => exact fill_atHand_iff h
    | none =>
      refine iff_of_true (fun hfill hbuf => ?_) (by simp [Hollow, h])
      obtain ⟨hopen, hs, hparse⟩ := iterate_of_atHand_none h hfill
      rw [hs, Buffered, if_neg (by simp [hopen])] at hbuf
      exact parse_ne_needMore hbuf hparse
  · rintro hmsg ⟨t, ht, hop, hfin, hrest, hsize⟩ hne
    rw [iterate_atHand ht]
    refine payload_message (msg_atHand ht hmsg) hop hfin hrest (fun hread => hne ?_) hsize
    exact ⟨t, ht, hop, by omega, hread⟩

/-- A text message of two bytes that came with the handshake. -/
theorem waits_only_if_lacking_hi :
    ∃ op payload, (Session.new .client 100 0 [0x81, 0x02, 0x68, 0x69] 1).iterate.2 =
      .message op payload := by
  refine (waits_only_if_lacking_iff (.new .client 100 0 [0x81, 0x02, 0x68, 0x69] 1)).2
    Http.BodyBuffer.ok_new ⟨_, rfl, rfl, rfl, by decide, by decide⟩ ?_
  rintro ⟨t, ht, -, hrem, -⟩
  cases ht
  exact absurd hrem (by decide)

/-- **An empty text message is in the window, and the session waits**: nothing of the frame is
missing, and it is not returned. -/
theorem empty_message_waits :
    (Session.new .client 100 0 [0x81, 0x00] 1).iterate.2 = .fill ∧
      (Session.new .client 100 0 [0x81, 0x00] 1).iterate.1.Buffered := by
  refine ⟨by decide, ?_⟩
  rw [Buffered, if_pos (by decide)]
  decide

end Cornet.Websocket
