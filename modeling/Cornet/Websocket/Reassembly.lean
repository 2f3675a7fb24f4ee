import Cornet.Websocket.Receiver

/-!
# Websocket/Reassembly — what the session makes of a sequence of frames

    none ──text, not final──▸ (text, "He") ──continue, final──▸ none      (text, "Hello") returned

A data frame finds a message open or not, and completes it or leaves it open (`assemble`,
`completed`): a middle frame replaces the opcode the session remembers by its own.
`Aligned.exists_frames` says that this is what the loop does with the frames of a stream, wherever
its reads end.
-/

namespace Cornet.Websocket

open List

open Http (HeadBuffer BodyBuffer)

/-! ## What the session makes of data frames -/

/-- The bytes of the open message. -/
def content (frag : Option (Opcode × List Byte)) : List Byte := frag.elim [] Prod.snd

/-- The open message after a data frame. -/
def assemble (frag : Option (Opcode × List Byte)) (f : WireFrame) : Option (Opcode × List Byte) :=
  if f.fin then none else some (f.opcode, content frag ++ f.payload)

/-- The message a data frame completes. -/
def completed (frag : Option (Opcode × List Byte)) (f : WireFrame) : List (Opcode × List Byte) :=
  if f.fin then [(frag.elim f.opcode Prod.fst, content frag ++ f.payload)] else []

/-- The frame may follow: a first frame, or a continuation of the open message. -/
def Follows (frag : Option (Opcode × List Byte)) (f : WireFrame) : Prop :=
  match frag with
  | none => f.opcode.isData = true
  | some _ => f.opcode = .continue

namespace Receiver

variable {c : Receiver} {role : Role} {max i : ℕ} {frag : Option (Opcode × List Byte)}
  {f : WireFrame} {rest : List Byte}

/-- At position `i` of the payload of a data frame. -/
structure Consuming (role : Role) (max : ℕ) (frag : Option (Opcode × List Byte)) (f : WireFrame)
    (i : ℕ) (rest : List Byte) (c : Receiver) : Prop where
  ready : c.Ready
  role_eq : c.session.role = role
  max_eq : c.session.max = max
  err : c.session.err = none
  frameOpen : c.session.frameOpen = true
  cur : c.session.cur = f.decoded role
  data : f.opcode.isControl = false
  fragmentOpen : c.session.fragmentOpen = frag.isSome
  fragOpcode : ∀ p ∈ frag, c.session.fragOpcode = p.1
  le : i ≤ f.payload.length
  remaining : c.session.curRemaining = f.payload.length - i
  msg : c.session.msg.view = content frag ++ f.payload.take i
  pending : c.pending = (f.body role).drop i ++ rest

theorem isControl_of_follows (h : Follows frag f) : f.opcode.isControl = false := by
  cases frag with
  | none =>
    change f.opcode.isData = true at h
    cases hop : f.opcode <;> rw [hop] at h <;> first | rfl | cases h
  | some p =>
    change f.opcode = .continue at h
    rw [h]
    rfl

/-- **The header of a data frame** that may follow. -/
theorem Aligned.exists_consuming (hc : c.Aligned role max frag (f.bytes role ++ rest))
    (hf : f.Valid) (hfollows : Follows frag f)
    (hmax : (content frag).length + f.payload.length ≤ max) :
    ∃ c', Same step obs c c' ∧ c'.delivered = c.delivered ∧
      c'.Consuming role max frag f 0 rest := by
  obtain rfl := hc.role_eq
  have hpending := hc.pending
  rw [WireFrame.bytes, append_assoc] at hpending
  have hmsg : ∀ p ∈ frag, c.session.msg.size = p.2.length := by
    intro p hp
    rw [← BodyBuffer.length_view, (hc.frag p hp).2]
  have hallowed : Allowed c.session f := by
    rw [Allowed, hc.max_eq, hc.fragmentOpen]
    cases frag with
    | none =>
      have hop : f.opcode.isData = true := hfollows
      rw [if_pos hop]
      exact ⟨rfl, by simpa [content] using hmax⟩
    | some p =>
      have hop : f.opcode = .continue := hfollows
      rw [hop, if_neg (by decide), if_pos rfl, hmsg p rfl]
      exact ⟨rfl, hmax⟩
  obtain ⟨b, inbox, hsame, hready, hrest⟩ := exists_opened hc.ready hc.frameOpen hc.err hf hallowed
    hpending
  refine ⟨_, hsame, rfl, ⟨hready, rfl, hc.max_eq, hc.err, rfl, rfl, isControl_of_follows hfollows,
    hc.fragmentOpen, fun p hp => (hc.frag p hp).1, Nat.zero_le _, rfl, ?_, hrest⟩⟩
  change (if f.opcode.isData = true then c.session.msg.clear else c.session.msg).view = _
  cases frag with
  | none =>
    have hop : f.opcode.isData = true := hfollows
    rw [if_pos hop]
    simp [content]
  | some p =>
    have hop : f.opcode = .continue := hfollows
    rw [hop, if_neg (by decide), (hc.frag p rfl).2]
    simp [content]

/-- The bytes of a run, unmasked. -/
theorem Consuming.part (hc : c.Consuming role max frag f i rest) {n : ℕ}
    (hn : n ≤ c.session.inp.readable) (hle : i + n ≤ f.payload.length) :
    c.session.unmask (c.session.inp.unread.take n) = (f.payload.drop i).take n := by
  have hpos : f.payload.length - (f.payload.length - i) = i := Nat.sub_sub_self hc.le
  have hlen : n ≤ ((f.body role).drop i).length := by
    rw [length_drop, WireFrame.length_body]
    omega
  have hwindow : c.session.inp.unread.take n = ((f.body role).drop i).take n := by
    have hpending : c.session.inp.unread ++ c.inbox.flatten = _ := hc.pending
    have := congrArg (List.take n) hpending
    rwa [take_append_of_le_length (by simpa using hn), take_append_of_le_length hlen]
      at this
  rw [hwindow, Session.unmask, hc.cur]
  cases role with
  | client => rfl
  | server =>
    change applyMask f.key (f.payload.length - c.session.curRemaining)
      (((xorKey f.key 0 f.payload).drop i).take n) = _
    rw [hc.remaining, hpos, xorKey_drop, xorKey_take, Nat.zero_add, applyMask_eq, xorKey_xorKey]

theorem Consuming.isControl_cur (hc : c.Consuming role max frag f i rest) :
    c.session.cur.opcode.isControl = false := by
  rw [hc.cur]
  exact hc.data

theorem Consuming.size_msg (hc : c.Consuming role max frag f i rest) :
    c.session.msg.size = (content frag).length + i := by
  rw [← BodyBuffer.length_view, hc.msg, length_append, length_take,
    Nat.min_eq_left hc.le]

/-- A turn in a data frame with nothing in the window. -/
theorem Consuming.iterate_fill (hc : c.Consuming role max frag f i rest)
    (h : c.session.inp.readable = 0) : c.session.iterate = (c.session, .fill) := by
  rw [Session.iterate, if_pos hc.frameOpen, Session.payload, if_neg (by simp [hc.isControl_cur]),
    Session.dataPayload, if_pos h]

/-- A turn in a data frame takes as much as the window and the frame have. -/
theorem Consuming.iterate_run (hc : c.Consuming role max frag f i rest)
    (h : c.session.inp.readable ≠ 0) {n : ℕ}
    (hn : n = min c.session.inp.readable (f.payload.length - i)) :
    c.session.iterate = c.session.takeRun n (!frag.isSome && n == f.payload.length)
      ((f.payload.drop i).take n) := by
  have hlen : c.session.cur.payloadLen = f.payload.length := by rw [hc.cur]; rfl
  have hle := hc.le
  have hpart := hc.part (n := n) (by omega) (by omega)
  rw [Session.iterate, if_pos hc.frameOpen, Session.payload, if_neg (by simp [hc.isControl_cur]),
    Session.dataPayload, if_neg h]
  simp only [hc.remaining, ← hn, hpart, hc.fragmentOpen, hlen]

theorem aggregate_ok {b : BodyBuffer} (h : b.Ok) (part : List Byte)
    (hsize : b.size + part.length < 2 ^ 32) :
    ∃ msg, Session.aggregate b (b.size + part.length) part = .ok msg ∧ msg.Ok ∧
      msg.view = b.view ++ part := by
  obtain ⟨msg, happend, hok, hview⟩ := h.append_grow hsize
  exact ⟨msg, by rw [Session.aggregate, happend], hok, hview⟩

/-- **A run that does not end its frame** moves on in it. -/
theorem Consuming.step_run (hc : c.Consuming role max frag f i rest)
    (h : c.session.inp.readable ≠ 0) (hless : c.session.inp.readable < f.payload.length - i)
    (hsize : (content frag).length + i + c.session.inp.readable < 2 ^ 32) :
    ∃ c', c.step = some c' ∧ c'.delivered = c.delivered ∧ c'.inbox = c.inbox ∧
      c'.Consuming role max frag f (i + c.session.inp.readable) rest := by
  set n := c.session.inp.readable with hn
  have hpart : ((f.payload.drop i).take n).length = n := by
    rw [length_take, length_drop]
    omega
  have hdirect : (!frag.isSome && n == f.payload.length) = false := by
    rw [beq_eq_false_iff_ne.mpr (by omega), Bool.and_false]
  obtain ⟨msg, hagg, hok, hview⟩ := aggregate_ok hc.ready.msg
    ((f.payload.drop i).take n) (by rw [hpart, hc.size_msg]; exact hsize)
  rw [hpart] at hagg
  have hiter := hc.iterate_run h (n := n) (by omega)
  rw [hdirect, Session.takeRun, if_neg Bool.false_ne_true, hagg] at hiter
  simp only at hiter
  rw [Session.afterRun, if_pos] at hiter
  swap
  · change 0 < c.session.curRemaining - n
    rw [hc.remaining]
    omega
  obtain ⟨heat, hunread, hcap⟩ := unread_eat hc.ready.inp (n := n) hn.le
  refine ⟨{ c with session := { c.session.eat n with msg := msg } }, by rw [step, hiter], rfl, rfl,
    ⟨⟨heat, hc.ready.le_cap.trans hcap.ge, hcap.trans_lt hc.ready.cap_lt, hc.ready.chunks, hok⟩,
      hc.role_eq, hc.max_eq, hc.err, hc.frameOpen, hc.cur, hc.data, hc.fragmentOpen, hc.fragOpcode,
      by omega, ?_, ?_, ?_⟩⟩
  · change c.session.curRemaining - n = _
    rw [hc.remaining]
    omega
  · rw [hview, hc.msg, append_assoc, take_add]
  · change (c.session.eat n).inp.unread ++ c.inbox.flatten = _
    have hpending : c.session.inp.unread ++ c.inbox.flatten = _ := hc.pending
    have hdrop := congrArg (List.drop n) hpending
    rw [hunread]
    rwa [drop_append_of_le_length (by simp [hn]), drop_append_of_le_length
      (by rw [length_drop, WireFrame.length_body]; omega), drop_drop] at hdrop

/-- A read in the middle of a data frame. -/
theorem Consuming.step_fill (hc : c.Consuming role max frag f i rest)
    (h : c.session.inp.readable = 0) (hin : c.inbox ≠ []) :
    ∃ c', c.step = some c' ∧ c'.delivered = c.delivered ∧
      c'.inbox.flatten.length < c.inbox.flatten.length ∧
        c'.Consuming role max frag f i rest := by
  have hcap := hc.ready.le_cap
  obtain ⟨b, inbox, hstep, hready, hpending, hless⟩ :=
    exists_read hc.ready (hc.iterate_fill h) hin (by omega)
  exact ⟨_, hstep, rfl, hless, ⟨hready, hc.role_eq, hc.max_eq, hc.err, hc.frameOpen, hc.cur,
    hc.data,
    hc.fragmentOpen, hc.fragOpcode, hc.le, hc.remaining, hc.msg, hpending.trans hc.pending⟩⟩

/-- **A data frame, however it arrives**, comes to its last run or to 4 GiB. -/
theorem Consuming.exists_run (hc : c.Consuming role max frag f i rest)
    (hmore : (f.body role).drop i ++ rest ≠ []) :
    ∃ c' i', Same step obs c c' ∧ c'.delivered = c.delivered ∧
      c'.Consuming role max frag f i' rest ∧ c'.session.inp.readable ≠ 0 ∧
      (f.payload.length - i' ≤ c'.session.inp.readable ∨
        2 ^ 32 ≤ (content frag).length + i' + c'.session.inp.readable) := by
  induction hk : c.inbox.flatten.length + (f.payload.length - i) using Nat.strong_induction_on
    generalizing c i with
  | _ k ih =>
    subst hk
    by_cases h : c.session.inp.readable = 0
    · have hin : c.inbox ≠ [] := by
        refine inbox_ne_nil ?_
        rw [h, hc.pending]
        exact length_pos_of_ne_nil hmore
      obtain ⟨d, hstep, hdel, hless, hd⟩ := hc.step_fill h hin
      obtain ⟨c', i', hsame, hdel', hc'⟩ := ih _ (by omega) hd hmore rfl
      exact ⟨c', i', (same_of_step hstep).trans hsame, hdel'.trans hdel, hc'⟩
    · by_cases hrun : f.payload.length - i ≤ c.session.inp.readable ∨
        2 ^ 32 ≤ (content frag).length + i + c.session.inp.readable
      · exact ⟨c, i, Same.refl c, rfl, hc, h, hrun⟩
      · rw [not_or, not_le, not_le] at hrun
        obtain ⟨d, hstep, hdel, hin, hd⟩ := hc.step_run h hrun.1 hrun.2
        have hmore' : (f.body role).drop (i + c.session.inp.readable) ++ rest ≠ [] := by
          refine append_ne_nil_of_left_ne_nil (ne_nil_of_length_pos ?_) rest
          rw [length_drop, WireFrame.length_body]
          omega
        obtain ⟨c', i', hsame, hdel', hc'⟩ := ih _ (by rw [hin]; omega) hd hmore' rfl
        exact ⟨c', i', (same_of_step hstep).trans hsame, hdel'.trans hdel, hc'⟩

theorem readable_le_cap (h : c.Ready) : c.session.inp.readable ≤ c.session.inp.cap := by
  have := h.inp.w_le
  rw [HeadBuffer.readable]
  omega

/-- **The run that reaches 4 GiB** is copied past the end of the buffer. -/
theorem Consuming.iterate_overrun (hc : c.Consuming role max frag f i rest)
    (h : c.session.inp.readable ≠ 0)
    (hsize : 2 ^ 32 ≤ (content frag).length + i +
      min c.session.inp.readable (f.payload.length - i)) :
    c.session.iterate.2 = .overrun := by
  set n := min c.session.inp.readable (f.payload.length - i) with hn
  have hcap := hc.ready.cap_lt
  have hle := readable_le_cap hc.ready
  have hi := hc.le
  have hpart : ((f.payload.drop i).take n).length = n := by
    rw [length_take, length_drop]
    omega
  have hdirect : (!frag.isSome && n == f.payload.length) = false := by
    rw [Bool.and_eq_false_imp, Bool.not_eq_true', Option.isSome_eq_false_iff,
      Option.isNone_iff_eq_none]
    rintro rfl
    rw [beq_eq_false_iff_ne]
    intro heq
    simp only [content, Option.elim_none, length_nil] at hsize
    omega
  have hover := hc.ready.msg.overrun_grow (l := (f.payload.drop i).take n) (by omega)
    (by rw [hpart, hc.size_msg]; exact hsize)
  rw [hpart] at hover
  rw [hc.iterate_run h hn, hdirect, Session.takeRun, if_neg Bool.false_ne_true, Session.aggregate,
    hover]

/-- **The end of a data frame**: the message is delivered, or stays open under the frame's own
opcode. -/
theorem completeFrame_eq {s : Session} {direct : Bool} {part : List Byte} (hmsg : s.msg.Ok)
    (hcur : s.cur = f.decoded role) (hopen : s.fragmentOpen = frag.isSome)
    (hop : ∀ p ∈ frag, s.fragOpcode = p.1)
    (h : direct = false ∧ s.msg.view = content frag ++ f.payload ∨
      direct = true ∧ frag = none ∧ s.msg.view = [] ∧ part = f.payload ∧ part.length < 2 ^ 32) :
    ∃ s', s.completeFrame direct part = (s', if f.fin then
          .message (frag.elim f.opcode Prod.fst) (content frag ++ f.payload) else .again) ∧
      s' = { s with frameOpen := false, fragmentOpen := s'.fragmentOpen,
                    fragOpcode := s'.fragOpcode, msg := s'.msg } ∧
      s'.fragmentOpen = (assemble frag f).isSome ∧
      (∀ p ∈ assemble frag f, s'.fragOpcode = p.1 ∧ s'.msg.view = p.2) ∧ s'.msg.Ok := by
  have hopcode : (if s.fragmentOpen then s.fragOpcode else s.cur.opcode) =
      frag.elim f.opcode Prod.fst := by
    rw [hopen, hcur]
    cases frag with
    | none => rfl
    | some p => exact hop p rfl
  have hfin : s.cur.fin = f.fin := by rw [hcur]; rfl
  have hop' : s.cur.opcode = f.opcode := by rw [hcur]; rfl
  rw [Session.completeFrame, hopcode, hfin]
  rcases h with ⟨rfl, hview⟩ | ⟨rfl, rfl, hview, rfl, hlt⟩
  · rw [hview]
    cases hf : f.fin with
    | true => exact ⟨_, rfl, rfl, by simp [assemble, hf], by simp [assemble, hf], hmsg⟩
    | false =>
      exact ⟨_, rfl, rfl, by simp [assemble, hf], by simp [assemble, hf, hop', hview], hmsg⟩
  · have hsize : s.msg.size = 0 := by rw [← BodyBuffer.length_view, hview, length_nil]
    cases hf : f.fin with
    | true => exact ⟨_, rfl, rfl, by simp [assemble, hf, hopen], by simp [assemble, hf], hmsg⟩
    | false =>
      obtain ⟨msg, hagg, hok, hview'⟩ := aggregate_ok hmsg f.payload (by omega)
      rw [hsize, Nat.zero_add] at hagg
      have hopen' : s.fragmentOpen = false := hopen
      refine ⟨{ s with frameOpen := false, fragmentOpen := true, fragOpcode := f.opcode,
                       msg := msg },
        ?_, rfl, by simp [assemble, hf], ?_, hok⟩
      · simp [hopen', hop', hagg]
      · simp [assemble, hf, hview', hview, content]

/-- With its last run in the aggregation buffer, or in the window alone, a frame is complete. -/
theorem Consuming.iterate_last (hc : c.Consuming role max frag f i rest)
    (h : c.session.inp.readable ≠ 0) (hlast : f.payload.length - i ≤ c.session.inp.readable)
    (hsize : (content frag).length + f.payload.length < 2 ^ 32) :
    ∃ msg direct, BodyBuffer.Ok msg ∧
      c.session.iterate =
        { c.session.eat (f.payload.length - i) with msg := msg }.completeFrame direct
          (f.payload.drop i) ∧
      (direct = false ∧ msg.view = content frag ++ f.payload ∨ direct = true ∧ frag = none ∧
        msg.view = [] ∧ f.payload.drop i = f.payload ∧ (f.payload.drop i).length < 2 ^ 32) := by
  have hi := hc.le
  have hpart : (f.payload.drop i).take (f.payload.length - i) = f.payload.drop i :=
    take_of_length_le (by rw [length_drop])
  have hdone : ¬ 0 < c.session.curRemaining - (f.payload.length - i) := by
    rw [hc.remaining]
    omega
  have hiter := hc.iterate_run h (n := f.payload.length - i) (by omega)
  rw [hpart] at hiter
  cases hdirect : (!frag.isSome && f.payload.length - i == f.payload.length) with
  | true =>
    rw [hdirect, Session.takeRun, if_pos rfl] at hiter
    rw [Bool.and_eq_true, Bool.not_eq_true', Option.isSome_eq_false_iff,
      Option.isNone_iff_eq_none, beq_iff_eq] at hdirect
    obtain rfl := hdirect.1
    obtain rfl : i = 0 := by omega
    refine ⟨c.session.msg, true, hc.ready.msg, hiter.trans (if_neg hdone),
      .inr ⟨rfl, rfl, hc.msg, rfl, ?_⟩⟩
    exact lt_of_le_of_lt (Nat.le_add_left _ _) hsize
  | false =>
    rw [hdirect, Session.takeRun, if_neg Bool.false_ne_true] at hiter
    obtain ⟨msg, hagg, hok, hview⟩ := aggregate_ok hc.ready.msg (f.payload.drop i)
      (by rw [length_drop, hc.size_msg]; omega)
    rw [length_drop] at hagg
    rw [hagg] at hiter
    refine ⟨msg, false, hok, hiter.trans (if_neg hdone), .inl ⟨rfl, ?_⟩⟩
    rw [hview, hc.msg, append_assoc, take_append_drop]

/-- **The last run of a data frame** completes it. -/
theorem Consuming.step_last (hc : c.Consuming role max frag f i rest)
    (h : c.session.inp.readable ≠ 0) (hlast : f.payload.length - i ≤ c.session.inp.readable)
    (hsize : (content frag).length + f.payload.length < 2 ^ 32) :
    ∃ c', c.step = some c' ∧ c'.delivered = c.delivered ++ completed frag f ∧
      c'.Aligned role max (assemble frag f) rest := by
  obtain ⟨msg, direct, hok, hiter, hmsg⟩ := hc.iterate_last h hlast hsize
  obtain ⟨heat, hunread, hcap⟩ := unread_eat hc.ready.inp hlast
  obtain ⟨s', hcomplete, hs', hopen, hfrag, hok'⟩ :=
    completeFrame_eq (s := { c.session.eat (f.payload.length - i) with msg := msg }) hok hc.cur
      hc.fragmentOpen hc.fragOpcode hmsg
  rw [hcomplete] at hiter
  refine ⟨{ c with session := s', delivered := c.delivered ++ completed frag f }, ?_, rfl, ?_⟩
  · rw [step, hiter, completed]
    cases f.fin <;> simp
  · have hinp : s'.inp = (c.session.eat (f.payload.length - i)).inp := by rw [hs']
    refine ⟨⟨?_, ?_, ?_, hc.ready.chunks, hok'⟩, ?_, ?_, ?_, ?_, hopen, hfrag, ?_⟩
    · exact hinp ▸ heat
    · exact hc.ready.le_cap.trans (hcap.ge.trans (congrArg HeadBuffer.cap hinp).ge)
    · exact ((congrArg HeadBuffer.cap hinp).trans hcap).trans_lt hc.ready.cap_lt
    · rw [hs']; exact hc.role_eq
    · rw [hs']; exact hc.max_eq
    · rw [hs']
    · rw [hs']; exact hc.err
    · change s'.inp.unread ++ c.inbox.flatten = rest
      have hpending : c.session.inp.unread ++ c.inbox.flatten = _ := hc.pending
      have hdrop := congrArg (List.drop (f.payload.length - i)) hpending
      rw [hinp, hunread]
      rwa [drop_append_of_le_length (by simpa using hlast),
        drop_left' (by rw [length_drop, WireFrame.length_body])] at hdrop

/-! ## Whole frames -/

/-- **A data frame** that may follow, below 4 GiB and with more to come or a payload. -/
theorem Aligned.exists_data (hc : c.Aligned role max frag (f.bytes role ++ rest)) (hf : f.Valid)
    (hfollows : Follows frag f) (hmax : (content frag).length + f.payload.length ≤ max)
    (hsize : (content frag).length + f.payload.length < 2 ^ 32)
    (hmore : f.payload ≠ [] ∨ rest ≠ []) :
    ∃ c', Same step obs c c' ∧ c'.delivered = c.delivered ++ completed frag f ∧
      c'.Aligned role max (assemble frag f) rest := by
  obtain ⟨d, hsame, hdel, hd⟩ := hc.exists_consuming hf hfollows hmax
  have hmore' : (f.body role).drop 0 ++ rest ≠ [] := by
    rcases hmore with h | h
    · refine append_ne_nil_of_left_ne_nil (ne_nil_of_length_pos ?_) rest
      rw [drop_zero, WireFrame.length_body]
      exact length_pos_of_ne_nil h
    · exact append_ne_nil_of_right_ne_nil _ h
  obtain ⟨e, i, hsame', hdel', he, hread, hrun⟩ := hd.exists_run hmore'
  have hlast : f.payload.length - i ≤ e.session.inp.readable := by
    rcases hrun with h | h
    · exact h
    · omega
  obtain ⟨c', hstep, hdel'', hc'⟩ := he.step_last hread hlast hsize
  exact ⟨c', (hsame.trans hsame').trans (same_of_step hstep), by rw [hdel'', hdel', hdel], hc'⟩

/-- **A data frame that takes its message to 4 GiB** ends the run in a copy past the buffer. -/
theorem Aligned.exists_overrun (hc : c.Aligned role max frag (f.bytes role ++ rest)) (hf : f.Valid)
    (hfollows : Follows frag f) (hmax : (content frag).length + f.payload.length ≤ max)
    (hsize : 2 ^ 32 ≤ (content frag).length + f.payload.length)
      (hfrag : (content frag).length < 2 ^ 32) :
    ∃ c', Same step obs c c' ∧ c'.session.iterate.2 = .overrun := by
  obtain ⟨d, hsame, hdel, hd⟩ := hc.exists_consuming hf hfollows hmax
  have hmore' : (f.body role).drop 0 ++ rest ≠ [] := by
    refine append_ne_nil_of_left_ne_nil (ne_nil_of_length_pos ?_) rest
    rw [drop_zero, WireFrame.length_body]
    omega
  obtain ⟨e, i, hsame', hdel', he, hread, hrun⟩ := hd.exists_run hmore'
  have hi := he.le
  exact ⟨e, hsame.trans hsame', he.iterate_overrun hread (by omega)⟩

/-- Everything the peer has sent is consumed. -/
theorem Ready.of_pending_nil (hc : c.Ready) (h : c.pending = []) :
    c.session.inp.readable = 0 ∧ c.inbox = [] := by
  obtain ⟨hunread, hinbox⟩ := append_eq_nil_iff.mp h
  refine ⟨by rw [← HeadBuffer.length_unread, hunread, length_nil], ?_⟩
  refine eq_nil_iff_forall_not_mem.mpr fun chunk hchunk => hc.chunks chunk hchunk ?_
  exact flatten_eq_nil_iff.mp hinbox chunk hchunk

/-- **An empty data frame at the end of the stream** is not completed. -/
theorem Aligned.exists_waiting (hc : c.Aligned role max frag (f.bytes role)) (hf : f.Valid)
    (hfollows : Follows frag f) (hmax : (content frag).length + f.payload.length ≤ max)
    (hempty : f.payload = []) :
    ∃ c', Same step obs c c' ∧ c'.delivered = c.delivered ∧ c'.Waiting := by
  rw [← append_nil (f.bytes role)] at hc
  obtain ⟨d, hsame, hdel, hd⟩ := hc.exists_consuming hf hfollows hmax
  have hnil : d.pending = [] := by
    have hbody := WireFrame.length_body role f
    rw [hempty, length_nil] at hbody
    rw [hd.pending, eq_nil_of_length_eq_zero hbody, drop_nil, nil_append]
  obtain ⟨hread, hin⟩ := hd.ready.of_pending_nil hnil
  exact ⟨d, hsame, hdel, by rw [hd.iterate_fill hread], hin⟩

/-- The end of the stream between two frames. -/
theorem Aligned.waiting (hc : c.Aligned role max frag []) : c.Waiting := by
  obtain ⟨hread, hin⟩ := hc.ready.of_pending_nil hc.pending
  have hunread : c.session.inp.unread = [] := by
    rw [← length_eq_zero_iff, HeadBuffer.length_unread, hread]
  refine ⟨?_, hin⟩
  rw [Session.iterate, if_neg (by simp [hc.frameOpen]), hc.err]
  simp only [hunread, parse]

/-! ## Sequences of frames -/

/-- The frames of the messages, without their keys; Pings and Pongs fall out. -/
def dataFrames (frames : List WireFrame) : List WireFrame :=
  (frames.filter fun f => !f.opcode.isControl).map fun f => { f with key := 0 }

/-- Each data frame with the message it finds open. -/
def stages : Option (Opcode × List Byte) → List WireFrame →
    List (Option (Opcode × List Byte) × WireFrame)
  | _, [] => []
  | frag, f :: fs => (frag, f) :: stages (assemble frag f) fs

/-- The size of the message with the frame. -/
def total (p : Option (Opcode × List Byte) × WireFrame) : ℕ :=
  (content p.1).length + p.2.payload.length

/-- What the session returns for a sequence of data frames. -/
def gather (frag : Option (Opcode × List Byte)) (fs : List WireFrame) : List (Opcode × List Byte) :=
  (stages frag fs).flatMap fun p => completed p.1 p.2

theorem stages_append : ∀ (frag : Option (Opcode × List Byte)) (fs fs' : List WireFrame),
    stages frag (fs ++ fs') = stages frag fs ++ stages (fs.foldl assemble frag) fs'
  | _, [], _ => rfl
  | frag, f :: fs, fs' => by
      rw [cons_append, stages, stages_append, stages, cons_append, foldl_cons]

theorem dataFrames_cons (f : WireFrame) (fs : List WireFrame) : dataFrames (f :: fs) =
    if f.opcode.isControl then dataFrames fs else { f with key := 0 } :: dataFrames fs := by
  cases h : f.opcode.isControl <;> simp [dataFrames, h]

theorem bytes_ne_nil (role : Role) (f : WireFrame) : f.bytes role ≠ [] := by
  simp [WireFrame.bytes, WireFrame.header]

theorem length_content_assemble (frag : Option (Opcode × List Byte)) (f : WireFrame) :
    (content (assemble frag f)).length ≤ total (frag, f) := by
  rw [assemble, total]
  split <;> simp [content]

/-- Some bytes follow the header of a data frame that is not an empty one at the end. -/
theorem more_of_getLast {fs : List WireFrame} {tail : List Byte} (hop : f.opcode.isControl = false)
    (h : ∀ g ∈ (f :: fs).getLast?, g.opcode.isControl = false → g.payload ≠ [] ∨ tail ≠ []) :
    f.payload ≠ [] ∨ fs.flatMap (WireFrame.bytes role) ++ tail ≠ [] := by
  cases fs with
  | nil => exact h f rfl hop
  | cons g fs => exact .inr (by simp [bytes_ne_nil])

/-- **A sequence of frames**, however it arrives: the session gathers the messages, or one of them
reaches 4 GiB. -/
theorem Aligned.exists_frames : ∀ (frames : List WireFrame) {c : Receiver}
    {frag : Option (Opcode × List Byte)} {tail : List Byte},
    c.Aligned role max frag (frames.flatMap (WireFrame.bytes role) ++ tail) →
    (∀ f ∈ frames, f.Valid) →
    (∀ f ∈ frames, f.opcode.isControl = true → f.opcode = .ping ∨ f.opcode = .pong) →
    (∀ p ∈ stages frag (dataFrames frames), Follows p.1 p.2 ∧ total p ≤ max) →
    (content frag).length < 2 ^ 32 →
    (∀ f ∈ frames.getLast?, f.opcode.isControl = false → f.payload ≠ [] ∨ tail ≠ []) →
    ((∀ p ∈ stages frag (dataFrames frames), total p < 2 ^ 32) ∧
      ∃ c', Same step obs c c' ∧ c'.delivered = c.delivered ++ gather frag (dataFrames frames) ∧
        c'.Aligned role max ((dataFrames frames).foldl assemble frag) tail) ∨
    ((∃ p ∈ stages frag (dataFrames frames), 2 ^ 32 ≤ total p) ∧
      ∃ c', Same step obs c c' ∧ c'.session.iterate.2 = .overrun)
  | [], c, _, _, hc, _, _, _, _, _ =>
      .inl ⟨fun _ h => (not_mem_nil h).elim, c, Same.refl c, (append_nil _).symm, hc⟩
  | f :: fs, c, frag, tail, hc, hvalid, hcontrol, hstages, hfrag, hlast => by
      rw [flatMap_cons, append_assoc] at hc
      have hvalid' := fun g hg => hvalid g (mem_cons_of_mem f hg)
      have hcontrol' := fun g hg => hcontrol g (mem_cons_of_mem f hg)
      have hlast' : ∀ g ∈ fs.getLast?, g.opcode.isControl = false → g.payload ≠ [] ∨ tail ≠ [] := by
        intro g hg
        refine hlast g ?_
        rw [getLast?_cons, Option.mem_def.mp hg]
        rfl
      rw [dataFrames_cons] at hstages ⊢
      cases hop : f.opcode.isControl with
      | true =>
        rw [hop, if_pos rfl] at hstages
        obtain ⟨d, hsame, hdel, hd⟩ := hc.exists_control (hvalid f mem_cons_self)
          (hcontrol f mem_cons_self hop)
        rw [if_pos rfl]
        rcases exists_frames fs hd hvalid' hcontrol' hstages hfrag hlast' with
          ⟨hsize, c', hsame', hdel', hc'⟩ | ⟨hsize, c', hsame', hover⟩
        · exact .inl ⟨hsize, c', hsame.trans hsame', by rw [hdel', hdel], hc'⟩
        · exact .inr ⟨hsize, c', hsame.trans hsame', hover⟩
      | false =>
        rw [hop, if_neg Bool.false_ne_true] at hstages
        rw [if_neg Bool.false_ne_true]
        obtain ⟨hfollows, hmax⟩ := hstages _ mem_cons_self
        have hstages' := fun p hp => hstages p (mem_cons_of_mem _ hp)
        by_cases hsize : 2 ^ 32 ≤ total (frag, f)
        · exact .inr ⟨⟨_, mem_cons_self, hsize⟩,
            hc.exists_overrun (hvalid f mem_cons_self) hfollows hmax hsize hfrag⟩
        · have hsize := not_le.mp hsize
          obtain ⟨d, hsame, hdel, hd⟩ := hc.exists_data (hvalid f mem_cons_self) hfollows hmax
            hsize (more_of_getLast hop hlast)
          rcases exists_frames fs hd hvalid' hcontrol' hstages'
            ((length_content_assemble frag f).trans_lt hsize) hlast' with
            ⟨hsizes, c', hsame', hdel', hc'⟩ | ⟨⟨p, hp, hlarge⟩, c', hsame', hover⟩
          · refine .inl ⟨forall_mem_cons.mpr ⟨hsize, hsizes⟩, c', hsame.trans hsame', ?_, hc'⟩
            rw [hdel', hdel, append_assoc]
            rfl
          · exact .inr ⟨⟨p, mem_cons_of_mem _ hp, hlarge⟩, c', hsame.trans hsame', hover⟩

end Receiver

end Cornet.Websocket
