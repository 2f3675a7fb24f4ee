import Cornet.Machinery.Halt
import Cornet.Websocket.Codec
import Cornet.Websocket.Session

/-!
# Websocket/Receiver — successive `recv()` calls over a byte stream cut into reads

    reads:  |───────|──|─────────────|⋯          unread ++ reads = what is still to come
    frames: |────|────────|──────|────|⋯

`Receiver.step` drives the loop of a session with the reads at hand; Pongs go out at once, a
complete message is what one call of `recv` returns, and the next call goes on with the loop.  A
read longer than the room in the window leaves the rest for the next read.
-/

namespace Cornet.Websocket

open List Http.HeadBuffer

open Http (HeadBuffer BodyBuffer)

/-- A session being read from, with the reads to come and the messages returned so far. -/
structure Receiver where
  session : Session
  inbox : List (List Byte)
  delivered : List (Opcode × List Byte) := []

namespace Receiver

/-- The session with a read's bytes, and what the read leaves for the next one. -/
def read (c : Receiver) (s : Session) (chunk : List Byte) (rest : List (List Byte)) : Receiver :=
  let room := s.fillBuffer.room
  { c with
    session := s.filled (chunk.take room)
    inbox := if chunk.length ≤ room then rest else chunk.drop room :: rest }

/-- One turn of the loop and what follows it.  An empty read is the end of the input; without room
`fill` fails. -/
def step (c : Receiver) : Option Receiver :=
  match c.session.iterate with
  | (s, .again) => some { c with session := s }
  | (s, .pong _) => some { c with session := s }
  | (s, .message op payload) =>
    some { c with session := s, delivered := c.delivered ++ [(op, payload)] }
  | (s, .fill) =>
    match c.inbox with
    | [] => none
    | chunk :: rest =>
      if chunk = [] ∨ s.fillBuffer.room = 0 then none else some (c.read s chunk rest)
  | _ => none

/-- The receiver waits for the peer, having read everything. -/
def Waiting (c : Receiver) : Prop := c.session.iterate.2 = .fill ∧ c.inbox = []

/-- **Successive calls of `recv` return exactly these messages**, and the next one waits. -/
def Receives (c : Receiver) (l : List (Opcode × List Byte)) : Prop :=
  ∃ c', Relation.ReflTransGen (fun a b => step a = some b) c c' ∧ c'.Waiting ∧ c'.delivered = l

/-- What a stopped receiver shows. -/
def obs (c : Receiver) : Event × List (List Byte) × List (Opcode × List Byte) :=
  (c.session.iterate.2, c.inbox, c.delivered)

variable {c d : Receiver} {l : List (Opcode × List Byte)}

theorem Waiting.step_eq_none (h : c.Waiting) : c.step = none := by
  obtain ⟨hev, hin⟩ := h
  rw [step]
  split <;> simp_all

theorem receives_iff : c.Receives l ↔ EndsIn step obs c (.fill, [], l) := by
  constructor
  · rintro ⟨c', hrun, hwait, hl⟩
    exact ⟨c', hrun, hwait.step_eq_none, by rw [obs, hwait.1, hwait.2, hl]⟩
  · rintro ⟨c', hrun, -, hobs⟩
    simp only [obs, Prod.mk.injEq] at hobs
    exact ⟨c', hrun, ⟨hobs.1, hobs.2.1⟩, hobs.2.2⟩

theorem receives_of_waiting (h : c.Waiting) : c.Receives l ↔ c.delivered = l := by
  rw [receives_iff, endsIn_of_none h.step_eq_none, obs, h.1, h.2]
  simp

theorem receives_of_same (h : Same step obs c d) : c.Receives l ↔ d.Receives l := by
  rw [receives_iff, receives_iff, h]

/-- A receiver that copied past its buffer returns nothing more. -/
theorem not_receives_of_overrun (h : c.session.iterate.2 = .overrun) : ¬ c.Receives l := by
  have hstop : c.step = none := by
    rw [step]
    split <;> simp_all
  rw [receives_iff, endsIn_of_none hstop, obs, h]
  simp

/-- What the peer has sent and the session has not consumed. -/
def pending (c : Receiver) : List Byte := c.session.inp.unread ++ c.inbox.flatten

/-- The buffers are in order, and no read is empty. -/
structure Ready (c : Receiver) : Prop where
  inp : c.session.inp.Ok
  le_cap : 4096 ≤ c.session.inp.cap
  cap_lt : c.session.inp.cap < 2 ^ 32
  chunks : ∀ chunk ∈ c.inbox, chunk ≠ []
  msg : c.session.msg.Ok

/-- The receiver after some reads: another window, fewer reads to come. -/
def withInput (c : Receiver) (b : HeadBuffer) (inbox : List (List Byte)) : Receiver :=
  { c with session := { c.session with inp := b }, inbox := inbox }

theorem cap_fillBuffer (s : Session) : s.fillBuffer.cap = s.inp.cap := by
  rw [Session.fillBuffer]
  split
  · exact cap_compact
  · rfl

theorem unread_fillBuffer (s : Session) : s.fillBuffer.unread = s.inp.unread := by
  rw [Session.fillBuffer]
  split
  · exact unread_compact
  · rfl

theorem ok_fillBuffer {s : Session} (h : s.inp.Ok) : s.fillBuffer.Ok := by
  rw [Session.fillBuffer]
  split
  · exact h.compact
  · exact h

theorem room_fillBuffer {s : Session} (h : s.inp.readable < s.inp.cap) : s.fillBuffer.room ≠ 0 := by
  rw [Session.fillBuffer]
  split
  · rw [room_compact]
    omega
  · assumption

/-- **A read that the loop waits for**: the stream is the same, the window larger. -/
theorem exists_read (hc : c.Ready) (hfill : c.session.iterate = (c.session, .fill))
    (hin : c.inbox ≠ []) (hroom : c.session.inp.readable < c.session.inp.cap) :
    ∃ b inbox, c.step = some (c.withInput b inbox) ∧ (c.withInput b inbox).Ready ∧
      (c.withInput b inbox).pending = c.pending ∧
        inbox.flatten.length < c.inbox.flatten.length := by
  obtain ⟨chunk, rest, hinbox⟩ := exists_cons_of_ne_nil hin
  have hroom := room_fillBuffer hroom
  have hchunk : chunk ≠ [] := hc.chunks chunk (by simp [hinbox])
  have hcap := cap_fillBuffer c.session
  refine ⟨c.session.fillBuffer.put (chunk.take c.session.fillBuffer.room),
    if chunk.length ≤ c.session.fillBuffer.room then rest
    else chunk.drop c.session.fillBuffer.room :: rest, ?_, ?_, ?_, ?_⟩
  · rw [step, hfill]
    simp only [hinbox]
    rw [if_neg (by simp [hchunk, hroom])]
    rfl
  · refine ⟨(ok_fillBuffer hc.inp).put (length_take_le _ _), ?_, ?_, ?_, hc.msg⟩
    · exact hc.le_cap.trans hcap.ge
    · exact lt_of_eq_of_lt hcap hc.cap_lt
    · intro l hl
      change l ∈ (if _ then rest else _) at hl
      split at hl
      · exact hc.chunks l (by simp [hinbox, hl])
      · rename_i hlen
        rcases mem_cons.mp hl with rfl | hl
        · simpa using hlen
        · exact hc.chunks l (by simp [hinbox, hl])
  · change (c.session.fillBuffer.put _).unread ++ (if _ then rest else _).flatten = _
    rw [(ok_fillBuffer hc.inp).unread_put, unread_fillBuffer, pending, hinbox]
    split
    · rename_i hlen
      simp [take_of_length_le hlen]
    · rw [flatten_cons, flatten_cons, append_assoc, ← append_assoc (chunk.take _),
        take_append_drop]
  · have hpos := length_pos_of_ne_nil hchunk
    rw [hinbox]
    split
    · simp only [flatten_cons, length_append]
      omega
    · simp only [flatten_cons, length_append, length_drop]
      omega

theorem unread_prefix (c : Receiver) : c.session.inp.unread <+: c.pending := ⟨_, rfl⟩

theorem inbox_ne_nil (h : c.session.inp.readable < c.pending.length) : c.inbox ≠ [] := by
  rintro hin
  simp [pending, hin] at h

/-- **Waiting for `k` bytes.**  If every window shorter than `k` makes the loop read, it reads until
the window has them. -/
theorem exists_wait (hc : c.Ready) {k : ℕ} (hk : k ≤ 4096) (hlen : k ≤ c.pending.length)
    (hfill : ∀ b : HeadBuffer, b.unread <+: c.pending → b.readable < k →
      ({ c.session with inp := b } : Session).iterate = ({ c.session with inp := b }, .fill)) :
    ∃ b inbox, Same step obs c (c.withInput b inbox) ∧ (c.withInput b inbox).Ready ∧
      (c.withInput b inbox).pending = c.pending ∧ k ≤ b.readable := by
  induction hn : c.inbox.flatten.length using Nat.strong_induction_on generalizing c with
  | _ n ih =>
    subst hn
    by_cases hb : k ≤ c.session.inp.readable
    · exact ⟨c.session.inp, c.inbox, Same.refl c, hc, rfl, hb⟩
    · have hb := not_le.mp hb
      have hcap := hc.le_cap
      obtain ⟨b, inbox, hstep, hready, hpending, hless⟩ :=
        exists_read hc (hfill c.session.inp c.unread_prefix hb) (inbox_ne_nil (hb.trans_le hlen))
          (by omega)
      obtain ⟨b', inbox', hsame, hready', hpending', hk'⟩ := ih _ hless hready (hpending ▸ hlen)
        (fun b' hb' => hfill b' (hpending ▸ hb')) rfl
      exact ⟨b', inbox', (same_of_step hstep).trans hsame, hready', hpending'.trans hpending, hk'⟩

/-! ## Headers -/

/-- The loop makes the same turn with the header consumed as before. -/
theorem iterate_of_parse {s s' : Session} {f : Frame} (hopen : s.frameOpen = false)
    (herr : s.err = none) (hparse : parse s.role s.inp.unread = .frame f)
    (hbegin : s.beginFrame f = .ok s') (hopen' : s'.frameOpen = true) : s.iterate = s'.iterate := by
  rw [Session.iterate, if_neg (by simp [hopen]), herr]
  simp only [hparse, hbegin]
  rw [Session.iterate, if_pos hopen']

/-- Receivers whose loops make the same turn go on alike. -/
theorem same_of_iterate (h : c.session.iterate = d.session.iterate) (hin : c.inbox = d.inbox)
    (hdel : c.delivered = d.delivered) : Same step obs c d := by
  obtain ⟨s, inbox, delivered⟩ := c
  obtain ⟨s', inbox', delivered'⟩ := d
  obtain rfl : inbox = inbox' := hin
  obtain rfl : delivered = delivered' := hdel
  refine same_of_eq ?_ (by simp only [obs, h])
  simp only [step, h]
  rfl

/-- A session whose frame header has been consumed. -/
def opened (s : Session) (f : Frame) (b : HeadBuffer) : Session :=
  { s with
    msg := if f.opcode.isData then s.msg.clear else s.msg
    inp := b
    cur := f
    curRemaining := f.payloadLen
    frameOpen := true }

/-- The receiver at the payload of a frame. -/
def atFrame (c : Receiver) (f : Frame) (b : HeadBuffer) (inbox : List (List Byte)) : Receiver :=
  { c with session := opened c.session f b, inbox := inbox }

/-- What the session allows next: a new message, or more of the one that is open. -/
def Allowed (s : Session) (f : WireFrame) : Prop :=
  if f.opcode.isData then s.fragmentOpen = false ∧ f.payload.length ≤ s.max
  else if f.opcode = .continue then
    s.fragmentOpen = true ∧ s.msg.size + f.payload.length ≤ s.max
  else True

theorem beginFrame_of_allowed {s : Session} {f : WireFrame} (h : Allowed s f) (role : Role) :
    s.beginFrame (f.decoded role) = .ok (opened s (f.decoded role)
      (s.inp.consume (f.header role).length)) := by
  by_cases hdata : f.opcode.isData = true
  · simp only [Allowed, hdata, if_true] at h
    simp [Session.beginFrame, opened, Session.openFrame, hdata, h.1, not_lt.mpr h.2,
      WireFrame.decoded]
  · by_cases hcont : f.opcode = .continue
    · simp only [Allowed, hcont, if_true] at h
      simp [Session.beginFrame, opened, Session.openFrame, hcont, h.1, not_lt.mpr h.2,
        WireFrame.decoded, show Opcode.isData .continue = false from rfl]
    · simp [Session.beginFrame, opened, Session.openFrame, hdata, hcont, WireFrame.decoded]

theorem length_header_le (role : Role) (f : WireFrame) : (f.header role).length ≤ 14 := by
  have hext : (extBytes f.payload.length).length ≤ 8 := by
    rw [extBytes]
    split
    · exact Nat.zero_le _
    · split <;> simp
  cases role <;> simp [header_eq, keyPart, keyBytes] <;> omega

/-- **The header of the next frame**, however it arrives, is consumed. -/
theorem exists_opened (hc : c.Ready) {f : WireFrame} {rest : List Byte}
    (hopen : c.session.frameOpen = false) (herr : c.session.err = none)
    (hf : f.Valid) (hallowed : Allowed c.session f)
    (hpending : c.pending = f.header c.session.role ++ rest) :
    ∃ b inbox, Same step obs c (c.atFrame (f.decoded c.session.role) b inbox) ∧
      (c.atFrame (f.decoded c.session.role) b inbox).Ready ∧
        (c.atFrame (f.decoded c.session.role) b inbox).pending = rest := by
  have hlen := length_header_le c.session.role f
  obtain ⟨b, inbox, hsame, hready, hpending', hb⟩ := exists_wait hc
    (k := (f.header c.session.role).length) (by omega) (by simp [hpending]) (fun b hb hk => by
      have htake : b.unread = (f.header c.session.role ++ rest).take b.readable := by
        rw [← hpending, ← length_unread]
        exact (prefix_iff_eq_take.mp hb)
      rw [Session.iterate, if_neg (by simp [hopen]), herr]
      simp only [htake, parse_take_header hf rest hk])
  have hsplit : b.unread ++ inbox.flatten = f.header c.session.role ++ rest :=
    hpending'.trans hpending
  obtain ⟨more, hmore⟩ : ∃ more, b.unread = f.header c.session.role ++ more := by
    refine (prefix_of_prefix_length_le ⟨rest, hsplit.symm⟩ ⟨_, rfl⟩ ?_).imp fun _ h => h.symm
    rwa [length_unread]
  have hparse : parse c.session.role b.unread = .frame (f.decoded c.session.role) := by
    rw [hmore, parse_header hf]
  refine ⟨b.consume (f.header c.session.role).length, inbox, hsame.trans ?_, ?_, ?_⟩
  · have hiter := iterate_of_parse (s := (c.withInput b inbox).session) hopen herr hparse
      (beginFrame_of_allowed (s := (c.withInput b inbox).session) hallowed c.session.role) rfl
    exact same_of_iterate hiter rfl rfl
  · refine ⟨hready.inp.consume hb, hready.le_cap, hready.cap_lt, hready.chunks, ?_⟩
    change (if _ then _ else _ : BodyBuffer).Ok
    split
    · exact hc.msg.clear
    · exact hc.msg
  · change (b.consume _).unread ++ inbox.flatten = rest
    rw [unread_consume hb, hmore, drop_left]
    rw [hmore, append_assoc] at hsplit
    exact append_cancel_left hsplit

/-! ## Payloads -/

theorem length_unmask (s : Session) (l : List Byte) : (s.unmask l).length = l.length := by
  rw [Session.unmask]
  split
  · rw [applyMask_eq, length_xorKey]
  · rfl

/-- Unmasking in place and consuming moves the window past the bytes. -/
theorem unread_eat {s : Session} {n : ℕ} (h : s.inp.Ok) (hn : n ≤ s.inp.readable) :
    (s.eat n).inp.Ok ∧ (s.eat n).inp.unread = s.inp.unread.drop n ∧
      (s.eat n).inp.cap = s.inp.cap := by
  have hlen : (s.unmask (s.inp.unread.take n)).length = n := by
    rw [length_unmask, length_take, length_unread, Nat.min_eq_left hn]
  change ((s.patched n).consume n).Ok ∧ ((s.patched n).consume n).unread = _ ∧
    (s.patched n).cap = _
  rw [Session.patched]
  split
  · refine ⟨h.patch.consume hn, ?_, rfl⟩
    rw [unread_consume (b := s.inp.patch _) hn,
      unread_patch (hlen.trans_le hn), hlen,
      drop_append_of_le_length hlen.ge, drop_of_length_le hlen.le, nil_append]
  · exact ⟨h.consume hn, unread_consume hn, rfl⟩

/-- Between two frames: `frag` is the message that is open, `rest` what is still to come. -/
structure Aligned (role : Role) (max : ℕ) (frag : Option (Opcode × List Byte)) (rest : List Byte)
    (c : Receiver) : Prop where
  ready : c.Ready
  role_eq : c.session.role = role
  max_eq : c.session.max = max
  frameOpen : c.session.frameOpen = false
  err : c.session.err = none
  fragmentOpen : c.session.fragmentOpen = frag.isSome
  frag : ∀ p ∈ frag, c.session.fragOpcode = p.1 ∧ c.session.msg.view = p.2
  pending : c.pending = rest

theorem iterate_control_fill {s : Session} (hopen : s.frameOpen = true)
    (hop : s.cur.opcode.isControl = true) (h : s.inp.readable < s.curRemaining) :
    s.iterate = (s, .fill) := by
  rw [Session.iterate, if_pos hopen, Session.payload, if_pos hop, Session.controlPayload, if_pos h]

/-- Pings and Pongs have no effect but the Pong. -/
theorem step_control (hopen : c.session.frameOpen = true)
    (hop : c.session.cur.opcode = .ping ∨ c.session.cur.opcode = .pong)
    (h : c.session.curRemaining ≤ c.session.inp.readable) :
    c.step = some
      { c with session := { c.session.eat c.session.curRemaining with frameOpen := false } } := by
  have hcontrol : c.session.cur.opcode.isControl = true := by
    rcases hop with hop | hop <;> rw [hop] <;> rfl
  rw [step, Session.iterate, if_pos hopen, Session.payload, if_pos hcontrol,
    Session.controlPayload, if_neg (not_lt.mpr h)]
  rcases hop with hop | hop <;> simp only [hop]

variable {role : Role} {max : ℕ} {frag : Option (Opcode × List Byte)} {f : WireFrame}
  {rest : List Byte}

theorem WireFrame.length_body (role : Role) (f : WireFrame) :
    (f.body role).length = f.payload.length := by
  cases role <;> simp [WireFrame.body]

/-- **A Ping or a Pong between frames**, however it arrives, is consumed and changes nothing
else. -/
theorem Aligned.exists_control (hc : c.Aligned role max frag (f.bytes role ++ rest)) (hf : f.Valid)
    (hop : f.opcode = .ping ∨ f.opcode = .pong) :
    ∃ c', Same step obs c c' ∧ c'.delivered = c.delivered ∧ c'.Aligned role max frag rest := by
  have hcontrol : f.opcode.isControl = true := by rcases hop with h | h <;> rw [h] <;> rfl
  have hdata : f.opcode.isData = false := by rcases hop with h | h <;> rw [h] <;> rfl
  have hcont : f.opcode ≠ .continue := by rcases hop with h | h <;> rw [h] <;> decide
  have hsmall : f.payload.length ≤ 125 := (hf.control hcontrol).2
  obtain rfl := hc.role_eq
  have hpending := hc.pending
  rw [WireFrame.bytes, append_assoc] at hpending
  obtain ⟨b, inbox, hsame, hready, hrest⟩ := exists_opened hc.ready hc.frameOpen hc.err hf
    (by simp [Allowed, hdata, hcont]) hpending
  set d := c.atFrame (f.decoded c.session.role) b inbox
  have hlen : f.payload.length ≤ d.pending.length := by
    rw [hrest, length_append, WireFrame.length_body]
    omega
  obtain ⟨b', inbox', hsame', hready', hpending', hb'⟩ := exists_wait hready
    (k := f.payload.length) (by omega) hlen
    (fun b' _ hb' => iterate_control_fill rfl hcontrol hb')
  have hstep := step_control (c := d.withInput b' inbox') rfl hop hb'
  obtain ⟨heat, hunread, hcap⟩ := unread_eat hready'.inp hb'
  refine ⟨_, (hsame.trans hsame').trans (same_of_step hstep), rfl, ⟨⟨heat, ?_, ?_, ?_, ?_⟩, rfl,
    hc.max_eq, rfl, hc.err, hc.fragmentOpen, ?_, ?_⟩⟩
  · exact hready'.le_cap.trans hcap.ge
  · exact hcap.trans_lt hready'.cap_lt
  · exact hready'.chunks
  · exact hready'.msg
  · intro p hp
    change c.session.fragOpcode = p.1 ∧ (if f.opcode.isData then _ else c.session.msg).view = p.2
    rw [hdata]
    exact hc.frag p hp
  · change ((d.withInput b' inbox').session.eat f.payload.length).inp.unread ++ _ = rest
    have hsplit : b'.unread ++ inbox'.flatten = f.body c.session.role ++ rest :=
      hpending'.trans hrest
    rw [hunread]
    have := congrArg (List.drop f.payload.length) hsplit
    rwa [drop_append_of_le_length (by simpa using hb'),
      drop_left' (WireFrame.length_body _ f)] at this

end Receiver

end Cornet.Websocket
