import Cornet.Websocket.Reassembly

/-!
# Websocket/Messages — the messages a peer sends against the messages `recv` returns

    message:   text  |──────|────────|───|
    frames:    text · continue · continue*       (Pings and Pongs anywhere between)

A peer splits its messages into frames (`Conversation`).  What `recv` returns for them is known
frame by frame, so it is known message by message (`gather_split`), and the two agree but for the
messages that have a middle frame.
-/

namespace Cornet.Websocket

open List

open Http (HeadBuffer BodyBuffer)

/-- A message as its sender splits it: a text or a binary one, with the payloads of its frames. -/
structure Message where
  opcode : Opcode
  isData : opcode.isData = true
  first : List Byte
  more : List (List Byte) := []

/-- The frames of a split message: the first under the opcode, the last one final. -/
def split (op : Opcode) (first : List Byte) : List (List Byte) → List WireFrame
  | [] => [{ fin := true, opcode := op, payload := first }]
  | p :: ps => { fin := false, opcode := op, payload := first } :: split .continue p ps

namespace Message

def payload (m : Message) : List Byte := m.first ++ m.more.flatten

def frames (m : Message) : List WireFrame := split m.opcode m.first m.more

end Message

open Receiver

theorem foldl_split : ∀ (frag : Option (Opcode × List Byte)) (op : Opcode) (first : List Byte)
    (more : List (List Byte)), (split op first more).foldl assemble frag = none
  | _, _, _, [] => rfl
  | _, _, _, p :: ps => foldl_split _ .continue p ps

theorem follows_split : ∀ (frag : Option (Opcode × List Byte)) {op : Opcode} (first : List Byte)
    (more : List (List Byte)), (∀ b l k, Follows frag ⟨b, op, l, k⟩) →
    ∀ p ∈ stages frag (split op first more), Follows p.1 p.2
  | _, _, _, [], h => forall_mem_cons.mpr ⟨h _ _ _, fun _ hp => (not_mem_nil hp).elim⟩
  | _, _, _, q :: ps, h =>
      forall_mem_cons.mpr ⟨h _ _ _, follows_split _ q ps fun _ _ _ => rfl⟩

theorem total_split : ∀ (frag : Option (Opcode × List Byte)) (op : Opcode) (first : List Byte)
    (more : List (List Byte)) (n : ℕ), (∀ p ∈ stages frag (split op first more), total p ≤ n) ↔
      (content frag).length + (first ++ more.flatten).length ≤ n
  | frag, op, first, [], n => by simp [split, stages, total]
  | frag, op, first, q :: ps, n => by
      rw [split, stages, forall_mem_cons, total_split _ .continue q ps n]
      simp only [total, assemble, content, Option.elim_some, length_append, flatten_cons,
        Bool.false_eq_true, if_false]
      omega

/-- A message that is open ends under the opcode of the frame before the last. -/
theorem gather_split_some : ∀ (op : Opcode) (l p : List Byte) (ps : List (List Byte)),
    gather (some (op, l)) (split .continue p ps) =
      [(if ps = [] then op else .continue, l ++ (p ++ ps.flatten))]
  | op, l, p, [] => by simp [gather, split, stages, completed, content]
  | op, l, p, q :: ps => by
      change gather (some (.continue, l ++ p)) (split .continue q ps) = _
      rw [gather_split_some]
      simp

/-- **What the session returns for a message**: the payload, and the opcode if there is no middle
frame. -/
theorem gather_split (op : Opcode) (first : List Byte) : ∀ more : List (List Byte),
    gather none (split op first more) =
      [(if more.length ≤ 1 then op else .continue, first ++ more.flatten)]
  | [] => by simp [gather, split, stages, completed, content]
  | p :: ps => by
      change gather (some (op, first)) (split .continue p ps) = _
      rw [gather_split_some]
      simp [length_eq_zero_iff]

theorem stages_messages : ∀ msgs : List Message,
    stages none (msgs.flatMap Message.frames) = msgs.flatMap fun m => stages none m.frames
  | [] => rfl
  | m :: msgs => by
      rw [flatMap_cons, stages_append, Message.frames, foldl_split, stages_messages,
        flatMap_cons, Message.frames]

theorem foldl_messages : ∀ msgs : List Message,
    (msgs.flatMap Message.frames).foldl assemble none = none
  | [] => rfl
  | m :: msgs => by
      rw [flatMap_cons, foldl_append, Message.frames, foldl_split, foldl_messages]

/-- A message as `recv` returns it. -/
def Message.returned (m : Message) : Opcode × List Byte :=
  (if m.more.length ≤ 1 then m.opcode else .continue, m.payload)

theorem gather_messages (msgs : List Message) :
    gather none (msgs.flatMap Message.frames) = msgs.map Message.returned := by
  rw [gather, stages_messages, flatMap_assoc, ← flatMap_singleton' (msgs.map _),
    flatMap_map]
  exact congrArg (msgs.flatMap ·) (funext fun m => gather_split m.opcode m.first m.more)

theorem total_messages (msgs : List Message) (n : ℕ) :
    (∀ p ∈ stages none (msgs.flatMap Message.frames), total p ≤ n) ↔
      ∀ m ∈ msgs, m.payload.length ≤ n := by
  rw [stages_messages, forall_mem_flatMap]
  refine forall₂_congr fun m _ => ?_
  rw [Message.frames, total_split, content, Option.elim_none, length_nil, Nat.zero_add]
  rfl

theorem follows_messages (msgs : List Message) :
    ∀ p ∈ stages none (msgs.flatMap Message.frames), Follows p.1 p.2 := by
  rw [stages_messages, forall_mem_flatMap]
  exact fun m _ => follows_split none m.first m.more fun _ _ _ => m.isData

/-- The peer sends these messages in these frames, within the session's limit, with Pings and Pongs
between them. -/
structure Conversation (max : ℕ) (frames : List WireFrame) (msgs : List Message) : Prop where
  valid : ∀ f ∈ frames, f.Valid
  control : ∀ f ∈ frames, f.opcode.isControl = true → f.opcode = .ping ∨ f.opcode = .pong
  data : dataFrames frames = msgs.flatMap Message.frames
  le_max : ∀ m ∈ msgs, m.payload.length ≤ max

/-- A session over a stream that arrives in these reads, the first of them behind the handshake. -/
def Receiver.start (role : Role) (max recvBufferBytes : ℕ) (seed : UInt32) (leftover : List Byte)
    (reads : List (List Byte)) : Receiver :=
  { session := Session.new role max recvBufferBytes leftover seed, inbox := reads }

/-- The reads, and what came with the handshake, are a cut of the stream.  Both sizes are 32-bit
numbers; an empty read would be the end of the stream. -/
structure Arrives (recvBufferBytes : ℕ) (leftover : List Byte) (reads : List (List Byte))
    (bytes : List Byte) : Prop where
  recvBufferBytes_lt : recvBufferBytes < 2 ^ 32
  leftover_lt : leftover.length < 2 ^ 32
  reads_ne : ∀ l ∈ reads, l ≠ []
  append_eq : leftover ++ reads.flatten = bytes

section

variable {role : Role} {max recvBufferBytes : ℕ} {seed : UInt32} {leftover : List Byte}
  {reads : List (List Byte)} {bytes : List Byte} {frames : List WireFrame} {msgs : List Message}

theorem Arrives.aligned (h : Arrives recvBufferBytes leftover reads bytes) (role : Role) (max : ℕ)
    (seed : UInt32) :
    (start role max recvBufferBytes seed leftover reads).Aligned role max none bytes := by
  have hlt : Nat.max recvBufferBytes leftover.length < 2 ^ 32 :=
    Nat.max_lt.mpr ⟨h.recvBufferBytes_lt, h.leftover_lt⟩
  have hroom : leftover.length ≤ (HeadBuffer.reset
      (Http.acquire (Nat.max recvBufferBytes leftover.length % 2 ^ 32))).room := by
    rw [Nat.mod_eq_of_lt hlt]
    exact (Nat.le_max_right _ _).trans (Http.le_acquire _)
  refine ⟨⟨(HeadBuffer.ok_reset _).put hroom, Http.min_le_acquire _, ?_, h.reads_ne,
    BodyBuffer.ok_new⟩, rfl, rfl, rfl, rfl, rfl, fun _ h => (Option.not_mem_none _ h).elim, ?_⟩
  · exact Http.acquire_lt (Nat.mod_lt _ (Nat.two_pow_pos _))
  · refine Eq.trans (congrArg (· ++ _) ?_) h.append_eq
    rw [start, Session.new, (HeadBuffer.ok_reset _).unread_put]
    rfl

theorem Conversation.stages (h : Conversation max frames msgs) :
    ∀ p ∈ stages none (dataFrames frames), Follows p.1 p.2 ∧ total p ≤ max := by
  rw [h.data]
  exact fun p hp => ⟨follows_messages msgs p hp, (total_messages msgs max).mpr h.le_max p hp⟩

theorem Conversation.total_lt (h : Conversation max frames msgs) :
    (∀ p ∈ Receiver.stages none (dataFrames frames), total p < 2 ^ 32) ↔
      ∀ m ∈ msgs, m.payload.length < 2 ^ 32 := by
  rw [h.data]
  simpa only [Nat.lt_iff_le_pred (Nat.two_pow_pos 32)] using total_messages msgs (2 ^ 32 - 1)

/-- **With bytes behind every header**, the session returns the messages as it gathers them. -/
theorem Conversation.receives_of_last (h : Conversation max frames msgs)
    (harrives : Arrives recvBufferBytes leftover reads (frames.flatMap (WireFrame.bytes role)))
    (hlast : ∀ f ∈ frames.getLast?, f.opcode.isControl = false → f.payload ≠ [])
    (l : List (Opcode × List Byte)) :
    (start role max recvBufferBytes seed leftover reads).Receives l ↔
      (∀ m ∈ msgs, m.payload.length < 2 ^ 32) ∧ msgs.map Message.returned = l := by
  have hstart := harrives.aligned role max seed
  rw [← append_nil (frames.flatMap _)] at hstart
  rcases Aligned.exists_frames frames hstart h.valid h.control h.stages (by simp [content])
    (fun f hf hop => .inl (hlast f hf hop)) with
    ⟨hsize, c', hsame, hdel, hc'⟩ | ⟨⟨p, hp, hlarge⟩, c', hsame, hover⟩
  · rw [receives_of_same hsame, receives_of_waiting hc'.waiting, hdel, h.data, gather_messages]
    exact ⟨fun hl => ⟨h.total_lt.mp hsize, hl⟩, And.right⟩
  · rw [receives_of_same hsame]
    refine iff_of_false (not_receives_of_overrun hover) fun hl => ?_
    exact absurd (h.total_lt.mpr hl.1 p hp) (not_lt.mpr hlarge)

/-- **An empty data frame at the end of the stream** keeps back the last message. -/
theorem Conversation.not_receives_of_last {f : WireFrame} {init : List WireFrame}
    (h : Conversation max (init ++ [f]) msgs)
    (harrives : Arrives recvBufferBytes leftover reads
      ((init ++ [f]).flatMap (WireFrame.bytes role)))
    (hop : f.opcode.isControl = false) (hempty : f.payload = [])
    {l : List (Opcode × List Byte)} (hl : l.length = msgs.length) :
    ¬ (start role max recvBufferBytes seed leftover reads).Receives l := by
  have hstart := harrives.aligned role max seed
  rw [flatMap_append, flatMap_singleton] at hstart
  have hdata : dataFrames (init ++ [f]) = dataFrames init ++ [{ f with key := 0 }] := by
    simp [dataFrames, hop]
  have hstages := h.stages
  rw [hdata, stages_append, forall_mem_append] at hstages
  obtain ⟨hfollows, hmax⟩ := hstages.2 _ mem_cons_self
  rcases Aligned.exists_frames init hstart (fun g hg => h.valid g (mem_append_left _ hg))
    (fun g hg => h.control g (mem_append_left _ hg)) hstages.1 (by simp [content])
    (fun _ _ _ => .inr (bytes_ne_nil role f)) with
    ⟨-, c', hsame, hdel, hc'⟩ | ⟨-, c', hsame, hover⟩
  · obtain ⟨d, hsame', hdel', hd⟩ := hc'.exists_waiting
      (h.valid f (mem_append_right _ mem_cons_self)) hfollows hmax hempty
    rw [receives_of_same (hsame.trans hsame'), receives_of_waiting hd, hdel', hdel]
    -- the last frame is final, so one message more is gathered with it than without it
    rintro rfl
    have hgather := congrArg List.length (gather_messages msgs)
    have hfold := foldl_messages msgs
    rw [← h.data, hdata] at hgather hfold
    rw [foldl_append, foldl_cons, foldl_nil, assemble] at hfold
    have hfin : f.fin = true := by
      by_contra hfin
      rw [if_neg hfin] at hfold
      cases hfold
    rw [gather, stages_append, flatMap_append, length_append, length_map] at hgather
    rw [start, nil_append] at hl
    simp only [Receiver.stages, flatMap_cons, flatMap_nil, completed, hfin, if_true,
      length_append, length_singleton, length_nil] at hgather
    exact absurd (hl.trans hgather.symm) (Nat.ne_of_lt (Nat.lt_succ_self _))
  · rw [receives_of_same hsame]
    exact not_receives_of_overrun hover

theorem map_returned_eq :
    msgs.map Message.returned = msgs.map (fun m => (m.opcode, m.payload)) ↔
      ∀ m ∈ msgs, m.more.length ≤ 1 := by
  rw [map_inj_left]
  refine forall₂_congr fun m _ => ?_
  have hcont : Opcode.continue ≠ m.opcode := by
    rintro h
    exact absurd (h ▸ m.isData) (by decide)
  rw [Message.returned, Prod.mk.injEq, and_iff_left rfl]
  split <;> simp_all

/-- **Successive calls of `recv` return the messages sent**, each under the opcode of its first
frame and with the payloads of its frames, exactly when no message has a middle frame or reaches 4
GiB and the stream does not end in an empty data frame. -/
theorem receives_messages_iff (h : Conversation max frames msgs)
    (harrives : Arrives recvBufferBytes leftover reads (frames.flatMap (WireFrame.bytes role))) :
    (start role max recvBufferBytes seed leftover reads).Receives
        (msgs.map fun m => (m.opcode, m.payload)) ↔
      (∀ m ∈ msgs, m.more.length ≤ 1 ∧ m.payload.length < 2 ^ 32) ∧
        ∀ f ∈ frames.getLast?, f.opcode.isControl = false → f.payload ≠ [] := by
  by_cases hlast : ∀ f ∈ frames.getLast?, f.opcode.isControl = false → f.payload ≠ []
  · rw [h.receives_of_last harrives hlast, map_returned_eq, and_iff_left hlast, ← forall₂_and]
    exact forall₂_congr fun _ _ => and_comm
  · refine iff_of_false ?_ fun hright => hlast hright.2
    push Not at hlast
    obtain ⟨f, hf, hop, hempty⟩ := hlast
    obtain ⟨init, rfl⟩ : ∃ init, frames = init ++ [f] := getLast?_eq_some_iff.mp hf
    exact h.not_receives_of_last harrives hop hempty (length_map _)

end

/-- A client says "Hello" in two frames with a Ping between them, and its bytes arrive in pieces. -/
def hello : List WireFrame :=
  [{ fin := false, opcode := .text, payload := [72, 101], key := 0x11223344 },
    { fin := true, opcode := .ping, payload := [33], key := 5 },
    { fin := true, opcode := .continue, payload := [108, 108, 111], key := 0x0a0b0c0d }]

theorem receives_messages_iff_hello :
    (start .server 100 65536 7 ((hello.flatMap (WireFrame.bytes .server)).take 3)
      [((hello.flatMap (WireFrame.bytes .server)).drop 3).take 4,
        (hello.flatMap (WireFrame.bytes .server)).drop 7]).Receives
      [(.text, [72, 101, 108, 108, 111])] :=
  (receives_messages_iff
    (⟨by decide, by decide, by decide, by decide⟩ : Conversation 100 hello
      [{ opcode := .text, isData := rfl, first := [72, 101], more := [[108, 108, 111]] }])
    ⟨by decide, by decide, by decide, by decide⟩).mpr (by decide)

/-- A server says "abc" in three frames. -/
def abc : List WireFrame :=
  [{ fin := false, opcode := .text, payload := [97] },
    { fin := false, opcode := .continue, payload := [98] },
    { fin := true, opcode := .continue, payload := [99] }]

/-- **The middle frame of "abc" loses its opcode**: the message comes out as a continuation. -/
theorem receives_abc_continue :
    Conversation 100 abc [{ opcode := .text, isData := rfl, first := [97], more := [[98], [99]] }] ∧
    Arrives 65536 [] [abc.flatMap (WireFrame.bytes .client)]
      (abc.flatMap (WireFrame.bytes .client)) ∧
    ¬ (start .client 100 65536 7 [] [abc.flatMap (WireFrame.bytes .client)]).Receives
      [(.text, [97, 98, 99])] := by
  have hconv : Conversation 100 abc
      [{ opcode := .text, isData := rfl, first := [97], more := [[98], [99]] }] :=
    ⟨by decide, by decide, by decide, by decide⟩
  have harrives : Arrives 65536 [] [abc.flatMap (WireFrame.bytes .client)]
      (abc.flatMap (WireFrame.bytes .client)) := ⟨by decide, by decide, by decide, by decide⟩
  refine ⟨hconv, harrives, ?_⟩
  rw [hconv.receives_of_last harrives (by decide)]
  decide

end Cornet.Websocket
