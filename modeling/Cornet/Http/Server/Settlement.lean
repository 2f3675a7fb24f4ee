import Cornet.Http.Server.Isolation

/-!
# Http/Server/Settlement — a response of which a chunk has left

    idle ──chunked──▸ staged ──write──▸ open ──finish──▸ done     open · done · dead: the head has left
                        └───finish──────────────────────▸ done
                                          any ──transport──▸ dead

Once the head has left, the bytes of the response are the staged head, chunks and one last chunk, or
a proper prefix of that with the connection given up.  The calls in `CleanCall` keep it so; a call
that fails the response does not, because the failure is answered before anyone asks what has left.
Nor does a transport that recovers: the writer remembers no failed write, so a `finish` after one
ends a stream with a hole in it.
-/

namespace Cornet.Http.Server

open List

/-- A call that does not fail a stream already started, nor write past its end. -/
def CleanCall (c : Conn) : Op → Prop
  | .chunked => c.resp.source = .none ∧ c.resp.err = none
  | .body _ | .bodyStatic _ | .bodyOwned _ | .localFile _ | .fail _ => c.resp.source ≠ .streaming
  | .write d => d.length + 20 < 2 ^ 32 ∧ (c.resp.source = .streaming → c.streamFinished = false)
  | .finish => c.resp.source = .streaming → c.streamFinished = false
  | _ => True

instance (c : Conn) : ∀ op, Decidable (CleanCall c op)
  | .chunked => inferInstanceAs (Decidable (_ ∧ _))
  | .body _ | .bodyStatic _ | .bodyOwned _ | .localFile _ | .fail _ =>
    inferInstanceAs (Decidable (_ ≠ _))
  | .write _ => inferInstanceAs (Decidable (_ ∧ (_ → _)))
  | .finish => inferInstanceAs (Decidable (_ → _))
  | .status _ | .header _ _ | .headerNamed _ _ | .headerU64 _ _ | .file _ =>
    inferInstanceAs (Decidable True)

/-- Every call of the handler is clean when it is made. -/
def Clean : Conn → List Op → Prop
  | _, [] => True
  | c, op :: ops => CleanCall c op ∧ Clean (c.apply op) ops

instance : ∀ c ops, Decidable (Clean c ops)
  | _, [] => inferInstanceAs (Decidable True)
  | c, op :: ops =>
    have := instDecidableClean (c.apply op) ops
    inferInstanceAs (Decidable (_ ∧ _))

namespace Conn

variable {c c₁ : Conn} {q : Req} {op : Op} {ops pre post : List Op} {w h l : List Byte}

theorem Clean.append_iff : ∀ {ops : List Op} {c : Conn},
    Clean c (ops ++ post) ↔ Clean c ops ∧ Clean (c.handle ops) post
  | [], _ => ⟨fun h => ⟨trivial, h⟩, And.right⟩
  | op :: ops, c => by
      change CleanCall c op ∧ Clean (c.apply op) (ops ++ post) ↔ (CleanCall c op ∧ _) ∧ _
      rw [Clean.append_iff, and_assoc]
      rfl

/-! ## Before the head leaves -/

/-- A transport that does not recover: after a write that failed none takes a byte. -/
def Steady (c : Conn) : Prop := ∀ i j, i < j → c.socket i ≠ none → c.socket j = some 0

/-- The transport takes nothing any more. -/
def Dead (c : Conn) : Prop := ∀ i, c.socket i = some 0

theorem steady_of_live (h : c.socket = live) : c.Steady := by
  intro i j _ hne
  rw [h] at hne
  exact absurd rfl hne

theorem Whole.steady (h : c.Whole l c₁) (hsteady : c.Steady) : c₁.Steady := by
  obtain ⟨k, hk⟩ := h.later
  intro i j hij hne
  rw [hk] at hne ⊢
  exact hsteady _ _ (by omega) hne

theorem Cut.dead (h : c.Cut l c₁) (hsteady : c.Steady) : c₁.Dead := by
  obtain ⟨k, hne, hk⟩ := h.failed
  intro i
  rw [hk]
  exact hsteady k _ (by omega) hne

/-- Nothing of this response has left. -/
structure Idle (c : Conn) : Prop where
  holds : c.streamOut.Holds []
  unfinished : c.streamFinished = false
  staged : c.resp.source = .streaming → c.headersStaged = true ∧ c.resp.err = none
  steady : c.Steady

/-- The head has left. -/
structure Sent (c : Conn) : Prop where
  source_eq : c.resp.source = .streaming
  unstaged : c.headersStaged = false
  err_eq : c.resp.err = none

/-- A clean staging call on a stream: the status, a header or a refused file. -/
theorem apply_of_stages (hop : op.stages = true) : c.apply op = c.staged (·.apply op) := by
  cases op <;> first | rfl | cases hop

theorem resp_apply_of_streaming (hop : op.stages = true) (hclean : CleanCall c op)
    (hsrc : c.resp.source = .streaming) :
    (c.toStaging.apply op).resp.source = .streaming ∧
      (c.toStaging.apply op).resp.err = c.resp.err := by
  cases op with
  | status _ | header _ _ | headerNamed _ _ | headerU64 _ _ => exact ⟨hsrc, rfl⟩
  | file content =>
    have heq : c.toStaging.file content = c.toStaging := if_pos (by simp [hsrc])
    change (c.toStaging.file content).resp.source = _ ∧ (c.toStaging.file content).resp.err = _
    rw [heq]
    exact ⟨hsrc, rfl⟩
  | body _ | bodyStatic _ | bodyOwned _ | localFile _ | fail _ => exact absurd hsrc hclean
  | chunked | write _ | finish => cases hop

theorem unstaged_flushStream
    (h : c.headersStaged = false) : c.flushStream.1.headersStaged = false := by
  rw [flushStream]
  split
  · exact h
  · split
    · exact h
    · dsimp only
      split <;> simp

theorem unstaged_write (h : c.headersStaged = false) (d : List Byte) :
    (c.write d).headersStaged = false := by
  rw [write]
  split
  · exact h
  · split
    · exact unstaged_flushStream h
    · have h₁ : ((c.stage
        (writeChunkSize (d.length % 2 ^ 32))).flushStream).1.headersStaged = false :=
        unstaged_flushStream h
      rw [writeLarge]
      dsimp only
      split
      · split
        · exact unstaged_flushStream h₁
        · exact h₁
      · exact h₁

theorem unstaged_finish (h : c.headersStaged = false) : c.finish.headersStaged = false := by
  have h₁ : (c.stage kTerm).flushStream.1.headersStaged = false := unstaged_flushStream h
  rw [finish]
  split
  · exact h
  · dsimp only
    split <;> exact h₁

/-- The writer leaves the response as it is. -/
theorem Sent.of_toStaging (h : c₁.toStaging = c.toStaging) (hsrc : c.resp.source = .streaming)
    (herr : c.resp.err = none) (hun : c₁.headersStaged = false) : c₁.Sent := by
  refine ⟨?_, hun, ?_⟩
  · rw [h]
    exact hsrc
  · rw [h]
    exact herr

/-- Once the head has left, it stays so. -/
theorem Sent.apply (h : c.Sent) (hclean : CleanCall c op) : (c.apply op).Sent := by
  cases hop : op.stages with
  | true =>
    obtain ⟨hsrc, herr⟩ := resp_apply_of_streaming hop hclean h.source_eq
    rw [apply_of_stages hop]
    exact ⟨hsrc, h.unstaged, herr.trans h.err_eq⟩
  | false =>
    cases op with
    | chunked =>
      have := h.source_eq.symm.trans hclean.1
      cases this
    | write d =>
      exact .of_toStaging (toStaging_write c d) h.source_eq h.err_eq (unstaged_write h.unstaged d)
    | finish =>
      exact .of_toStaging (toStaging_finish c) h.source_eq h.err_eq (unstaged_finish h.unstaged)
    | _ => cases hop

/-- A write either does nothing or is a chunk. -/
theorem write_eq_or (hholds : c.streamOut.Holds []) (hsrc : c.resp.source = .streaming)
    {d : List Byte} (hl : d.length + 20 < 2 ^ 32) :
    c.write d = c ∨ (c.write d).headersStaged = false ∧
      (c.write d).streamFinished = c.streamFinished ∧ c.Puts (c.unsent ++ chunkText d)
        (c.write d) := by
  by_cases hd : d = []
  · subst hd
    exact .inl (by simp [write])
  · by_cases hok : c.headOut.err = none ∧ c.hdrOut.err = none
    · exact .inr (write_spec hholds hsrc hok.1 hok.2 hd hl)
    · refine .inl (if_pos ?_)
      simp only [OutBuffer.failed, Option.isSome_iff_ne_none, Bool.or_eq_true]
      tauto

/-- **One clean call before the head has left.** -/
theorem Idle.apply (h : c.Idle) (hclean : CleanCall c op) : (c.apply op).Idle ∨
    (c.apply op).Sent := by
  by_cases hsrc : c.resp.source = .streaming
  · obtain ⟨hstaged, herr⟩ := h.staged hsrc
    cases hop : op.stages with
    | true =>
      have hresp := resp_apply_of_streaming hop hclean hsrc
      rw [apply_of_stages hop]
      exact .inl ⟨h.holds, h.unfinished, fun _ => ⟨hstaged, hresp.2.trans herr⟩, h.steady⟩
    | false =>
      cases op with
      | chunked =>
        have := hsrc.symm.trans hclean.1
        cases this
      | write d =>
        rcases write_eq_or h.holds hsrc hclean.1 with heq | ⟨hun, -⟩
        · refine .inl ?_
          change (c.write d).Idle
          rwa [heq]
        · exact .inr (.of_toStaging (toStaging_write c d) hsrc herr hun)
      | finish =>
        obtain ⟨hun, -⟩ := finish_spec h.holds hsrc
        exact .inr (.of_toStaging (toStaging_finish c) hsrc herr hun)
      | _ => cases hop
  · left
    cases hop : op.stages with
    | true =>
      rw [apply_of_stages hop]
      exact ⟨h.holds, h.unfinished, fun hs => absurd hs (Staging.source_apply hop hsrc), h.steady⟩
    | false =>
      cases op with
      | chunked =>
        refine ⟨h.holds, h.unfinished, fun _ => ⟨rfl, ?_⟩, h.steady⟩
        have hfresh : ¬c.resp.source ≠ .none := by simp [hclean.1]
        change Response.err (if c.resp.source ≠ .none then _ else c.resp) = none
        rw [if_neg hfresh]
        exact hclean.2
      | write d =>
        have heq : c.write d = c := if_pos (by simp [hsrc])
        change (c.write d).Idle
        rwa [heq]
      | finish =>
        have heq : c.finish = c := if_pos hsrc
        change c.finish.Idle
        rwa [heq]
      | _ => cases hop

theorem idle_or_sent (ops : List Op) (h : c.Idle ∨ c.Sent) (hclean : Clean c ops) :
    (c.handle ops).Idle ∨ (c.handle ops).Sent := by
  induction ops generalizing c with
  | nil => exact h
  | cons op ops ih =>
    refine ih (h.elim (fun h => h.apply hclean.1) fun h => .inr (h.apply hclean.1)) hclean.2

/-! ## A dead transport -/

theorem send_of_dead (h : c.Dead) (hl : l ≠ []) :
    (c.send l).2 = false ∧ (c.send l).1.wire = c.wire ∧ (c.send l).1.Dead := by
  have hlen : ¬l.length ≤ 0 := fun h0 => hl (length_eq_zero_iff.mp (Nat.le_zero.mp h0))
  rw [send, h 0, taken, take_zero, append_nil]
  exact ⟨decide_eq_false hlen, rfl, fun i => h (1 + i)⟩

/-- Staged bytes show, or fail the buffer. -/
theorem stage_visible (c : Conn) (hl : clip l ≠ []) :
    (c.stage l).streamOut.failed = true ∨ (c.stage l).streamOut.size ≠ 0 := by
  have hpos := length_pos_iff.mpr hl
  rw [stage, OutBuffer.put, OutBuffer.append, OutBuffer.failed]
  split
  · exact .inl ‹_›
  · split
    · exact .inl rfl
    · right
      dsimp only
      omega

/-- `c'` is `c`, dead, after a call of the writer: nothing has left. -/
structure Mute (c c' : Conn) : Prop where
  wire_eq : c'.wire = c.wire
  dead : c'.Dead
  finished_eq : c'.streamFinished = c.streamFinished

theorem flushStream_of_dead (h : c.Dead) (hl : clip l ≠ []) :
    (c.stage l).flushStream.2 = false ∧ c.Mute (c.stage l).flushStream.1 := by
  rw [flushStream]
  split
  · exact ⟨rfl, rfl, h, rfl⟩
  · rename_i hok
    have hsize := (stage_visible c hl).resolve_left hok
    rw [if_neg hsize]
    have hne : (c.stage l).streamBytes ≠ [] := by
      intro hnil
      have hlen := congrArg List.length hnil
      rw [streamBytes, length_append, OutBuffer.view, Mem.length_read, length_nil] at hlen
      omega
    obtain ⟨hflag, hwire, hdead⟩ :=
      send_of_dead (c := { c.stage l with headersStaged := false }) h hne
    dsimp only
    rw [if_neg (by simp [hflag])]
    exact ⟨rfl, hwire, hdead, streamFinished_send _ _⟩

theorem clip_crlf : clip crlf ≠ [] := by decide

theorem clip_writeChunkSize (v : ℕ) : clip (writeChunkSize v) ≠ [] := by
  have h := length_writeChunkSize_le v
  rw [clip_of_lt (by omega)]
  exact writeChunkSize_ne_nil v

theorem write_of_dead (h : c.Dead) (d : List Byte) : c.Mute (c.write d) := by
  rw [write]
  split
  · exact ⟨rfl, h, rfl⟩
  · split
    · obtain ⟨-, hm⟩ := flushStream_of_dead
        (c := (c.stage (writeChunkSize (d.length % 2 ^ 32))).stage d) h
        clip_crlf
      exact ⟨hm.wire_eq, hm.dead, hm.finished_eq⟩
    · obtain ⟨hflag, hm⟩ := flushStream_of_dead h (clip_writeChunkSize (d.length % 2 ^ 32))
      rw [writeLarge]
      dsimp only
      rw [hflag]
      exact hm

theorem finish_of_dead (h : c.Dead) : c.Mute c.finish := by
  obtain ⟨hflag, hm⟩ := flushStream_of_dead (l := kTerm) h (by decide)
  rw [finish]
  split
  · exact ⟨rfl, h, rfl⟩
  · dsimp only
    rw [if_neg (by simp [hflag])]
    exact hm

/-! ## After the head has left -/

/-- Chunks whose size line is right. -/
def Sized (ds : List (List Byte)) : Prop := ∀ d ∈ ds, d.length < 2 ^ 32

/-- The chunked body with its header section `h`, as far as it has left behind `w`. -/
inductive Body (w h : List Byte) (c : Conn) : Prop
  | going (ds : List (List Byte)) (sized : Sized ds)
    (wire_eq : c.wire = w ++ (h ++ ds.flatMap chunkText))
      (holds : c.streamOut.Holds []) (unfinished : c.streamFinished = false) (steady : c.Steady)
  | done (ds : List (List Byte)) (sized : Sized ds)
      (wire_eq : c.wire = w ++ (h ++ (ds.flatMap chunkText ++ kTerm)))
      (finished : c.streamFinished = true)
  | cut (ds : List (List Byte)) (x lost : List Byte) (sized : Sized ds) (wire_eq : c.wire = w ++ x)
      (split : x ++ lost = h ++ (ds.flatMap chunkText ++ kTerm)) (lost_ne : lost ≠ [])
      (dead : c.Dead) (unfinished : c.streamFinished = false)

section Steps

variable {ds : List (List Byte)} {x : List Byte}

/-- A chunk behind what has left; `x` is what has left of the header section and the chunks
before. -/
theorem Body.of_write {d : List Byte} (hds : Sized ds) (hd : d.length + 20 < 2 ^ 32)
    (hwire : c.wire = w ++ x) (hx : x ++ c.unsent = h ++ ds.flatMap chunkText)
    (hsteady : c.Steady) (hfin : c.streamFinished = false)
    (hfin₁ : c₁.streamFinished = c.streamFinished) (hputs : c.Puts (c.unsent ++ chunkText d) c₁) :
    c₁.Body w h := by
  have hsized : Sized (ds ++ [d]) := by
    intro y hy
    rcases mem_append.mp hy with hy | hy
    · exact hds y hy
    · rw [mem_singleton.mp hy]
      omega
  have hall : x ++ (c.unsent ++ chunkText d) = h ++ (ds ++ [d]).flatMap chunkText := by
    rw [← append_assoc, hx]
    simp
  cases hputs with
  | inl hwhole =>
    refine .going (ds ++ [d]) hsized ?_ hwhole.idle (hfin₁.trans hfin) (hwhole.steady hsteady)
    rw [hwhole.wire_eq, hwire, append_assoc, hall]
  | inr hcut =>
    obtain ⟨p, t, hsplit, ht, hwire₁⟩ := hcut.part
    refine .cut (ds ++ [d]) (x ++ p) (t ++ kTerm) hsized ?_ ?_ (by simp [ht]) (hcut.dead hsteady)
      (hfin₁.trans hfin)
    · rw [hwire₁, hwire, append_assoc]
    · rw [← append_assoc, append_assoc x, ← hsplit, hall, append_assoc]

/-- The last chunk behind what has left. -/
theorem Body.of_finish (hds : Sized ds) (hwire : c.wire = w ++ x)
    (hx : x ++ c.unsent = h ++ ds.flatMap chunkText) (hsteady : c.Steady)
    (hfin : c.streamFinished = false) (hholds : c.streamOut.Holds [])
    (hsrc : c.resp.source = .streaming) : c.finish.Body w h := by
  have hall : x ++ (c.unsent ++ kTerm) = h ++ (ds.flatMap chunkText ++ kTerm) := by
    rw [← append_assoc, hx, append_assoc]
  obtain ⟨-, ⟨hwhole, hdone⟩ | ⟨hcut, hsame⟩⟩ := finish_spec hholds hsrc
  · exact .done ds hds (by rw [hwhole.wire_eq, hwire, append_assoc, hall]) hdone
  · obtain ⟨p, t, hsplit, ht, hpart⟩ := hcut.part
    refine .cut ds (x ++ p) t hds ?_ ?_ ht (hcut.dead hsteady) (hsame.trans hfin)
    · rw [hpart, hwire, append_assoc]
    · rw [append_assoc, ← hsplit, hall]

end Steps

/-- **The call that sends the head.** -/
theorem Idle.sends (hc : c.Idle) (hsrc : c.resp.source = .streaming) (hclean : CleanCall c op)
    (hsent : (c.apply op).headersStaged = false) :
    (c.apply op).Body c.wire c.stagedHead ∧ (c.apply op).Sent := by
  obtain ⟨hstaged, herr⟩ := hc.staged hsrc
  have hunsent : [] ++ c.unsent = c.stagedHead ++ ([] : List (List Byte)).flatMap chunkText := by
    rw [unsent, if_pos hstaged]
    simp
  have hwire : c.wire = c.wire ++ [] := (append_nil _).symm
  have hnone : Sized [] := nofun
  cases hop : op.stages with
  | true =>
    rw [apply_of_stages hop] at hsent
    exact absurd (hstaged.symm.trans hsent) (by simp)
  | false =>
    cases op with
    | chunked => cases hsent
    | write d =>
      rcases write_eq_or hc.holds hsrc hclean.1 with heq | ⟨-, hfin, hputs⟩
      · change (c.write d).headersStaged = false at hsent
        rw [heq, hstaged] at hsent
        cases hsent
      · exact ⟨.of_write hnone hclean.1 hwire hunsent hc.steady hc.unfinished hfin hputs,
          .of_toStaging (toStaging_write c d) hsrc herr hsent⟩
    | finish =>
      exact ⟨.of_finish hnone hwire hunsent hc.steady hc.unfinished hc.holds hsrc,
        .of_toStaging (toStaging_finish c) hsrc herr hsent⟩
    | _ => cases hop

/-- **One clean call after it.** -/
theorem Body.apply (hb : c.Body w h) (hs : c.Sent) (hclean : CleanCall c op) : (c.apply op).Body w
    h := by
  have hquiet : c.unsent = [] := if_neg (by simp [hs.unstaged])
  cases hop : op.stages with
  | true =>
    rw [apply_of_stages hop]
    cases hb with
    | going ds hds hwire hholds hfin hsteady => exact .going ds hds hwire hholds hfin hsteady
    | done ds hds hwire hfin => exact .done ds hds hwire hfin
    | cut ds x lost hds hwire hsplit hne hdead hfin =>
      exact .cut ds x lost hds hwire hsplit hne hdead hfin
  | false =>
    cases op with
    | chunked =>
      have := hs.source_eq.symm.trans hclean.1
      cases this
    | write d =>
      change (c.write d).Body w h
      cases hb with
      | going ds hds hwire hholds hfin hsteady =>
        rcases write_eq_or hholds hs.source_eq hclean.1 with heq | ⟨-, hsame, hputs⟩
        · rw [heq]
          exact .going ds hds hwire hholds hfin hsteady
        · exact .of_write hds hclean.1 hwire (by rw [hquiet, append_nil]) hsteady hfin hsame hputs
      | done ds _ _ hfin =>
        rw [hclean.2 hs.source_eq] at hfin
        cases hfin
      | cut ds x lost hds hwire hsplit hne hdead hfin =>
        have hm := write_of_dead hdead d
        exact .cut ds x lost hds (hm.wire_eq.trans hwire) hsplit hne hm.dead
          (hm.finished_eq.trans hfin)
    | finish =>
      change c.finish.Body w h
      cases hb with
      | going ds hds hwire hholds hfin hsteady =>
        exact .of_finish hds hwire (by rw [hquiet, append_nil]) hsteady hfin hholds hs.source_eq
      | done ds _ _ hfin =>
        rw [hclean hs.source_eq] at hfin
        cases hfin
      | cut ds x lost hds hwire hsplit hne hdead hfin =>
        have hm := finish_of_dead hdead
        exact .cut ds x lost hds (hm.wire_eq.trans hwire) hsplit hne hm.dead
          (hm.finished_eq.trans hfin)
    | _ => cases hop

/-- **The rest of the handler.** -/
theorem Body.handle (ops : List Op) (hb : c.Body w h) (hs : c.Sent) (hclean : Clean c ops) :
    (c.handle ops).Body w h ∧ (c.handle ops).Sent := by
  induction ops generalizing c with
  | nil => exact ⟨hb, hs⟩
  | cons op ops ih => exact ih (hb.apply hs hclean.1) (hs.apply hclean.1) hclean.2

/-! ## The end of the request -/

theorem wire_sendAll (ls : List (List Byte)) (c : Conn) :
    ∃ y, (sendAll ls c).1.wire = c.wire ++ y ∧ y <+: ls.flatten := by
  induction ls generalizing c with
  | nil => exact ⟨[], (append_nil _).symm, nil_prefix⟩
  | cons l ls ih =>
    rw [sendAll]
    cases hs : (c.send l).2 with
    | true =>
      obtain ⟨y, hwire, hy⟩ := ih (c.send l).1
      rw [send_ok hs] at hwire
      refine ⟨l ++ y, by rw [if_pos rfl, hwire, append_assoc], ?_⟩
      rw [flatten_cons]
      exact (prefix_append_right_inj l).mpr hy
    | false =>
      obtain ⟨-, p, t, hsplit, -, hwire⟩ := send_cut hs
      refine ⟨p, by rw [if_neg (by simp), hwire], ?_⟩
      rw [flatten_cons, hsplit, append_assoc]
      exact prefix_append p _

/-- A flush adds a part of what is queued. -/
theorem wire_flush_prefix (c : Conn) :
    ∃ y, c.flush.1.wire = c.wire ++ y ∧ y <+: c.pending.flatMap c.render := by
  rw [flush]
  split
  · exact ⟨[], (append_nil _).symm, nil_prefix⟩
  · split
    · exact ⟨[], (append_nil _).symm, nil_prefix⟩
    · obtain ⟨y, hwire, hy⟩ := wire_sendAll (c.batches [] c.pending) c
      rw [flatten_batches, nil_append] at hy
      exact ⟨y, hwire, hy⟩

/-- What is left of a stream whose head has left: a failed buffer keeps everything back, an
unfinished stream gives the connection up, and otherwise nothing is added. -/
theorem Sent.conclude (hs : c.Sent) (hdrain : q.drainError = none) :
    (∃ y, (c.conclude q).1.flush.1.wire = c.wire ++ y ∧ y <+: c.pending.flatMap c.render) ∧
      (c.streamFinished = true ∨ (c.conclude q).2 = true ∧
        (c.conclude q).1.closeAfterFlush = true) := by
  cases hf : c.respFailed with
  | true =>
    have hconclude := conclude_failed hdrain hf
    have hbroken : (c.conclude q).1.broken = true := by
      by_contra hok
      have := respFailed_of_conclude hdrain hs.err_eq (Bool.not_eq_true _ ▸ hok)
      rw [hf] at this
      cases this
    refine ⟨⟨[], ?_, nil_prefix⟩, .inr ⟨by rw [hconclude], by rw [hconclude]; rfl⟩⟩
    rw [flush_of_broken hbroken, hconclude, append_nil]
    rfl
  | false =>
    cases hfin : c.streamFinished with
    | false =>
      have hopen : c.needsStreamingSettlement = true := by
        simp [needsStreamingSettlement, hs.source_eq, hfin]
      have hconclude : c.conclude q =
          ({ c with toStaging := { c.toStaging with closing := true, closeAfterFlush := true } },
            true) := by
        rw [Conn.conclude, hdrain]
        dsimp only
        rw [if_neg (by simp [hf]), if_pos hopen, settleStreaming, if_neg (by simp [hs.unstaged])]
      refine ⟨?_, .inr ⟨by rw [hconclude], by rw [hconclude]⟩⟩
      rw [hconclude]
      exact wire_flush_prefix _
    | true =>
      obtain ⟨b, hconclude⟩ := conclude_framed hdrain hf (by simp [needsStreamingSettlement, hfin])
      have hframe (closeAfter : Bool) :
          c.toStaging.frameResponse q.head closeAfter = c.toStaging := if_pos hs.source_eq
      refine ⟨?_, .inl rfl⟩
      have hfinal : (c.conclude q).1 = { c with closeAfterFlush := b } := by
        rw [hconclude, staged]
        dsimp only
        rw [hframe]
      rw [hfinal]
      exact wire_flush_prefix _

/-- The response of `q` was sent out honestly from `c₁` on: the header section staged there, chunks
and the last chunk, or a proper part of that with the connection given up; what follows it was
queued before. -/
def Settled (c : Conn) (q : Req) (c₁ : Conn) : Prop :=
  ∃ (x y lost : List Byte) (ds : List (List Byte)),
    (c.answer q).1.flush.1.wire = c₁.wire ++ x ++ y ∧ y <+: c.pending.flatMap c.render ∧ Sized ds ∧
      x ++ lost = c₁.stagedHead ++ (ds.flatMap chunkText ++ kTerm) ∧
      ((c.handled q).streamFinished = true ∧ lost = [] ∨
        lost ≠ [] ∧ (c.answer q).2 = true ∧ (c.answer q).1.closeAfterFlush = true)

/-- A chunk, and the end of the stream. -/
def oneChunk : Req := { ops := [.chunked, .write (ascii "a"), .finish] }

/-- What a settled response has after its first chunk. -/
theorem Settled.after {d z : List Byte} (h : c.Settled q c₁) (hnil : c.pending = []) (hd : d ≠ [])
    (hl : d.length < 2 ^ 32)
    (hwire : (c.answer q).1.flush.1.wire = c₁.wire ++ (c₁.stagedHead ++ (chunkText d ++ z))) :
    ∃ (lost : List Byte) (ds : List (List Byte)), z ++ lost = ds.flatMap chunkText ++ kTerm ∧
      (∀ d ∈ ds, d.length < 16 ^ 16) ∧ (lost = [] ∨ (c.answer q).2 = true) := by
  obtain ⟨x, y, lost, ds, heq, hy, hds, hsplit, hend⟩ := h
  rw [hnil, flatMap_nil, prefix_nil] at hy
  rw [hwire, hy, append_nil] at heq
  rw [← append_cancel_left heq, append_assoc] at hsplit
  have hbody := append_cancel_left hsplit
  rw [append_assoc] at hbody
  have hbig : (2 : ℕ) ^ 32 ≤ 16 ^ 16 := by decide
  obtain ⟨ds', hds', hz⟩ :=
    chunks_after hd (hl.trans_le hbig) (fun d hd => (hds d hd).trans_le hbig) hbody
  exact ⟨lost, ds', hz, hds', hend.imp And.right fun hend => hend.2.1⟩

/-- A body set after the first chunk. -/
def bodyLate : Req := { ops := [.chunked, .write (ascii "a"), .body (ascii "x")] }

/-- A stream left open. -/
def leftOpen : Req := { ops := [.chunked, .write (ascii "a")] }

/-- A request body too large for the drain that follows the handler. -/
def drainFails : Req := { leftOpen with streaming := true, drain := some ⟨413⟩ }

/-- A chunk, one larger than the staging buffer, and the end of the stream. -/
def largeSecond : Req :=
  { ops := [.chunked, .write (ascii "a"), .write (replicate 4096 98), .finish] }

/-- A connection whose third write fails at once, with `ENOBUFS` say, and no other. -/
def hiccup : Conn :=
  { start with streamOut := { cap := 4096 }, socket := fun i => if i = 2 then some 0 else none }

/-- A status line is no chunk. -/
theorem not_settled_of_status {d z : List Byte} (hnil : c.pending = []) (hd : d ≠ [])
    (hl : d.length < 2 ^ 32)
    (hwire : (c.answer q).1.flush.1.wire = c₁.wire ++ (c₁.stagedHead ++ (chunkText d ++ 72 :: z))) :
    ¬c.Settled q c₁ := by
  intro hsettled
  obtain ⟨lost, ds, heq, -, -⟩ := hsettled.after hnil hd hl hwire
  obtain ⟨b, l, hhead, hb⟩ := isHex_head ds
  rw [hhead, cons_append, List.cons.injEq] at heq
  rw [← heq.1] at hb
  exact absurd hb (by decide)

end Conn

end Cornet.Http.Server
