import Cornet.Http.Server.Pipelining
import Cornet.Machinery.Segments

/-!
# Http/Server/Flushing — the loops that write a round out (`connection.cc`, `tls/transport.cc`)

    writev_all    | v₁ | v₂ | v₃ |  ──n bytes──▸  | v₂' | v₃ |  ──▸ ⋯ ──▸  done
    splice        file ──≤ 64K──▸ pipe ──n──▸ ⋯ ──▸ pipe empty ──▸ next 64K
    pread         file ──≤ 64K──▸ scratch ──n──▸ ⋯ ──▸ scratch empty ──▸ next 64K

A call to the kernel reports how much of what it was offered it took, or the bytes it found in a
file, or an error; `Sock` has the results of the calls to come, in order.  What a file holds when it
is read need not be what it held when the response was made.  The loops end in an error or have
written everything.
-/

namespace Cornet.Http.Server

open List

/-- What ends a flush; `waiting` says that a call has not returned. -/
inductive Fault
  | http (e : HttpError)
  | system (errno : ℤ)
  | waiting
  deriving DecidableEq, Repr

/-- The kernel's side of a connection. -/
structure Sock where
  wire : List Byte := []
  /-- what is in `splice_pipe_` -/
  pipe : List Byte := []
  /-- Why the pipe cannot be made, if it cannot. -/
  pipeError : Option ℤ := none
  /-- The results of the writes to come. -/
  writes : List (Except ℤ ℕ) := []
  /-- The results of the file reads to come. -/
  reads : List (Except ℤ (List Byte)) := []

namespace Sock

def eIo : ℤ := 5
def eConnReset : ℤ := 104

/-! ## Buffers -/

/-- `writev_all`; the result of each call is the next of `writes`. -/
def writevLoop : List (Except ℤ ℕ) → List (List Byte) → Sock → Except Fault Sock
  | ws, [], k => .ok { k with writes := ws }
  | [], _ :: _, _ => .error .waiting
  | .error e :: _, _ :: _, _ => .error (.system e)
  | .ok n :: ws, v :: vs, k =>
    let iov := v :: vs
    let n := min n iov.flatten.length
    if n = 0 then .error (.system eConnReset)
    else writevLoop ws (Segments.left n iov) { k with wire := k.wire ++ iov.flatten.take n }

/-- `connection_t::writev_span`. -/
def writevAll (iov : List (List Byte)) (k : Sock) : Except Fault Sock := writevLoop k.writes iov k

/-! ## Files -/

/-- `kChunk` and `kBuf`. -/
def kChunk : ℕ := 64 * 1024

/-- The inner loop of `splice_file_to_socket`: `left` bytes from the pipe to the socket. -/
def spliceOut : List (Except ℤ ℕ) → ℕ → Sock → Except Fault Sock
  | ws, 0, k => .ok { k with writes := ws }
  | [], _ + 1, _ => .error .waiting
  | .error e :: _, _ + 1, _ => .error (.system e)
  | .ok n :: ws, left + 1, k =>
    let n := min n (left + 1)
    if n = 0 then .error (.system eConnReset)
    else spliceOut ws (left + 1 - n)
      { k with wire := k.wire ++ k.pipe.take n, pipe := k.pipe.drop n }

/-- The inner loop of `stream_file_over_tls`. -/
def writeOut : List (Except ℤ ℕ) → List Byte → Sock → Except Fault Sock
  | ws, [], k => .ok { k with writes := ws }
  | [], _ :: _, _ => .error .waiting
  | .error e :: _, _ :: _, _ => .error (.system e)
  | .ok n :: ws, x :: xs, k =>
    let n := min n (x :: xs).length
    if n = 0 then .error (.system eConnReset)
    else writeOut ws ((x :: xs).drop n) { k with wire := k.wire ++ (x :: xs).take n }

/-- The outer loop of both: read at most `kChunk` of the `len` bytes, get rid of them with `out`.  A
file that has become too short ends in `eof`. -/
def fileLoop (eof : ℤ) (out : List Byte → Sock → Except Fault Sock) :
    List (Except ℤ (List Byte)) → ℕ → Sock → Except Fault Sock
  | rs, 0, k => .ok { k with reads := rs }
  | [], _ + 1, _ => .error .waiting
  | .error e :: _, _ + 1, _ => .error (.system e)
  | .ok b :: rs, len + 1, k =>
    let b := b.take (min (len + 1) kChunk)
    if b = [] then .error (.system eof)
    else do
      let k ← out b k
      fileLoop eof out rs (len + 1 - b.length) k

/-- `connection_t::splice_file_to_socket`. -/
def spliceFileToSocket (len : ℕ) (k : Sock) : Except Fault Sock :=
  match k.pipeError with
  | some e => .error (.system e)
  | none =>
    fileLoop eConnReset (fun b k => spliceOut k.writes b.length { k with pipe := k.pipe ++ b })
      k.reads len k

/-- `connection_t::stream_file_over_tls`. -/
def streamFileOverTls (len : ℕ) (k : Sock) : Except Fault Sock :=
  fileLoop eIo (fun b k => writeOut k.writes b k) k.reads len k

/-- A file body, on the transport there is. -/
def writeFile (tls : Bool) (len : ℕ) (k : Sock) : Except Fault Sock :=
  if tls then k.streamFileOverTls len else k.spliceFileToSocket len

end Sock

/-! ## Flush -/

namespace Staging

variable (s : Staging)

/-- The vectors of the staged parts of a response. -/
def headVectors (p : Pending) : List (List Byte) :=
  (if p.headLen ≠ 0 then [s.headOut.view p.headOff p.headLen] else []) ++
    if p.hdrLen ≠ 0 then [s.hdrOut.view p.hdrOff p.hdrLen] else []

/-- The vector of a body in memory. -/
def bodyVectors (p : Pending) : List (List Byte) :=
  if p.bodyLen ≠ 0 then
    match p.source with
    | .inline => [s.bodyOut.view p.bodyOff p.bodyLen]
    | .external => [p.external.take p.bodyLen]
    | _ => []
  else []

def kMaxPendingIov : ℕ := 3 * 64

/-- `build_iovecs`; `n` vectors are there already. -/
def buildIovecs : ℕ → List Pending → List (List Byte)
  | _, [] => []
  | n, p :: ps =>
    if kMaxPendingIov < n + 3 then []
    else
      let vs := s.headVectors p ++ s.bodyVectors p
      vs ++ buildIovecs (n + vs.length) ps

/-- The error `flush` finds in the buffers. -/
def fault : Option HttpError :=
  if s.headOut.failed then s.headOut.err else if s.hdrOut.failed then s.hdrOut.err
    else s.bodyOut.err

/-- The responses before a file, if there are any. -/
def writeBatch (batch : List Pending) (k : Sock) : Except Fault Sock :=
  if batch = [] then .ok k else k.writevAll (s.buildIovecs 0 batch)

/-- The loop of `flush` around file bodies; `batch` is what has been passed since the last one. -/
def slowPath (tls : Bool) (batch : List Pending) : List Pending → Sock → Except Fault Sock
  | [], k => s.writeBatch batch k
  | p :: ps, k =>
    if p.source ≠ .file then slowPath tls (batch ++ [p]) ps k
    else do
      let k ← s.writeBatch batch k
      let k ← k.writevAll (s.headVectors p)
      let k ← k.writeFile tls p.bodyLen
      slowPath tls [] ps k

/-- `flush`. -/
def flush (tls : Bool) (k : Sock) : Except Fault Sock :=
  if s.pending = [] then .ok k
  else
    match s.fault with
    | some e => .error (.http e)
    | none =>
      if ∀ p ∈ s.pending, p.source ≠ .file then k.writevAll (s.buildIovecs 0 s.pending)
      else s.slowPath tls [] s.pending k

end Staging

/-! ## What the loops write -/

/-- The first of two steps that went well. -/
theorem ok_of_bind {x : Except Fault Sock} {f : Sock → Except Fault Sock} {k' : Sock}
    (h : x >>= f = .ok k') :
    ∃ k, x = .ok k ∧ f k = .ok k' := by
  cases x with
  | error e => cases h
  | ok k => exact ⟨k, rfl, h⟩

namespace Sock

variable {k k' : Sock} {iov : List (List Byte)} {len : ℕ}

/-- `k'` is `k` after `l` was written; nothing is left in the pipe that was not there. -/
structure Wrote (k : Sock) (l : List Byte) (k' : Sock) : Prop where
  wire_eq : k'.wire = k.wire ++ l
  pipe_eq : k'.pipe = k.pipe

theorem Wrote.refl (k : Sock) : k.Wrote [] k := ⟨(append_nil _).symm, rfl⟩

theorem Wrote.trans {k₁ k₂ : Sock} {l₁ l₂ : List Byte} (h₁ : k.Wrote l₁ k₁) (h₂ : k₁.Wrote l₂ k₂) :
    k.Wrote (l₁ ++ l₂) k₂ :=
  ⟨by rw [h₂.wire_eq, h₁.wire_eq, append_assoc], h₂.pipe_eq.trans h₁.pipe_eq⟩

/-- **Short writes**: whatever the calls take, `writev_all` has written all of it or fails. -/
theorem writevLoop_wrote : ∀ (ws : List (Except ℤ ℕ)) (iov : List (List Byte)) (k : Sock),
    writevLoop ws iov k = .ok k' → k.Wrote iov.flatten k'
  | [], [], _, h | _ :: _, [], _, h => by
      cases h
      exact ⟨(append_nil _).symm, rfl⟩
  | .ok n :: ws, v :: vs, k, h => by
      rw [writevLoop] at h
      split at h
      · cases h
      · have hrest := writevLoop_wrote ws _ _ h
        rw [Segments.flatten_left] at hrest
        refine ⟨hrest.wire_eq.trans ?_, hrest.pipe_eq⟩
        rw [append_assoc, take_append_drop]

theorem writevAll_wrote (h : k.writevAll iov = .ok k') : k.Wrote iov.flatten k' :=
  writevLoop_wrote _ _ _ h

theorem spliceOut_wrote : ∀ (ws : List (Except ℤ ℕ)) (left : ℕ) (k : Sock),
    spliceOut ws left k = .ok k' →
    k'.wire = k.wire ++ k.pipe.take left ∧ k'.pipe = k.pipe.drop left
  | [], 0, _, h | _ :: _, 0, _, h => by
      cases h
      exact ⟨(append_nil _).symm, rfl⟩
  | .ok n :: ws, left + 1, k, h => by
      rw [spliceOut] at h
      split at h
      · cases h
      · obtain ⟨hwire, hpipe⟩ := spliceOut_wrote ws _ _ h
        have hle : min n (left + 1) ≤ left + 1 := min_le_right ..
        refine ⟨hwire.trans ?_, hpipe.trans ?_⟩
        · rw [append_assoc, ← take_add, Nat.add_sub_cancel' hle]
        · rw [drop_drop, Nat.add_sub_cancel' hle]

theorem writeOut_wrote : ∀ (ws : List (Except ℤ ℕ)) (l : List Byte) (k : Sock),
    writeOut ws l k = .ok k' →
    k.Wrote l k'
  | [], [], _, h | _ :: _, [], _, h => by
      cases h
      exact ⟨(append_nil _).symm, rfl⟩
  | .ok n :: ws, x :: xs, k, h => by
      rw [writeOut] at h
      split at h
      · cases h
      · have hrest := writeOut_wrote ws _ _ h
        refine ⟨hrest.wire_eq.trans ?_, hrest.pipe_eq⟩
        rw [append_assoc, take_append_drop]

/-- **A file, piece by piece**: as many bytes leave as were asked for. -/
theorem fileLoop_wrote {eof : ℤ} {out : List Byte → Sock → Except Fault Sock}
    (hout : ∀ b k k', k.pipe = [] → out b k = .ok k' → k.Wrote b k') :
    ∀ (rs : List (Except ℤ (List Byte))) (len : ℕ) (k : Sock), k.pipe = [] →
      fileLoop eof out rs len k = .ok k' → ∃ b, b.length = len ∧ k.Wrote b k'
  | [], 0, _, _, h | _ :: _, 0, _, _, h => by
      cases h
      exact ⟨[], rfl, (append_nil _).symm, rfl⟩
  | .ok b :: rs, len + 1, k, hpipe, h => by
      rw [fileLoop] at h
      split at h
      · cases h
      · generalize hb : b.take (min (len + 1) kChunk) = b₁ at h
        have hlen : b₁.length ≤ len + 1 := by
          rw [← hb, length_take]
          omega
        obtain ⟨k₁, hk, h⟩ := ok_of_bind h
        have hfirst := hout b₁ k k₁ hpipe hk
        obtain ⟨b₂, hb₂, hrest⟩ := fileLoop_wrote hout rs _ k₁ (hfirst.pipe_eq.trans hpipe) h
        exact ⟨b₁ ++ b₂, by rw [length_append, hb₂]; omega, hfirst.trans hrest⟩

/-- **A file body**, on either transport. -/
theorem writeFile_wrote {tls : Bool} (hpipe : k.pipe = []) (h : k.writeFile tls len = .ok k') :
    ∃ b, b.length = len ∧ k.Wrote b k' := by
  rw [writeFile] at h
  split at h
  · exact fileLoop_wrote (fun b k k' _ h => writeOut_wrote _ _ _ h) _ _ _ hpipe h
  · rw [spliceFileToSocket] at h
    split at h
    · cases h
    · refine fileLoop_wrote (fun b k k' hpipe h => ?_) _ _ _ hpipe h
      -- what was put into an empty pipe is all that comes out
      obtain ⟨hwire, hleft⟩ := spliceOut_wrote _ _ _ h
      simp only [hpipe, nil_append, take_length, drop_length] at hwire hleft
      exact ⟨hwire, hleft.trans hpipe.symm⟩

end Sock

namespace Staging

variable {s : Staging} {k k' : Sock}

/-- What leaves of a queued response: its header section and its body, or as many bytes of a file as
the body has. -/
def Leaves (s : Staging) (p : Pending) (l : List Byte) : Prop :=
  ∃ b, l = s.renderHead p ++ b ∧ if p.source = .file then b.length = p.bodyLen
    else b = s.renderBody p

theorem flatten_headVectors (s : Staging) (p : Pending) : (s.headVectors p).flatten = s.renderHead
    p := by
  have hwindow (out : OutBuffer) (off len : ℕ) :
      (if len ≠ 0 then [out.view off len] else []).flatten = out.view off len := by
    by_cases hlen : len = 0
    · rw [if_neg (by simp [hlen]), hlen]
      rfl
    · rw [if_pos hlen]
      simp
  rw [headVectors, flatten_append, hwindow, hwindow, renderHead]

theorem flatten_bodyVectors {p : Pending}
    (h : p.source ≠ .file) : (s.bodyVectors p).flatten = s.renderBody p := by
  rw [bodyVectors, renderBody]
  by_cases hlen : p.bodyLen = 0
  · rw [if_neg (by simp [hlen]), hlen]
    split
    · rfl
    · rfl
    · exact absurd ‹_› h
    · rfl
  · rw [if_pos hlen]
    cases hsrc : p.source <;> simp
    exact absurd hsrc h

theorem length_vectors_le (s : Staging)
    (p : Pending) : (s.headVectors p ++ s.bodyVectors p).length ≤ 3 := by
  have hhead : (s.headVectors p).length ≤ 2 := by
    rw [headVectors, length_append]
    split <;> split <;> simp
  have hbody : (s.bodyVectors p).length ≤ 1 := by
    rw [bodyVectors]
    split
    · split <;> simp
    · simp
  rw [length_append]
  omega

/-- The vectors of 64 responses fit: no batch is split. -/
theorem buildIovecs_eq : ∀ (n : ℕ) (ps : List Pending), n + 3 * ps.length ≤ kMaxPendingIov →
    s.buildIovecs n ps = ps.flatMap fun p => s.headVectors p ++ s.bodyVectors p
  | _, [], _ => rfl
  | n, p :: ps, hn => by
      rw [length_cons] at hn
      have hle := length_vectors_le s p
      rw [buildIovecs, if_neg (by omega), flatMap_cons]
      exact congrArg (_ ++ ·) (buildIovecs_eq (n + (s.headVectors p ++ s.bodyVectors p).length) ps
        (by omega))

theorem flatten_buildIovecs {ps : List Pending} (hn : 3 * ps.length ≤ kMaxPendingIov)
    (hps : ∀ p ∈ ps, p.source ≠ .file) : (s.buildIovecs 0 ps).flatten = ps.flatMap s.render := by
  rw [buildIovecs_eq 0 ps (by omega)]
  clear hn
  induction ps with
  | nil => rfl
  | cons p ps ih =>
    rw [flatMap_cons, flatten_append, flatten_append, flatten_headVectors,
      flatten_bodyVectors (hps p mem_cons_self), ih fun x hx => hps x (mem_cons_of_mem p hx)]
    rfl

/-- Responses in memory leave in one write. -/
theorem leaves_batch {ps : List Pending} (hn : ps.length ≤ kPending)
    (hps : ∀ p ∈ ps, p.source ≠ .file)
    (h : k.writevAll (s.buildIovecs 0 ps) = .ok k') :
    ∃ ls, List.Forall₂ s.Leaves ps ls ∧ k.Wrote ls.flatten k' := by
  refine ⟨ps.map s.render, ?_, ?_⟩
  · rw [forall₂_map_right_iff]
    exact forall₂_same.mpr fun p hp => ⟨_, rfl, by rw [if_neg (hps p hp)]⟩
  · have hwrote := Sock.writevAll_wrote h
    rwa [flatten_buildIovecs (by rw [kPending] at hn; rw [kMaxPendingIov]; omega) hps] at hwrote

theorem leaves_writeBatch {batch : List Pending} (hn : batch.length ≤ kPending)
    (hps : ∀ p ∈ batch, p.source ≠ .file) (h : s.writeBatch batch k = .ok k') :
    ∃ ls, List.Forall₂ s.Leaves batch ls ∧ k.Wrote ls.flatten k' := by
  rw [writeBatch] at h
  split at h
  · rename_i hnil
    cases h
    rw [hnil]
    exact ⟨[], .nil, .refl k⟩
  · exact leaves_batch hn hps h

/-- **The order on the wire** around file bodies. -/
theorem slowPath_leaves {tls : Bool} : ∀ (ps batch : List Pending) (k : Sock), k.pipe = [] →
    (batch ++ ps).length ≤ kPending → (∀ p ∈ batch, p.source ≠ .file) →
      s.slowPath tls batch ps k = .ok k' →
      ∃ ls, List.Forall₂ s.Leaves (batch ++ ps) ls ∧ k.Wrote ls.flatten k'
  | [], batch, k, _, hn, hbatch, h => by
      rw [append_nil] at hn ⊢
      exact leaves_writeBatch hn hbatch h
  | p :: ps, batch, k, hpipe, hn, hbatch, h => by
      rw [slowPath] at h
      split at h
      · rename_i hp
        rw [append_cons] at hn ⊢
        refine slowPath_leaves ps (batch ++ [p]) k hpipe hn (fun x hx => ?_) h
        rcases mem_append.mp hx with hx | hx
        · exact hbatch x hx
        · rwa [mem_singleton.mp hx]
      · rename_i hp
        rw [length_append, length_cons] at hn
        -- the batch, the header section and the file, each by its own loop
        obtain ⟨k₁, hk₁, h⟩ := ok_of_bind h
        obtain ⟨k₂, hk₂, h⟩ := ok_of_bind h
        obtain ⟨k₃, hk₃, h⟩ := ok_of_bind h
        obtain ⟨ls, hls, hw₁⟩ := leaves_writeBatch (by omega) hbatch hk₁
        have hw₂ := Sock.writevAll_wrote hk₂
        rw [flatten_headVectors] at hw₂
        have hpipe₂ := hw₂.pipe_eq.trans (hw₁.pipe_eq.trans hpipe)
        obtain ⟨b, hb, hw₃⟩ := Sock.writeFile_wrote hpipe₂ hk₃
        have hps : ([] ++ ps).length ≤ kPending := by
          rw [nil_append]
          omega
        obtain ⟨ls', hls', hw₄⟩ := slowPath_leaves ps [] k₃ (hw₃.pipe_eq.trans hpipe₂) hps
          (fun _ hx => absurd hx not_mem_nil) h
        have hfile : s.Leaves p (s.renderHead p ++ b) :=
          ⟨b, rfl, by rw [if_pos (not_not.mp hp)]; exact hb⟩
        refine ⟨ls ++ (s.renderHead p ++ b) :: ls', rel_append hls (.cons hfile hls'), ?_⟩
        have hall := hw₁.trans ((hw₂.trans hw₃).trans hw₄)
        rwa [flatten_append, flatten_cons]

theorem not_broken_of_fault (h : s.fault = none) : s.broken = false := by
  have hfailed (b : OutBuffer) (hb : b.err = none) : b.failed = false :=
    by rw [OutBuffer.failed, hb]; rfl
  rw [fault] at h
  split at h
  · rename_i hf
    rw [hfailed _ h] at hf
    cases hf
  · split at h
    · rename_i hf
      rw [hfailed _ h] at hf
      cases hf
    · rename_i hhead hhdr
      simp only [broken, hhead, hhdr, hfailed _ h, Bool.or_self]

/-- **A flush that succeeds has written every queued response**, in order, whatever the kernel took
at a time. -/
theorem flush_leaves {tls : Bool} (hpipe : k.pipe = []) (hn : s.pending.length ≤ kPending)
    (h : s.flush tls k = .ok k') :
    (s.pending ≠ [] → s.broken = false) ∧ ∃ ls, List.Forall₂ s.Leaves s.pending ls ∧
      k.Wrote ls.flatten k' := by
  rw [flush] at h
  split at h
  · rename_i hnil
    cases h
    rw [hnil]
    exact ⟨fun hne => absurd rfl hne, [], .nil, .refl k⟩
  · split at h
    · cases h
    · rename_i hfault
      refine ⟨fun _ => not_broken_of_fault hfault, ?_⟩
      split at h
      · rename_i hmem
        exact leaves_batch hn hmem h
      · exact slowPath_leaves s.pending [] k hpipe hn (fun _ hx => absurd hx not_mem_nil) h

theorem Leaves.eq_render {p : Pending} {l : List Byte} (h : s.Leaves p l) (hp : p.source ≠ .file) :
    l = s.render p := by
  obtain ⟨b, rfl, hb⟩ := h
  rw [if_neg hp] at hb
  rw [hb, render]

theorem flatten_leaves : ∀ {ps : List Pending} {ls : List (List Byte)},
    List.Forall₂ s.Leaves ps ls →
    (∀ p ∈ ps, p.source ≠ .file) → ls.flatten = ps.flatMap s.render
  | _, _, .nil, _ => rfl
  | _, _, .cons h hs, hp => by
      rw [flatten_cons, flatMap_cons, h.eq_render (hp _ mem_cons_self),
        flatten_leaves hs fun p hm => hp p (mem_cons_of_mem _ hm)]

end Staging

/-- **Two levels of one flush**: where no file is queued, the loops put on the wire what `flush`
gives to a transport that takes everything. -/
theorem Conn.wire_flush_of_flush {c : Conn} {k k' : Sock} {tls : Bool} (halive : c.socket = live)
    (hpipe : k.pipe = []) (hn : c.pending.length ≤ Staging.kPending)
    (hfile : ∀ p ∈ c.pending, p.source ≠ .file) (h : c.toStaging.flush tls k = .ok k') :
    ∃ l, k'.wire = k.wire ++ l ∧ c.flush.1.wire = c.wire ++ l := by
  obtain ⟨hsound, ls, hleaves, hwrote⟩ := Staging.flush_leaves hpipe hn h
  refine ⟨ls.flatten, hwrote.wire_eq, ?_⟩
  rw [Staging.flatten_leaves hleaves hfile]
  by_cases hnil : c.pending = []
  · rw [Conn.flush, if_pos hnil, hnil, flatMap_nil, append_nil]
  · exact Conn.wire_flush (hsound hnil) halive

end Cornet.Http.Server
