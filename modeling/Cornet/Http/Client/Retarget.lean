import Cornet.Http.Client.Outgoing
import Cornet.Http.Client.Redirect
import Cornet.Http.FieldNames

/-!
# Http/Client/Retarget — does a redirected request still describe itself?

    POST /a · Host: a · Content-Length: 5 · hello      ─ 302 to http://b/ ─▸      GET / · Host: ? · Content-Length: ?

A redirect changes the url, and may change the method and drop the body; the headers the caller
staged stay as they are.  So the next request says where it goes and how long it is exactly when the
caller left both to the connection, or happened to stage what is still right (`consistent_iff`).
-/

namespace Cornet.Http.Client

open List

/-! ## Consistent requests -/

/-- What the fields of this name say. -/
def values (f : Field) (fields : List (List Byte × List Byte)) : List (List Byte) :=
  (fields.filter fun g => SameFold g.1 f.bytes).map fun g => trimOws g.2

/-- What may stand behind the size of a chunk. -/
def Extension (l : List Byte) : Prop :=
  Serializer.hasCrlf l = false ∧ (l = [] ∨ l.head? = some 0x3b)

/-- The size of a chunk, in hexadecimal of either case. -/
def SizeOf (l : List Byte) (n : ℕ) : Prop :=
  l ≠ [] ∧ (∀ b ∈ l, isHex (asciiLower b) = true) ∧ hexadecimal (l.map asciiLower) = n

/-- A body in chunks, whole. -/
inductive ChunkCoded : List Byte → Prop
  | last {size ext : List Byte} {trailers : List (List Byte)} :
      SizeOf size 0 → Extension ext → (∀ t ∈ trailers, t ≠ [] ∧ Serializer.hasCrlf t = false) →
      ChunkCoded (size ++ ext ++ crlf ++ trailers.flatMap (· ++ crlf) ++ crlf)
  | chunk {size ext data rest : List Byte} :
      data ≠ [] → SizeOf size data.length → Extension ext → ChunkCoded rest →
      ChunkCoded (size ++ ext ++ crlf ++ data ++ crlf ++ rest)

/-- The fields announce this body: none, one of this length, or one in chunks. -/
def Frames (fields : List (List Byte × List Byte)) (body : List Byte) : Prop :=
  match values .transferEncoding fields, values .contentLength fields with
  | [], [] => body = []
  | [], [v] => v ≠ [] ∧ (∀ b ∈ v, isDigit b = true) ∧ decimal v = body.length
  | [t], [] => SameFold t (ascii "chunked") ∧ ChunkCoded body
  | _, _ => False

/-- **A request that describes itself**: it names one host, this one, and announces the body it
has. -/
structure Outgoing.Consistent (o : Outgoing) (authority : List Byte) : Prop where
  host : values .host o.fields = [authority]
  framing : Frames o.fields o.body

/-! ## Reading the fields -/

variable {f : Field} {fs gs : List (List Byte × List Byte)} {l : List Byte} {ops : List RequestOp}
  {op : RequestOp} {req : Request}

theorem values_append : values f (fs ++ gs) = values f fs ++ values f gs := by
  rw [values, filter_append, map_append]
  rfl

theorem values_if (c : Bool) : values f (if c then fs else []) = if c then values f fs else [] := by
  cases c <;> rfl

theorem values_unless (c : Bool) : values f (if c then [] else fs) = if c then
    [] else values f fs := by
  cases c <;> rfl

theorem frames_congr (h₁ : values .transferEncoding fs = values .transferEncoding gs)
    (h₂ : values .contentLength fs = values .contentLength gs) : Frames fs l ↔ Frames gs l := by
  rw [Frames, Frames, h₁, h₂]

/-- Nothing to trim. -/
theorem trimOws_eq (h : ∀ b ∈ l, isOws b = false) : trimOws l = l := by
  have hdrop : ∀ {l : List Byte}, (∀ b ∈ l, isOws b = false) → l.dropWhile isOws = l
    | [], _ => rfl
    | b :: l, h => dropWhile_cons_of_neg (by rw [h b mem_cons_self]; nofun)
  rw [trimOws, hdrop h, hdrop fun b hb => h b (mem_reverse.mp hb), reverse_reverse]

theorem isOws_of_visible {b : Byte} (h : 0x20 < b) : isOws b = false := by
  rw [isOws, Bool.or_eq_false_iff, beq_eq_false_iff_ne, beq_eq_false_iff_ne]
  constructor <;> (rintro rfl; revert h; decide)

theorem trimOws_writeU64 (n : ℕ) : trimOws (writeU64 n) = writeU64 n := by
  refine trimOws_eq fun b hb => isOws_of_visible ?_
  have hdigit := isDigit_writeU64 n b hb
  rw [isDigit, Bool.and_eq_true, decide_eq_true_eq, decide_eq_true_eq] at hdigit
  exact UInt8.lt_iff_toNat_lt.mpr (by have : (0x20 : Byte).toNat = 32 := rfl; omega)

/-- A staged field of this name was noted. -/
theorem field_of_staged {g : List Byte × List Byte} (hop : op.WellNamed)
    (hstaged : op.staged = some g) (hfold : SameFold g.1 f.bytes) : op.field = some f := by
  have hname : fieldFromName g.1 = f := hfold.fieldFromName_eq.trans (fieldFromName_bytes f)
  cases op with
  | header f' v =>
    obtain rfl := Option.some.inj hstaged
    exact congrArg some ((fieldFromName_bytes f').symm.trans hname)
  | headerNamed n v =>
    obtain rfl := Option.some.inj hstaged
    rw [clip_of_lt hop.2] at hname
    exact congrArg some hname
  | headerU64 f' v =>
    obtain rfl := Option.some.inj hstaged
    exact congrArg some ((fieldFromName_bytes f').symm.trans hname)
  | _ => cases hstaged

/-- No call noted this field: none is staged. -/
theorem values_staged (hops : ∀ op ∈ ops, op.WellNamed)
    (hnone : ∀ op ∈ ops, op.field ≠ some f) : values f (stagedFields ops) = [] := by
  rw [values, map_eq_nil_iff, filter_eq_nil_iff]
  intro g hg hfold
  obtain ⟨op, hop, hstaged⟩ := mem_filterMap.mp hg
  exact hnone op hop (field_of_staged (hops op hop) hstaged (by simpa using hfold))

/-- The fields the connection adds: a host, and a length where it gives one. -/
theorem values_own (req : Request) (opt : ConnOptions) :
    values .host (ownFields req opt) = (if req.saw.host then
      [] else [trimOws (clip req.url.authority)]) ∧
      values .contentLength (ownFields req opt) = (if req.sizes then [writeU64 req.bodyLen]
        else []) ∧
      values .transferEncoding (ownFields req opt) = [] := by
  have hne (f g : Field) (v : List Byte) (h : ¬ SameFold g.bytes f.bytes) : values f
    [(g.bytes, v)] = [] := by
    rw [values, filter_cons_of_neg (by simpa using h)]
    rfl
  have hself (f : Field) (v : List Byte) : values f [(f.bytes, v)] = [trimOws v] := by
    rw [values, filter_cons_of_pos (by simp [SameFold])]
    rfl
  simp only [ownFields, values_append, values_if, values_unless]
  refine ⟨?_, ?_, ?_⟩
  · rw [hself, hne _ _ _ (by decide), hne _ _ _ (by decide), hne _ _ _ (by decide),
      hne _ _ _ (by decide),
      hne _ _ _ (by decide)]
    simp
  · rw [hself, hne _ _ _ (by decide), hne _ _ _ (by decide), hne _ _ _ (by decide),
      hne _ _ _ (by decide),
      hne _ _ _ (by decide), trimOws_writeU64]
    simp
  · rw [hne _ _ _ (by decide), hne _ _ _ (by decide), hne _ _ _ (by decide), hne _ _ _ (by decide),
      hne _ _ _ (by decide), hne _ _ _ (by decide)]
    simp

/-! ## The condition -/

/-- No call wrote a field that frames the body. -/
def Unframed (ops : List RequestOp) : Prop :=
  ∀ op ∈ ops, op.field ≠ some .contentLength ∧ op.field ≠ some .transferEncoding

/-- The caller's headers fit the request: it staged no host, or this one and no other; and no length
or coding, or the ones of the body that goes out. -/
structure Fitting (ops : List RequestOp) (req : Request) : Prop where
  host : (∀ op ∈ ops, op.field ≠ some .host) ∨ values .host (stagedFields ops) = [req.url.authority]
  unframed : Unframed ops → req.sentBody.length = req.bodyLen
  framed : ¬ Unframed ops → Frames (stagedFields ops) req.sentBody

theorem any_field_eq_false (f : Field) :
    (ops.any (·.field == some f)) = false ↔ ∀ op ∈ ops, op.field ≠ some f := by
  simp

theorem host_iff (hcarries : Carries ops req) (hops : ∀ op ∈ ops, op.WellNamed) (opt : ConnOptions)
    (hauth : trimOws (clip req.url.authority) = req.url.authority) :
    values .host (req.outgoing opt ops).fields = [req.url.authority] ↔
      (∀ op ∈ ops, op.field ≠ some .host) ∨
        values .host (stagedFields ops) = [req.url.authority] := by
  rw [Request.outgoing, values_append, (values_own req opt).1, hauth, ← any_field_eq_false,
    ← hcarries.host]
  cases hsaw : req.saw.host with
  | false =>
    have hnone := values_staged hops (any_field_eq_false .host |>.mp
      (hcarries.host.symm.trans hsaw))
    simp [hnone]
  | true => simp

/-- Without framing of its own, a request announces what it thinks it has. -/
theorem frames_own (hcarries : Carries ops req) (hops : ∀ op ∈ ops, op.WellNamed)
    (opt : ConnOptions)
    (hun : Unframed ops) (hlen : req.bodyLen < 2 ^ 64) :
    Frames (req.outgoing opt ops).fields req.sentBody ↔ req.sentBody.length = req.bodyLen := by
  have hcl := values_staged hops fun op hop => (hun op hop).1
  have hte := values_staged hops fun op hop => (hun op hop).2
  have hsizes : req.sizes = (decide (0 < req.bodyLen) || needsZeroLength req.method) := by
    rw [Request.sizes, hcarries.contentLength, hcarries.transferEncoding,
      (any_field_eq_false _).mpr fun op hop => (hun op hop).1,
      (any_field_eq_false _).mpr fun op hop => (hun op hop).2]
    rfl
  obtain ⟨-, hown, hown'⟩ := values_own req opt
  rw [Frames, Request.outgoing, values_append, values_append, hown, hown', hcl, hte]
  cases hs : req.sizes with
  | false =>
    rw [hs] at hsizes
    have hzero : req.bodyLen = 0 := by
      have := (Bool.or_eq_false_iff.mp hsizes.symm).1
      simpa using this
    have hnil : req.sentBody = [] := if_neg (by omega)
    simp [hzero, hnil]
  | true =>
    have hdec : decimal (writeU64 req.bodyLen) = req.bodyLen :=
      decimal_writeU64 (hlen.trans (by decide))
    have hne : writeU64 req.bodyLen ≠ [] := length_pos_iff.mp (length_writeU64_pos _)
    simp only [append_nil, if_true, hdec]
    exact ⟨fun h => h.2.2.symm, fun h => ⟨hne, isDigit_writeU64 _, h.symm⟩⟩

/-- With framing of its own, a request announces what the caller said. -/
theorem frames_staged (hcarries : Carries ops req) (opt : ConnOptions) (hun : ¬ Unframed ops) :
    Frames (req.outgoing opt ops).fields l ↔ Frames (stagedFields ops) l := by
  have hsizes : req.sizes = false := by
    rw [Request.sizes, hcarries.contentLength, hcarries.transferEncoding]
    by_contra hc
    simp only [Bool.not_eq_false, Bool.and_eq_true, Bool.not_eq_true', any_field_eq_false] at hc
    exact hun fun op hop => ⟨hc.1.1 op hop, hc.1.2 op hop⟩
  obtain ⟨-, hown, hown'⟩ := values_own req opt
  refine frames_congr ?_ ?_
  · rw [Request.outgoing, values_append, hown', nil_append]
  · rw [Request.outgoing, values_append, hown, hsizes]
    rfl

/-- A request describes itself if and only if the caller's headers fit it. -/
theorem consistent_iff_fitting (hcarries : Carries ops req) (hops : ∀ op ∈ ops, op.WellNamed)
    (opt : ConnOptions)
    (hlen : req.bodyLen < 2 ^ 64) (hauth : trimOws (clip req.url.authority) = req.url.authority) :
    (req.outgoing opt ops).Consistent req.url.authority ↔ Fitting ops req := by
  constructor
  · rintro ⟨hhost, hframes⟩
    exact ⟨(host_iff hcarries hops opt hauth).mp hhost,
      fun hun => (frames_own hcarries hops opt hun hlen).mp hframes,
      fun hun => (frames_staged hcarries opt hun).mp hframes⟩
  · rintro ⟨hhost, hunframed, hframed⟩
    refine ⟨(host_iff hcarries hops opt hauth).mpr hhost, ?_⟩
    by_cases hun : Unframed ops
    · exact (frames_own hcarries hops opt hun hlen).mpr (hunframed hun)
    · exact (frames_staged hcarries opt hun).mpr (hframed hun)

/-! ## Redirected requests -/

/-- What the requests of a `send` have in common. -/
structure Chained (ops : List RequestOp) (req : Request) : Prop where
  carries : Carries ops req
  size : req.bodyLen < 2 ^ 64

theorem Carries.rewritten (h : Carries ops req) (s : Status) : Carries ops (req.rewritten s) := by
  rw [Request.rewritten]
  split
  · exact ⟨h.puts, h.host, h.contentLength, h.transferEncoding⟩
  · exact h

theorem Request.bodyLen_rewritten (req : Request) (s : Status) : (req.rewritten s).bodyLen ≤
    req.bodyLen := by
  rw [rewritten]
  split
  · exact Nat.zero_le _
  · exact le_rfl

/-- A visible target stays on its line. -/
theorem hasCrlf_requestLineOf (hpath : ∀ b ∈ req.url.path, 0x20 < b)
    (hquery : ∀ b ∈ req.url.query, 0x20 < b) :
    Serializer.hasCrlf (requestLineOf req) = false := by
  have hname : ∀ b ∈ ascii req.method.name, 0x20 < b := by
    cases req.method <;> decide +kernel
  have htext : ∀ b ∈ ascii " " ++ ascii "/" ++ ascii "?" ++ ascii " HTTP/1.1", 0x20 ≤ b :=
    by decide +kernel
  simp only [mem_append, or_imp, forall_and] at htext
  obtain ⟨⟨⟨hspace, hslash⟩, hmark⟩, hversion⟩ := htext
  have hall : ∀ b ∈ requestLineOf req, 0x20 ≤ b := by
    intro b hb
    simp only [requestLineOf, mem_append] at hb
    rcases hb with (((hb | hb) | hb) | hb) | hb
    · exact UInt8.le_of_lt (hname b hb)
    · exact hspace b hb
    · split at hb
      · exact hslash b hb
      · exact UInt8.le_of_lt (hpath b (mem_of_mem_take hb))
    · split at hb
      · exact absurd hb not_mem_nil
      · rcases mem_append.mp hb with hb | hb
        · exact hmark b hb
        · exact UInt8.le_of_lt (hquery b (mem_of_mem_take hb))
    · exact hversion b hb
  rw [Serializer.hasCrlf, Bool.or_eq_false_iff, decide_eq_false_iff_not, decide_eq_false_iff_not]
  exact ⟨fun h => absurd (hall _ h) (by decide), fun h => absurd (hall _ h) (by decide)⟩

/-- The url of a redirect can be written as it is. -/
structure Written (req : Request) : Prop where
  authority : trimOws (clip req.url.authority) = req.url.authority
  line : Serializer.hasCrlf (requestLineOf req) = false

theorem Chained.follow {req' : Request} {resp : Response} (h : Chained ops req)
    (hfollow : follow req resp = some req') : Chained ops req' ∧ Written req' := by
  obtain ⟨⟨text, htext, hparse⟩, -, heq⟩ := follows_of_follow hfollow
  have hcarries := h.carries.rewritten resp.answer.status
  obtain ⟨hshown, hvisible⟩ := Url.shownBy_of_parse hparse
  have hlt : req'.url.authority.length < 2 ^ 32 :=
    (hshown.authority.length_le.trans htext).trans_lt (by decide)
  refine ⟨?_, ?_, ?_⟩
  · rw [heq]
    exact ⟨⟨hcarries.puts, hcarries.host, hcarries.contentLength, hcarries.transferEncoding⟩,
      (req.bodyLen_rewritten _).trans_lt h.size⟩
  · rw [clip_of_lt hlt]
    exact trimOws_eq fun b hb => isOws_of_visible (hvisible b (hshown.authority.subset hb))
  · exact hasCrlf_requestLineOf (fun b hb => hvisible b (hshown.path.subset hb))
      fun b hb => hvisible b (hshown.query.subset hb)

/-- What an attempt put on the wire is the start of this request, which can be split in one way; it
is all of it if the attempt returned and did not wait for a 100. -/
def Attempt.Writes (a : Attempt) (o : Outgoing) : Prop :=
  ∃ pre, pre <+: o.text ∧ a.after.wire.sent = a.lease.conn.wire.sent ++ pre ∧
    (pre ≠ [] → o.WellFormed) ∧
    (a.outcome = .ok () → (a.req.expectContinue && 0 < a.req.bodyLen) = false → pre = o.text)

theorem writes_outgoing {a : Attempt} {n : ℕ} (hcarries : Carries ops a.req)
    (hline : Serializer.hasCrlf (requestLineOf a.req) = false)
    (hran : ∃ r, Connection.exchange n a.req a.lease.conn = (a.after, r) ∧
      a.outcome = r.map fun _ => ()) :
    a.Writes (a.req.outgoing a.lease.conn.opt ops) := by
  obtain ⟨r, hr, hout⟩ := hran
  obtain ⟨hwrote, hret⟩ := Connection.stays_exchange n a.lease.conn a.req
  rw [hr] at hwrote
  obtain ⟨pre, hpre, hsent, hgood⟩ := hwrote
  have hbytes (herr : a.req.error = none) (hframed : (a.lease.conn.framed a.req).err = none) :
      a.lease.conn.requestBytes a.req = (a.req.outgoing a.lease.conn.opt ops).text ∧
        ∀ f ∈ (a.req.outgoing a.lease.conn.opt ops).fields, Clean f := by
    obtain ⟨hhead, hclean⟩ := head_eq hcarries a.lease.conn.opt a.lease.conn.headOut herr hframed
    exact ⟨congrArg (· ++ a.req.sentBody) hhead, hclean⟩
  by_cases hnil : pre = []
  · refine ⟨[], nil_prefix, hnil ▸ hsent, fun h => absurd rfl h, fun hok hwaits => ?_⟩
    match r, hout.symm.trans hok with
    | .ok resp, _ =>
      -- a request is never empty
      have hall := hret a.after resp hr hwaits
      rw [hnil] at hsent
      have hempty := append_cancel_left (hsent.symm.trans hall)
      have hcrlf : crlf ⊆ a.lease.conn.requestBytes a.req := by
        intro b hb
        exact mem_append_left _ (mem_append_right _ hb)
      exact absurd (hempty ▸ hcrlf mem_cons_self) not_mem_nil
  · obtain ⟨hrequest, hclean⟩ := hbytes (hgood hnil).1 (hgood hnil).2
    refine ⟨pre, hrequest ▸ hpre, hsent, fun _ => ⟨hline, hclean⟩, fun hok hwaits => ?_⟩
    match r, hout.symm.trans hok with
    | .ok resp, _ =>
      exact hrequest ▸ append_cancel_left (hsent.symm.trans (hret a.after resp hr hwaits))

/-- **A redirected request describes itself if and only if the caller's headers fit it.**  Whatever
the pool and the peers do, what every attempt behind a redirect writes is the start of one request;
it names the host the redirect leads to and announces the body it has exactly when what the caller
staged fits. -/
theorem consistent_iff {m : Server.Method} {url : Url} {hdrBytes : ℕ} {ops : List RequestOp}
    (hops : ∀ op ∈ ops, op.WellNamed) (hsize : (Request.made m url hdrBytes ops).bodyLen < 2 ^ 64)
    (cl : HttpClient) (n : ℕ) (pool : ℕ → Except ReadError Lease) :
    ∀ a ∈ (cl.send n (.made m url hdrBytes ops) { pool }).1.log, a.hop ≠ 0 →
      let o := a.req.outgoing a.lease.conn.opt ops
      a.Writes o ∧ (o.Consistent a.req.url.authority ↔ Fitting ops a.req) := by
  have hchained : Chained ops (.made m url hdrBytes ops) := by
    have hcarries := (carries_make m url hdrBytes).build hops
    exact ⟨hcarries, hsize⟩
  have htrail := trail_send cl n (.made m url hdrBytes ops) pool
  intro a ha hhop
  obtain ⟨⟨hcarries, hlen⟩, hauth, hline⟩ := htrail.forall_followed hchained
    (fun _ _ _ h hfollow => h.follow hfollow) a ha hhop
  exact ⟨writes_outgoing hcarries hline (htrail.ran a ha),
    consistent_iff_fitting hcarries hops _ hlen hauth⟩

/-! ## Runs -/

/-- The record of a request that is redirected once to `b.test`. -/
def redirectedTo (m : Server.Method) (status : UInt16) (ops : List RequestOp) : List Attempt :=
  (HttpClient.send { maxRedirects := 1 } 4 (.made m (urlOf "http://a.test/") 4096 ops)
    { pool := redirecting status "http://b.test/" }).1.log

/-- A POST that is redirected with its body. -/
theorem consistent_iff_post :
    (∃ a ∈ redirectedTo .post 307 [.body (ascii "hello")], a.hop ≠ 0) ∧
      ∀ a ∈ redirectedTo .post 307 [.body (ascii "hello")], a.hop ≠ 0 →
        let o := a.req.outgoing a.lease.conn.opt [.body (ascii "hello")]
        a.Writes o ∧ (o.Consistent a.req.url.authority ↔ Fitting [.body (ascii "hello")] a.req) :=
  ⟨by decide +kernel,
    consistent_iff (by decide) (by decide) { maxRedirects := 1 } 4
      (redirecting 307 "http://b.test/")⟩

/-- What an attempt that returned wrote can be read in one way. -/
theorem Attempt.Writes.unique {a : Attempt} {o o' : Outgoing} (h : a.Writes o)
    (hok : a.outcome = .ok ())
    (hwaits : (a.req.expectContinue && 0 < a.req.bodyLen) = false)
    (hsent : a.after.wire.sent = a.lease.conn.wire.sent ++ o'.text)
      (hwf : o'.WellFormed) : o = o' := by
  obtain ⟨pre, -, hpre, hclean, hall⟩ := h
  obtain rfl := hall hok hwaits
  have htext : o.text = o'.text := append_cancel_left (hpre.symm.trans hsent)
  refine Outgoing.text_inj (hclean ?_) hwf htext
  simp [Outgoing.text, Outgoing.head, crlf]

/-- Some attempt behind a redirect wrote exactly this. -/
def Sends (log : List Attempt) (o : Outgoing) (authority : List Byte) : Prop :=
  ∃ a ∈ log, a.hop ≠ 0 ∧ a.outcome = .ok () ∧ (a.req.expectContinue && 0 < a.req.bodyLen) = false ∧
    a.after.wire.sent = a.lease.conn.wire.sent ++ o.text ∧ a.req.url.authority = authority

instance (log : List Attempt) (o : Outgoing) (authority : List Byte) : Decidable
    (Sends log o authority) :=
  inferInstanceAs (Decidable (∃ a ∈ log, _ ∧ _ ∧ _ ∧ _ ∧ _))

theorem Sends.inconsistent {log : List Attempt} {o : Outgoing} {authority : List Byte}
    (h : Sends log o authority) (hwf : o.WellFormed) (hbad : ¬ o.Consistent authority) :
    ∃ a ∈ log, a.hop ≠ 0 ∧ ∀ o : Outgoing, a.Writes o → ¬ o.Consistent a.req.url.authority := by
  obtain ⟨a, ha, hhop, hok, hwaits, hsent, rfl⟩ := h
  refine ⟨a, ha, hhop, fun o' hwrites => ?_⟩
  rwa [hwrites.unique hok hwaits hsent hwf]

/-- The request that goes to `b.test` after a redirect of a request with a staged `Host`. -/
def staleHost : Outgoing where
  line := ascii "GET / HTTP/1.1"
  fields := [(ascii "User-Agent", ascii "cornet"), (ascii "Accept", ascii "*/*"),
    (ascii "Connection", ascii "keep-alive"), (ascii "Host", ascii "a.test")]
  body := []

/-- The GET that a POST with a staged length becomes. -/
def staleLength : Outgoing where
  line := ascii "GET / HTTP/1.1"
  fields := [(ascii "Host", ascii "b.test"), (ascii "User-Agent", ascii "cornet"),
    (ascii "Accept", ascii "*/*"),
    (ascii "Connection", ascii "keep-alive"), (ascii "Content-Length", ascii "5")]
  body := []

/-- **Staged headers outlive what they describe**: a redirect to another host keeps a staged `Host`,
and a redirect that turns a POST into a GET keeps a staged `Content-Length` without the body. -/
theorem stale_headers_follow_redirects :
    (∃ a ∈ redirectedTo .get 302 [.header .host (ascii "a.test")], a.hop ≠ 0 ∧
        ∀ o : Outgoing, a.Writes o → ¬ o.Consistent a.req.url.authority) ∧
      ∃ a ∈ redirectedTo .post 302 [.headerU64 .contentLength 5, .body (ascii "hello")], a.hop ≠ 0 ∧
        ∀ o : Outgoing, a.Writes o → ¬ o.Consistent a.req.url.authority := by
  constructor
  · have hsends : Sends (redirectedTo .get 302 [.header .host (ascii "a.test")]) staleHost
      (ascii "b.test") := by
      decide +kernel
    refine hsends.inconsistent (by decide) fun h => ?_
    exact absurd h.host (by decide)
  · have hsends : Sends (redirectedTo .post 302
      [.headerU64 .contentLength 5, .body (ascii "hello")]) staleLength
        (ascii "b.test") := by
      decide +kernel
    refine hsends.inconsistent (by decide) fun h => ?_
    have hlen : decimal (ascii "5") = 0 := h.framing.2.2
    exact absurd hlen (by decide)

end Cornet.Http.Client
