import Cornet.Http.Client.Listening

/-!
# Http/Client/Outgoing — the request its reader gets to see

    line CRLF · name ": " value CRLF · … · CRLF · body          = the connection's fields ++ the caller's fields

What an exchange writes is a prefix of one text, and the text splits in one way into a line, fields
and a body: the fields the connection adds, then the ones the caller staged, call by call.
-/

namespace Cornet.Http

open List

namespace Client

/-! ## Texts -/

/-- A field on the wire. -/
def fieldText (f : List Byte × List Byte) : List Byte := f.1 ++ ascii ": " ++ f.2 ++ crlf

/-- It can be told where the name ends, and where the field does. -/
structure Clean (f : List Byte × List Byte) : Prop where
  name : Serializer.hasCrlf f.1 = false
  colon : 0x3a ∉ f.1
  value : Serializer.hasCrlf f.2 = false

instance (f : List Byte × List Byte) : Decidable (Clean f) :=
  decidable_of_iff (_ ∧ _ ∧ _) ⟨fun h => ⟨h.1, h.2.1, h.2.2⟩, fun h => ⟨h.name, h.colon, h.value⟩⟩

/-- A request, split. -/
structure Outgoing where
  line : List Byte
  fields : List (List Byte × List Byte)
  body : List Byte

namespace Outgoing

variable (o : Outgoing)

def head : List Byte := o.line ++ crlf ++ o.fields.flatMap fieldText ++ crlf

def text : List Byte := o.head ++ o.body

/-- It can be split in one way only. -/
structure WellFormed : Prop where
  line : Serializer.hasCrlf o.line = false
  fields : ∀ f ∈ o.fields, Clean f

instance : Decidable o.WellFormed :=
  decidable_of_iff (_ ∧ _) ⟨fun h => ⟨h.1, h.2⟩, fun h => ⟨h.line, h.fields⟩⟩

end Outgoing

theorem not_mem_of_hasCrlf {l : List Byte} (h : Serializer.hasCrlf l = false) : 13 ∉ l ∧
    10 ∉ l := by
  simpa [Serializer.hasCrlf] using h

/-- Two texts cut at the first `a` of each. -/
theorem cut_inj {a : Byte} {x y : List Byte} : ∀ {l l' : List Byte}, a ∉ l → a ∉ l' →
    l ++ a :: x = l' ++ a :: y → l = l' ∧ x = y
  | [], [], _, _, h => ⟨rfl, (List.cons.inj h).2⟩
  | [], b :: l', _, h', h => absurd ((List.cons.inj h).1 ▸ mem_cons_self) h'
  | b :: l, [], hl, _, h => absurd ((List.cons.inj h).1 ▸ mem_cons_self) hl
  | b :: l, b' :: l', hl, hl', h => by
      obtain ⟨rfl, htail⟩ := List.cons.inj h
      obtain ⟨rfl, hxy⟩ := cut_inj (fun hm => hl (mem_cons_of_mem b hm))
        (fun hm => hl' (mem_cons_of_mem b hm)) htail
      exact ⟨rfl, hxy⟩

/-- A field, cut at its colon and at its end. -/
theorem fieldText_append (f : List Byte × List Byte) (tail : List Byte) :
    fieldText f ++ tail = f.1 ++ 0x3a :: 0x20 :: (f.2 ++ 13 :: 10 :: tail) := by
  simp only [fieldText, append_assoc]
  rfl

/-- An empty line is not a field. -/
theorem crlf_ne_fieldText {f : List Byte × List Byte} (hf : Clean f) (x tail : List Byte) :
    crlf ++ x ≠ fieldText f ++ tail := by
  rw [fieldText_append]
  intro h
  match hname : f.1 with
  | [] =>
    rw [hname] at h
    exact absurd (List.cons.inj h).1 (by decide)
  | b :: l =>
    rw [hname] at h
    have hmem : 13 ∈ f.1 := hname ▸ (List.cons.inj h).1 ▸ mem_cons_self
    exact (not_mem_of_hasCrlf hf.name).1 hmem

/-- The fields end at the first empty line. -/
theorem fields_inj {body body' : List Byte} : ∀ {fs gs : List (List Byte × List Byte)},
    (∀ f ∈ fs, Clean f) →
    (∀ g ∈ gs, Clean g) → fs.flatMap fieldText ++ (crlf ++ body) = gs.flatMap fieldText ++
      (crlf ++ body') →
    fs = gs ∧ body = body'
  | [], [], _, _, h => ⟨rfl, append_cancel_left h⟩
  | [], g :: gs, _, hgs, h => by
      rw [flatMap_cons, append_assoc] at h
      exact absurd h (crlf_ne_fieldText (hgs g mem_cons_self) _ _)
  | f :: fs, [], hfs, _, h => by
      rw [flatMap_cons, append_assoc] at h
      exact absurd h.symm (crlf_ne_fieldText (hfs f mem_cons_self) _ _)
  | f :: fs, g :: gs, hfs, hgs, h => by
      have hf := hfs f mem_cons_self
      have hg := hgs g mem_cons_self
      rw [flatMap_cons, flatMap_cons, append_assoc, append_assoc, fieldText_append,
        fieldText_append] at h
      obtain ⟨hname, h⟩ := cut_inj hf.colon hg.colon h
      obtain ⟨hvalue, h⟩ := cut_inj (not_mem_of_hasCrlf hf.value).1 (not_mem_of_hasCrlf hg.value).1
        (List.cons.inj h).2
      obtain ⟨rfl, hbody⟩ := fields_inj (fun f' hf' => hfs f' (mem_cons_of_mem f hf'))
        (fun g' hg' => hgs g' (mem_cons_of_mem g hg')) (List.cons.inj h).2
      exact ⟨congrArg (· :: fs) (Prod.ext hname hvalue), hbody⟩

/-- **A well-formed request is read off its text.** -/
theorem Outgoing.text_inj {o o' : Outgoing} (h : o.WellFormed) (h' : o'.WellFormed)
    (htext : o.text = o'.text) :
    o = o' := by
  have hcut (o : Outgoing) :
      o.text = o.line ++ 13 :: 10 :: (o.fields.flatMap fieldText ++ (crlf ++ o.body)) := by
    simp only [text, head, append_assoc]
    rfl
  rw [hcut, hcut] at htext
  obtain ⟨hline, htext⟩ :=
    cut_inj (not_mem_of_hasCrlf h.line).1 (not_mem_of_hasCrlf h'.line).1 htext
  obtain ⟨hfields, hbody⟩ := fields_inj h.fields h'.fields (List.cons.inj htext).2
  cases o
  cases o'
  exact congr (congr (congrArg mk hline) hfields) hbody

/-- `b'` is `b` with these fields behind it, which are clean unless it failed. -/
structure Puts (b : OutBuffer) (fs : List (List Byte × List Byte)) (b' : OutBuffer) : Prop
    extends OutBuffer.Adds b (fs.flatMap fieldText) b' where
  clean : b'.err = none → ∀ f ∈ fs, Clean f

variable {b b₁ b₂ : OutBuffer} {fs gs : List (List Byte × List Byte)}

theorem Puts.refl (b : OutBuffer) : Puts b [] b := ⟨.refl b, fun _ => nofun⟩

theorem Puts.trans (h : Puts b fs b₁) (h' : Puts b₁ gs b₂) : Puts b (fs ++ gs) b₂ where
  toAdds := by
    rw [flatMap_append]
    exact h.toAdds.trans h'.toAdds
  clean herr := by
    intro f hf
    rcases mem_append.mp hf with hf | hf
    · exact h.clean (h'.err_none herr) f hf
    · exact h'.clean herr f hf

theorem puts_if (c : Bool) (h : Puts b fs b₁) : Puts b (if c then fs else [])
    (if c then b₁ else b) := by
  cases c with
  | true => exact h
  | false => exact .refl b

theorem puts_unless (c : Bool) (h : Puts b fs b₁) : Puts b (if c then [] else fs)
    (if c then b else b₁) := by
  cases c with
  | true => exact .refl b
  | false => exact h

/-! ### The serializer -/

theorem hasCrlf_clip {l : List Byte} (h : Serializer.hasCrlf l = false) : Serializer.hasCrlf
    (clip l) = false := by
  simp only [Serializer.hasCrlf, Bool.or_eq_false_iff, decide_eq_false_iff_not] at h ⊢
  exact ⟨fun hm => h.1 (mem_of_mem_take hm), fun hm => h.2 (mem_of_mem_take hm)⟩

theorem hasCrlf_writeU64 (v : ℕ) : Serializer.hasCrlf (writeU64 v) = false := by
  have hdigit := isDigit_writeU64 v
  simp only [Serializer.hasCrlf, Bool.or_eq_false_iff, decide_eq_false_iff_not]
  exact ⟨fun h => absurd (hdigit _ h) (by decide), fun h => absurd (hdigit _ h) (by decide)⟩

theorem err_fail_ne_none (e : HttpError) : (b.fail e).err ≠ none := by
  rw [OutBuffer.fail]
  split
  · rename_i h
    exact Option.isSome_iff_ne_none.mp h
  · rintro ⟨⟩

/-- The names of the table are clean. -/
theorem clean_bytes (f : Field) : Serializer.hasCrlf f.bytes = false ∧ 0x3a ∉ f.bytes := by
  cases f <;> decide

theorem puts_header {f : Field} (hf : f ≠ .other) (v : List Byte) :
    Puts b [(f.bytes, clip v)] (Serializer.header b f v) where
  toAdds := by
    have htext : [(f.bytes, clip v)].flatMap fieldText = headerText f v := by
      rw [flatMap_singleton]
      cases f <;> first | rfl | exact absurd rfl hf
    rw [htext]
    exact Serializer.adds_header f v
  clean herr := by
    intro g hg
    obtain rfl := mem_singleton.mp hg
    refine ⟨(clean_bytes f).1, (clean_bytes f).2, hasCrlf_clip ?_⟩
    rw [Serializer.header] at herr
    split at herr
    · exact absurd herr (err_fail_ne_none _)
    · rename_i h
      simpa using h

theorem puts_headerU64 {f : Field} (hf : f ≠ .other) (v : ℕ) :
    Puts b [(f.bytes, writeU64 v)] (Serializer.headerU64 b f v) where
  toAdds := by
    have htext : [(f.bytes, writeU64 v)].flatMap fieldText = numberText f v := by
      rw [flatMap_singleton]
      cases f <;> first | rfl | exact absurd rfl hf
    rw [htext]
    exact Serializer.adds_headerU64 f v
  clean _ := by
    intro g hg
    obtain rfl := mem_singleton.mp hg
    exact ⟨(clean_bytes f).1, (clean_bytes f).2, hasCrlf_writeU64 v⟩

theorem puts_headerNamed {name : List Byte} (hcolon : 0x3a ∉ name) (v : List Byte) :
    Puts b [(clip name, clip v)] (Serializer.headerNamed b name v) where
  toAdds := by
    rw [flatMap_singleton]
    exact Serializer.adds_headerNamed name v
  clean herr := by
    intro g hg
    obtain rfl := mem_singleton.mp hg
    rw [Serializer.headerNamed] at herr
    split at herr
    · exact absurd herr (err_fail_ne_none _)
    · rename_i h
      rw [Bool.or_eq_true, not_or, Bool.not_eq_true, Bool.not_eq_true] at h
      exact ⟨hasCrlf_clip h.1, fun hm => hcolon (mem_of_mem_take hm), hasCrlf_clip h.2⟩

/-! ## The head -/

/-- The first line. -/
def requestLineOf (req : Request) : List Byte :=
  ascii req.method.name ++ ascii " " ++
    (if req.url.path = [] then ascii "/" else clip req.url.path) ++
    (if req.url.query = [] then [] else ascii "?" ++ clip req.url.query) ++ ascii " HTTP/1.1"

theorem requestText_eq (req : Request) :
    requestText req.method req.url.path req.url.query = requestLineOf req ++ crlf := by
  rw [requestText, requestLineOf, append_assoc _ (ascii " HTTP/1.1")]
  rfl

/-- Whether the connection says how long the body is. -/
def Request.sizes (req : Request) : Bool :=
  !req.saw.contentLength && !req.saw.transferEncoding &&
    (0 < req.bodyLen || needsZeroLength req.method)

/-- The fields the connection adds. -/
def ownFields (req : Request) (opt : ConnOptions) : List (List Byte × List Byte) :=
  (if req.saw.host then [] else [(Field.bytes .host, clip req.url.authority)]) ++
  (if opt.sendUserAgent && !req.saw.userAgent then [(Field.bytes .userAgent, clip opt.userAgent)]
    else []) ++
  (if opt.sendAccept && !req.saw.accept then [(Field.bytes .accept, ascii "*/*")] else []) ++
  (if req.saw.connection then [] else [(Field.bytes .connection, ascii "keep-alive")]) ++
  (if req.sizes then [(Field.bytes .contentLength, writeU64 req.bodyLen)] else []) ++
  if req.expectContinue && !req.saw.expect && 0 < req.bodyLen then
    [(Field.bytes .expect, ascii "100-continue")]
  else []

/-- What `frame_request_head` writes. -/
theorem frameRequestHead_eq (req : Request) (opt : ConnOptions) :
    ∃ b₁, b.Adds (requestLineOf req ++ crlf) b₁ ∧
      Puts b₁ (ownFields req opt) (frameRequestHead b req opt false) := by
  refine ⟨_, requestText_eq req ▸ Serializer.adds_requestLine _ _ _, ?_⟩
  rw [frameRequestHead]
  have hsizes (out : OutBuffer) :
      (if false = true then
        if req.saw.transferEncoding then out else Serializer.header out .transferEncoding
          (ascii "chunked")
      else if !req.saw.contentLength && !req.saw.transferEncoding then
        if 0 < req.bodyLen || needsZeroLength req.method then
          Serializer.headerU64 out .contentLength req.bodyLen
        else out
      else out) = if req.sizes then Serializer.headerU64 out .contentLength req.bodyLen
        else out := by
    rw [if_neg nofun, Request.sizes]
    cases !req.saw.contentLength && !req.saw.transferEncoding <;> rfl
  rw [hsizes]
  have h₁ := puts_unless (b := Serializer.requestLine b req.method req.url.path req.url.query
    .http11)
    req.saw.host (puts_header (f := .host) nofun req.url.authority)
  have h₂ := h₁.trans (puts_if (opt.sendUserAgent && !req.saw.userAgent)
    (puts_header (f := .userAgent) nofun opt.userAgent))
  have h₃ := h₂.trans (puts_if (opt.sendAccept && !req.saw.accept)
    (puts_header (f := .accept) nofun (ascii "*/*")))
  have h₄ := h₃.trans (puts_unless req.saw.connection
    (puts_header (f := .connection) nofun (ascii "keep-alive")))
  have h₅ := h₄.trans (puts_if req.sizes (puts_headerU64 (f := .contentLength) nofun req.bodyLen))
  exact h₅.trans (puts_if (req.expectContinue && !req.saw.expect && 0 < req.bodyLen)
    (puts_header (f := .expect) nofun (ascii "100-continue")))

/-! ## The staged headers -/

/-- The field a call stages. -/
def RequestOp.staged : RequestOp → Option (List Byte × List Byte)
  | header f v => some (f.bytes, clip v)
  | headerNamed n v => some (clip n, clip v)
  | headerU64 f v => some (f.bytes, writeU64 v)
  | _ => none

def stagedFields (ops : List RequestOp) : List (List Byte × List Byte) :=
  ops.filterMap RequestOp.staged

/-- The field has a name, and the name has no colon and less than 4 GiB. -/
def RequestOp.WellNamed : RequestOp → Prop
  | header f _ => f ≠ .other
  | headerNamed n _ => 0x3a ∉ n ∧ n.length < 2 ^ 32
  | headerU64 f _ => f ≠ .other
  | _ => True

instance : DecidablePred RequestOp.WellNamed
  | .header f _ | .headerU64 f _ => inferInstanceAs (Decidable (f ≠ .other))
  | .headerNamed n _ => inferInstanceAs (Decidable (0x3a ∉ n ∧ n.length < 2 ^ 32))
  | .body _ | .bodyStatic _ | .expectContinue _ | .retry _ | .idempotent _ | .followRedirects _ =>
    isTrue trivial

/-- The request holds the headers these calls staged, and knows which of them frame it. -/
structure Carries (ops : List RequestOp) (req : Request) : Prop where
  puts : ∃ b : OutBuffer, b.size = 0 ∧ Puts b (stagedFields ops) req.hdr
  host : req.saw.host = ops.any (·.field == some .host)
  contentLength : req.saw.contentLength = ops.any (·.field == some .contentLength)
  transferEncoding : req.saw.transferEncoding = ops.any (·.field == some .transferEncoding)

variable {ops : List RequestOp} {op : RequestOp} {req req' : Request}

theorem Carries.sameHead (h : Carries ops req) (hhead : req.SameHead req') : Carries ops req' where
  puts := hhead.hdr_eq ▸ h.puts
  host := (congrArg Saw.host hhead.saw_eq).trans h.host
  contentLength := (congrArg Saw.contentLength hhead.saw_eq).trans h.contentLength
  transferEncoding := (congrArg Saw.transferEncoding hhead.saw_eq).trans h.transferEncoding

/-- A call that writes a field. -/
theorem Carries.writes {f : Field} (h : Carries ops req) (hfield : op.field = some f)
    (hputs : ∃ fs, op.staged = some fs ∧ Puts req.hdr [fs] req'.hdr)
      (hsaw : req'.saw = req.saw.note f) :
    Carries (ops ++ [op]) req' where
  puts := by
    obtain ⟨b, hb, hput⟩ := h.puts
    obtain ⟨fs, hstaged, hput'⟩ := hputs
    refine ⟨b, hb, ?_⟩
    rw [stagedFields, filterMap_append, filterMap_cons, hstaged]
    exact hput.trans hput'
  host := by
    rw [hsaw, any_append, ← h.host, any_cons, hfield]
    cases f <;> simp [Saw.note]
  contentLength := by
    rw [hsaw, any_append, ← h.contentLength, any_cons, hfield]
    cases f <;> simp [Saw.note]
  transferEncoding := by
    rw [hsaw, any_append, ← h.transferEncoding, any_cons, hfield]
    cases f <;> simp [Saw.note]

/-- A call that writes none. -/
theorem Carries.skips (h : Carries ops req) (hfield : op.field = none) (hstaged : op.staged = none)
    (hhead : req.SameHead req') : Carries (ops ++ [op]) req' := by
  obtain ⟨hputs, h₁, h₂, h₃⟩ := h.sameHead hhead
  refine ⟨?_, ?_, ?_, ?_⟩
  · rwa [stagedFields, filterMap_append, filterMap_cons, hstaged, filterMap_nil, append_nil]
  all_goals simp [*]

theorem Carries.call (h : Carries ops req) (hop : op.WellNamed) : Carries (ops ++ [op])
    (req.call op) := by
  cases op with
  | header f v => exact h.writes rfl ⟨_, rfl, puts_header hop v⟩ rfl
  | headerNamed n v => exact h.writes rfl ⟨_, rfl, puts_headerNamed hop.1 v⟩ rfl
  | headerU64 f v => exact h.writes rfl ⟨_, rfl, puts_headerU64 hop v⟩ rfl
  | body data => exact h.skips rfl rfl (req.sameHead_body data)
  | bodyStatic data => exact h.skips rfl rfl (req.sameHead_bodyStatic data)
  | expectContinue | retry | idempotent | followRedirects =>
    exact h.skips rfl rfl ⟨rfl, rfl, rfl, rfl⟩

theorem Carries.build : ∀ {ops' ops : List RequestOp} {req : Request}, Carries ops req →
    (∀ op ∈ ops', op.WellNamed) → Carries (ops ++ ops') (req.build ops')
  | [], ops, req, h, _ => by
      rw [append_nil]
      exact h
  | op :: ops', ops, req, h, hops => by
      have hnext := (h.call (hops op mem_cons_self)).build fun op' hop' =>
        hops op' (mem_cons_of_mem op hop')
      rwa [append_assoc] at hnext

theorem carries_make (m : Server.Method) (url : Url) (hdrBytes : ℕ) :
    Carries [] (Request.make m url hdrBytes) :=
  ⟨⟨_, rfl, .refl _⟩, rfl, rfl, rfl⟩

/-- What was added to an empty buffer is all of it. -/
theorem view_of_adds {l : List Byte} (h : b.Adds l b₁) (hsize : b.size = 0) (herr : b₁.err = none) :
    b₁.view 0 b₁.size = l := by
  have hadded := h.added herr
  rw [hsize] at hadded
  rw [h.size_eq herr, hsize, Nat.zero_add]
  exact hadded

theorem Carries.stagedHeaders_eq (h : Carries ops req) (herr : req.hdr.err = none) :
    req.stagedHeaders = (stagedFields ops).flatMap fieldText ∧ ∀ f ∈ stagedFields ops, Clean f := by
  obtain ⟨b, hsize, hputs⟩ := h.puts
  exact ⟨view_of_adds hputs.toAdds hsize herr, hputs.clean herr⟩

/-! ## What an exchange writes -/

/-- The body that goes out. -/
def Request.sentBody (req : Request) : List Byte := if 0 < req.bodyLen then req.bodyView else []

/-- A request of these calls, as its reader gets to see it. -/
def Request.outgoing (req : Request) (opt : ConnOptions) (ops : List RequestOp) : Outgoing :=
  ⟨requestLineOf req, ownFields req opt ++ stagedFields ops, req.sentBody⟩

/-- The head that is framed, and its fields. -/
theorem head_eq (h : Carries ops req) (opt : ConnOptions) (b : OutBuffer) (herr : req.error = none)
    (hout : (frameRequestHead b.clear req opt false).err = none) :
    (frameRequestHead b.clear req opt false).view 0 (frameRequestHead b.clear req opt false).size ++
        req.stagedHeaders ++ crlf = (req.outgoing opt ops).head ∧
      ∀ f ∈ (req.outgoing opt ops).fields, Clean f := by
  obtain ⟨b₁, hline, hown⟩ := frameRequestHead_eq (b := b.clear) req opt
  have hhdr : req.hdr.err = none := by
    simp only [Request.error, Option.or_eq_none_iff] at herr
    exact herr.1.2
  obtain ⟨hstaged, hclean⟩ := h.stagedHeaders_eq hhdr
  refine ⟨?_, fun f hf => ?_⟩
  · rw [view_of_adds (hline.trans hown.toAdds) rfl hout, hstaged, Outgoing.head, Request.outgoing,
      flatMap_append]
    simp only [append_assoc]
  · rcases mem_append.mp hf with hf | hf
    · exact hown.clean hout f hf
    · exact hclean f hf

namespace Connection

open Coro

variable (c : Connection) (n : ℕ) (req : Request)

/-- The head as it is framed on this connection. -/
def framed : OutBuffer := frameRequestHead c.headOut.clear req c.opt false

def headBytes : List Byte := (c.framed req).view 0 (c.framed req).size ++ req.stagedHeaders ++ crlf

/-- All a request comes to. -/
def requestBytes : List Byte := c.headBytes req ++ req.sentBody

/-- A part of it is on the wire: nothing at all, unless the head could be framed. -/
def Wrote (d : Connection) : Prop :=
  ∃ pre, pre <+: c.requestBytes req ∧ d.wire.sent = c.wire.sent ++ pre ∧
    (pre ≠ [] → req.error = none ∧ (c.framed req).err = none)

variable {c req} {d : Connection} {pre l : List Byte}

theorem wrote_of_sent_eq (h : d.wire.sent = c.wire.sent) : c.Wrote req d :=
  ⟨[], nil_prefix, h.trans (append_nil _).symm, fun h => absurd rfl h⟩

/-- Reading leaves the wire alone. -/
theorem Wrote.listens {e : Connection} (h : c.Wrote req d) (he : d.Listens e) : c.Wrote req e := by
  obtain ⟨pre, hpre, hd, hgood⟩ := h
  exact ⟨pre, hpre, (congrArg Wire.sent he.wire_eq).trans hd, hgood⟩

/-- What comes next is written, or the start of it is. -/
theorem stays_writeStaged (herr : req.error = none) (hout : (c.framed req).err = none)
    (hsent : d.wire.sent = c.wire.sent ++ pre) (hpre : pre ++ l <+: c.requestBytes req) :
    Stays (writeStaged l) d (c.Wrote req) fun _ e =>
      e.wire.sent = c.wire.sent ++ (pre ++ l) ∧ c.Wrote req e := by
  rw [Stays, writeStaged, Wire.write]
  cases d.wire.writes 0 with
  | none =>
    have hwritten : d.wire.sent ++ l = c.wire.sent ++ (pre ++ l) := by rw [hsent, append_assoc]
    have hwrote : c.Wrote req
      { d with wire := ⟨d.wire.sent ++ l, fun i => d.wire.writes (i + 1)⟩ } :=
      ⟨pre ++ l, hpre, hwritten, fun _ => ⟨herr, hout⟩⟩
    refine ⟨hwrote, fun t a heq => ?_⟩
    obtain ⟨rfl, -⟩ := Prod.mk.inj heq
    exact ⟨hwritten, hwrote⟩
  | some w =>
    refine ⟨⟨pre ++ l.take w.1, ?_, ?_, fun _ => ⟨herr, hout⟩⟩, by rintro _ _ ⟨⟩⟩
    · exact ((prefix_append_right_inj pre).mpr ( take_prefix _ l)).trans hpre
    · change d.wire.sent ++ l.take w.1 = _
      rw [hsent, append_assoc]

theorem stays_listens {α : Type} {m : Task α} (hm : Moves Listens m)
    (hsent : d.wire.sent = c.wire.sent ++ pre)
    (hwrote : c.Wrote req d) :
    Stays m d (c.Wrote req) fun _ e => e.wire.sent = c.wire.sent ++ pre ∧ c.Wrote req e := by
  obtain ⟨hstay, hret⟩ := hm.stays (I := c.Wrote req) fun e he => hwrote.listens he
  refine ⟨hstay, fun t a heq => ?_⟩
  have hlistens := hret t a heq
  exact ⟨(congrArg Wire.sent hlistens.wire_eq).trans hsent, hwrote.listens hlistens⟩

/-- The connection when the head has been framed. -/
theorem framed_begin (c : Connection) (req : Request) :
    ((c.ensureNode.begin false).frameHead req false).headOut = c.framed req ∧
      ((c.ensureNode.begin false).frameHead req false).wire = c.wire := by
  rw [ensureNode]
  split <;> exact ⟨rfl, rfl⟩

theorem stays_sendHead (herr : req.error = none) {headOnly : Bool} {tail : List Byte}
    (htail : (if !headOnly && 0 < req.bodyLen then req.bodyView else []) = tail)
    (hpre : c.headBytes req ++ tail <+: c.requestBytes req) :
    Stays (sendHead req false headOnly) c.ensureNode (c.Wrote req) fun _ e =>
      (c.framed req).err = none ∧ e.wire.sent = c.wire.sent ++ (c.headBytes req ++ tail) ∧
        c.Wrote req e := by
  obtain ⟨hhead, hwire⟩ := framed_begin c req
  refine stays_modify_bind (stays_get_bind ?_)
  have hsent : ((c.ensureNode.begin false).frameHead req false).wire.sent = c.wire.sent ++ [] := by
    rw [hwire, append_nil]
  rw [staged, hhead, htail]
  cases hout : (c.framed req).err with
  | some e => exact ⟨wrote_of_sent_eq (hwire ▸ rfl), fun _ _ heq => nomatch (Prod.mk.inj heq).2⟩
  | none =>
    obtain ⟨hstay, hret⟩ := stays_writeStaged herr hout hsent hpre
    exact ⟨hstay, fun t a heq => ⟨rfl, hret t a heq⟩⟩

/-- **What an exchange writes** is the start of the request, and all of it if it returns and waits
for nothing. -/
theorem stays_exchange (c : Connection) (req : Request) :
    Stays (exchange n req) c (c.Wrote req) fun _ d =>
      (req.expectContinue && 0 < req.bodyLen) = false → d.wire.sent = c.wire.sent ++
        c.requestBytes req := by
  refine Stays.bind (Q := fun _ d => c.Wrote req d ∧
    ((req.expectContinue && 0 < req.bodyLen) = false →
    d.wire.sent = c.wire.sent ++ c.requestBytes req)) ?_ ?_
  · rw [sendAndReadHeaders]
    split
    · exact stays_fail _ (wrote_of_sent_eq rfl)
    · rename_i herr
      refine stays_modify_bind ?_
      cases hwaits : req.expectContinue && decide (0 < req.bodyLen) with
      | false =>
        refine (stays_sendHead herr (show _ = req.sentBody by simp [Request.sentBody])
          prefix_rfl).bind ?_
        rintro - d ⟨-, hsent, hwrote⟩
        refine (stays_listens (listens_readHeaders n req.method false) hsent hwrote).bind ?_
        rintro - e ⟨hsent, hwrote⟩
        exact stays_pure hwrote ⟨hwrote, fun _ => hsent⟩
      | true =>
        have hpos : 0 < req.bodyLen := by simpa using (Bool.and_eq_true_iff.mp hwaits).2
        have hbytes : c.headBytes req ++ [] ++ req.bodyView = c.requestBytes req := by
          rw [requestBytes, Request.sentBody, if_pos hpos, append_nil]
        have hpre : c.headBytes req ++ [] <+: c.requestBytes req := hbytes ▸ prefix_append _ _
        refine (stays_sendHead herr (by simp) hpre).bind ?_
        rintro - d ⟨hout, hsent, hwrote⟩
        refine (stays_listens (listens_readHeaders n req.method true) hsent hwrote).bind ?_
        rintro b e ⟨hsent, hwrote⟩
        cases b with
        | false => exact ⟨hwrote, fun t a heq => ⟨(Prod.mk.inj heq).1 ▸ hwrote, nofun⟩⟩
        | true =>
          refine (stays_writeStaged herr hout hsent (hbytes ▸ prefix_rfl)).bind ?_
          rintro - f ⟨hsent, hwrote⟩
          refine (stays_listens (listens_readHeaders n req.method false) hsent hwrote).bind ?_
          rintro - g ⟨-, hwrote⟩
          exact stays_pure hwrote ⟨hwrote, nofun⟩
  · rintro - d ⟨hwrote, hsent⟩
    obtain ⟨hstay, hret⟩ := (listens_finish n).stays (I := c.Wrote req) fun e he =>
      hwrote.listens he
    refine ⟨hstay, fun t a heq hwaits => ?_⟩
    exact (congrArg Wire.sent (hret t a heq).wire_eq).trans (hsent hwaits)

end Connection

end Client

end Cornet.Http
