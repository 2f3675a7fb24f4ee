import Cornet.Http.Client.Trail

/-!
# Http/Client/Redirect — where the credentials of a request go

    url₀ ─ 302 ─▸ url₁ ─ 307 ─▸ url₂ …          scheme, port and host of each = those of url₀ ?

A redirect across origins is not followed for a request that carries `Authorization`.  So such a
request stays at the origin it was made for, through any chain of redirects
(`sameOrigin_of_authorization`) — when its host has no byte that `iequals` confuses with another
one.  `Cookie` is not looked for, and goes wherever the peers send it.
-/

namespace Cornet.Http.Client

/-! ## Recognizing credentials -/

/-- A header of this name, in any case. -/
def RequestOp.Writes (op : RequestOp) (name : String) : Prop :=
  ∃ n ∈ op.name, SameFold n (ascii name)

instance (op : RequestOp) (name : String) : Decidable (op.Writes name) :=
  inferInstanceAs (Decidable (∃ n ∈ op.name, SameFold n (ascii name)))

/-- Only one field of the table has this name. -/
theorem eq_authorization {f : Field}
    (h : ∃ n ∈ f.name.map ascii, SameFold n (ascii "Authorization")) :
    f = .authorization := by
  revert h
  cases f <;> decide

theorem RequestOp.Writes.field_eq {op : RequestOp} (h : op.Writes "Authorization") :
    op.field = some .authorization := by
  cases op with
  | header f v => exact congrArg some (eq_authorization h)
  | headerU64 f v => exact congrArg some (eq_authorization h)
  | headerNamed n v =>
    obtain ⟨n', hn', hfold⟩ := h
    obtain rfl := Option.some.inj hn'
    exact congrArg some (hfold.fieldFromName_eq.trans (by decide))
  | _ =>
    obtain ⟨n, hn, -⟩ := h
    cases hn

/-- A header that was noted stays noted. -/
theorem Saw.note_authorization {s : Saw} (h : s.authorization = true) (f : Field) :
    (s.note f).authorization = true := by
  cases f <;> first | exact h | rfl

/-- What a call does to the flags. -/
theorem Request.saw_call (req : Request) (op : RequestOp) :
    (req.call op).saw = op.field.elim req.saw req.saw.note := by
  cases op with
  | body data => exact (req.sameHead_body data).saw_eq
  | bodyStatic data => exact (req.sameHead_bodyStatic data).saw_eq
  | _ => rfl

theorem Request.saw_authorization_call {req : Request} (op : RequestOp)
    (h : req.saw.authorization = true ∨ op.field = some .authorization) :
    (req.call op).saw.authorization = true := by
  rw [saw_call]
  rcases h with h | h
  · cases op.field with
    | none => exact h
    | some f => exact Saw.note_authorization h f
  · rw [h]
    rfl

theorem Request.saw_authorization_build : ∀ {ops : List RequestOp} {req : Request},
    (req.saw.authorization = true ∨ ∃ op ∈ ops, op.field = some .authorization) →
    (req.build ops).saw.authorization = true
  | [], req, h => by
      rcases h with h | ⟨op, hop, -⟩
      · exact h
      · cases hop
  | op :: ops, req, h => by
      refine @saw_authorization_build ops (req.call op) ?_
      rcases h with h | ⟨op', hop', hfield⟩
      · exact .inl (saw_authorization_call op (.inl h))
      · rcases List.mem_cons.mp hop' with rfl | hop'
        · exact .inl (saw_authorization_call op' (.inr hfield))
        · exact .inr ⟨op', hop', hfield⟩

theorem Request.url_call (req : Request) (op : RequestOp) : (req.call op).url = req.url := by
  cases op with
  | body data => exact (req.sameHead_body data).url_eq
  | bodyStatic data => exact (req.sameHead_bodyStatic data).url_eq
  | _ => rfl

theorem Request.url_build : ∀ (ops : List RequestOp) (req : Request), (req.build ops).url = req.url
  | [], _ => rfl
  | op :: ops, req => (url_build ops (req.call op)).trans (url_call req op)

/-! ## Following -/

/-- A request that stays where `url` is. -/
structure Homed (url : Url) (req : Request) : Prop where
  saw : req.saw.authorization = true
  valid : req.url.host.all Url.hostByte = true
  plain : ∀ b ∈ req.url.host, confusable b = false
  origin : url.SameOrigin req.url

/-- A redirect leaves it there. -/
theorem Homed.follow {url : Url} {req req' : Request} {resp : Response} (h : Homed url req)
    (hfollow : follow req resp = some req') : Homed url req' := by
  obtain ⟨⟨text, -, hparse⟩, hallowed, heq⟩ := follows_of_follow hfollow
  have hsaw : req'.saw = req.saw := heq ▸ req.saw_rewritten _
  have hsame := hallowed.resolve_right (by rw [h.saw]; nofun)
  have hvalid := Url.validHost_of_parse hparse
  have horigin := Url.SameOrigin.of_sameOrigin hsame hvalid h.valid h.plain
  exact ⟨hsaw ▸ h.saw, hvalid, horigin.2.2.plain h.plain, h.origin.trans horigin⟩

/-- The request a chain of calls makes. -/
def Request.made (m : Server.Method) (url : Url) (hdrBytes : ℕ) (ops : List RequestOp) : Request :=
  (make m url hdrBytes).build ops

/-- **A request with `Authorization` stays at its origin**: whatever the pool gives and the peers
answer, every exchange of it goes to the scheme, the port and the host its url names. -/
theorem sameOrigin_of_authorization {raw : List Byte} {url : Url} {ops : List RequestOp}
    {cl : HttpClient}
    {m : Server.Method} {hdrBytes : ℕ} (hurl : Url.parse raw = .ok url)
    (hcond : cl.redirects (.made m url hdrBytes ops) = 0 ∨
      (∃ op ∈ ops, op.Writes "Authorization") ∧ ∀ b ∈ url.host, confusable b = false)
    (n : ℕ) (pool : ℕ → Except ReadError Lease) :
    ∀ a ∈ (cl.send n (.made m url hdrBytes ops) { pool }).1.log, url.SameOrigin a.req.url := by
  have hmade : (Request.made m url hdrBytes ops).url = url := Request.url_build ops _
  have htrail := trail_send cl n (.made m url hdrBytes ops) pool
  rcases hcond with hzero | ⟨⟨op, hop, hwrites⟩, hplain⟩
  · rw [hzero] at htrail
    cases htrail with
    | last hlog =>
      intro a ha
      rw [(hlog.issued a ha).req_eq, hmade]
      exact .refl url
  · have hsaw : (Request.made m url hdrBytes ops).saw.authorization = true :=
      Request.saw_authorization_build (.inr ⟨op, hop, hwrites.field_eq⟩)
    have hhomed : Homed url (.made m url hdrBytes ops) := by
      refine ⟨hsaw, ?_, ?_, ?_⟩ <;> rw [hmade]
      · exact Url.validHost_of_parse hurl
      · exact hplain
      · exact .refl url
    have hall := htrail.forall_req hhomed fun _ _ _ h hfollow => h.follow hfollow
    exact fun a ha => (hall a ha).origin

/-! ## Runs -/

/-- A fresh connection to a peer that sends this. -/
def Lease.fresh (items : List Item) : Lease :=
  ⟨.adopt {} { inbox := bytesOf items } items, false, nofun⟩

/-- A header section: the start line, a line for each field, an empty line. -/
def headItems (line : List Byte) (fields : List (List Byte × List Byte)) (facts : Facts) : List
    Item :=
  [.call .messageBegin, .raw line] ++
    fields.flatMap (fun f => [.run .field f.1, .call .fieldComplete, .raw (ascii ": "),
      .run .value f.2,
      .call .valueComplete, .raw crlf]) ++
    [.raw crlf, .call (.headersComplete facts)]

/-- A response without a body. -/
def answered (status : UInt16) (fields : List (List Byte × List Byte)) : List Item :=
  headItems (ascii "HTTP/1.1 " ++ writeU64 status.toNat ++ ascii " -\r\n")
    ((ascii "Content-Length", ascii "0") :: fields) { status := ⟨status⟩, version := .http11 } ++
    [.call .messageComplete]

/-- The first peer redirects, the others answer. -/
def redirecting (status : UInt16) (location : String) : ℕ → Except ReadError Lease
  | 0 => .ok (.fresh (answered status [(ascii "Location", ascii location)]))
  | _ => .ok (.fresh (answered 200 []))

/-- The url of a text. -/
def urlOf (text : String) : Url := (Url.parse (ascii text)).toOption.getD {}

/-- The record of a GET that is redirected once. -/
def redirectedGet (url location : String) (ops : List RequestOp) : List Attempt :=
  (HttpClient.send { maxRedirects := 1 } 4 (.made .get (urlOf url) 4096 ops)
    { pool := redirecting 302 location }).1.log

/-- `sameOrigin_of_authorization` at a host in another case: the redirect is followed. -/
theorem sameOrigin_of_authorization_case :
    (redirectedGet "http://a.test/" "http://A.TEST:80/x"
        [.headerNamed (ascii "aUTHORIZATION") (ascii "k"),
          .header .cookie (ascii "id=7")]).length = 2 ∧
      ∀ a ∈ redirectedGet "http://a.test/" "http://A.TEST:80/x"
        [.headerNamed (ascii "aUTHORIZATION") (ascii "k"), .header .cookie (ascii "id=7")],
        (urlOf "http://a.test/").SameOrigin a.req.url :=
  ⟨by decide +kernel,
    sameOrigin_of_authorization (show Url.parse (ascii "http://a.test/") = _ by decide +kernel)
      (.inr ⟨by decide +kernel, by decide +kernel⟩) 4 (redirecting 302 "http://A.TEST:80/x")⟩

/-- **Cookies cross origins**, and so does `Authorization` between hosts that `iequals` confuses. -/
theorem credentials_cross_origins :
    (∃ a ∈ redirectedGet "http://a.test/" "http://b.test/" [.header .cookie (ascii "id=7")],
        ¬ (urlOf "http://a.test/").SameOrigin a.req.url ∧
          ascii "Cookie: id=7\r\n" <:+: a.after.wire.sent) ∧
      ∃ a ∈ redirectedGet "http://a^/" "http://a~/" [.header .authorization (ascii "k")],
        ¬ (urlOf "http://a^/").SameOrigin a.req.url ∧
          ascii "Authorization: k\r\n" <:+: a.after.wire.sent := by
  decide +kernel

end Cornet.Http.Client
