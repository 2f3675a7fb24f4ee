import Cornet.Http.Protocol

/-!
# Http/Url — absolute urls and the origins they name (`src/http/common/url.cc`)

    scheme://userinfo@host:port/path?query#fragment
                      └─ authority ─┘

A url is a record of views into its text; here a view is the text it shows.  Two urls name one
origin when scheme and port agree and the hosts differ at most in case.  `iequals` decides the last
by setting the case bit of **every** byte, letters or not, so it takes `^` for `~`, `[` for `{` and
`]` for `}`: `sameFold_of_iequals` says that nothing else can go wrong between valid hosts.
-/

namespace Cornet.Http

open List

/-- `scheme_t`. -/
inductive Scheme
  | http
  | https
  deriving DecidableEq, Repr

/-- `default_port`. -/
def Scheme.defaultPort : Scheme → ℕ
  | .http => 80
  | .https => 443

/-- `scheme_name`. -/
def Scheme.name : Scheme → List Byte
  | .http => ascii "http"
  | .https => ascii "https"

inductive UrlError
  | badUrl
  | unsupportedScheme
  | outputOverflow
  deriving DecidableEq, Repr

/-- `url_t`. -/
structure Url where
  authority : List Byte := []
  host : List Byte := []
  userinfo : List Byte := []
  path : List Byte := []
  query : List Byte := []
  scheme : Scheme := .http
  port : ℕ := 80
  explicitPort : Bool := false
  ipv6 : Bool := false
  deriving DecidableEq, Repr

/-! ## Searching -/

/-- `find` of one byte: what stands before it and behind it. -/
def splitFirst (b : Byte) (l : List Byte) : Option (List Byte × List Byte) :=
  match l.span (· != b) with
  | (_, []) => none
  | (before, _ :: after) => some (before, after)

/-- `rfind`. -/
def splitLast (b : Byte) (l : List Byte) : Option (List Byte × List Byte) :=
  (splitFirst b l.reverse).map fun (after, before) => (before.reverse, after.reverse)

/-- `find("://")`. -/
def splitScheme : List Byte → Option (List Byte × List Byte)
  | [] => none
  | b :: l =>
    if (b :: l).take 3 = ascii "://" then some ([], l.drop 2)
    else (splitScheme l).map fun (before, after) => (b :: before, after)

/-! ## Parsing -/

namespace Url

/-- A byte that may stand in a host. -/
def hostByte (b : Byte) : Bool := 0x20 < b && b < 0x7f && b ∉ ascii "/\\?#@"

/-- `valid_host`. -/
def validHost (host : List Byte) : Bool := host != [] && host.all hostByte

/-- `parse_port`. -/
def parsePort (text : List Byte) : Except UrlError ℕ :=
  if text = [] ∨ 5 < text.length ∨ ¬ text.all isDigit then .error .badUrl
  else if decimal text = 0 ∨ 0xffff < decimal text then .error .badUrl
  else .ok (decimal text)

/-- The host of an authority, whether it is an IPv6 literal, and the text of its port. -/
def hostPort (authority : List Byte) : Except UrlError (List Byte × Bool × Option (List Byte)) :=
  if authority.head? = some 0x5b then
    match splitFirst 0x5d authority with
    | none => .error .badUrl
    | some (host, []) => .ok (host.tail, true, none)
    | some (host, b :: after) =>
      if b = 0x3a then .ok (host.tail, true, some after) else .error .badUrl
  else
    match splitLast 0x3a authority with
    | some (host, port) => .ok (host, false, some port)
    | none => .ok (authority, false, none)

/-- The path and the query; the fragment stays behind. -/
def target (tail : List Byte) : List Byte × List Byte :=
  let pq := tail.takeWhile (· != 0x23)
  (splitFirst 0x3f pq).getD (pq, [])

/-- The port a url names, or the one its scheme implies. -/
def portOr (scheme : Scheme) : Option (List Byte) → Except UrlError ℕ
  | none => .ok scheme.defaultPort
  | some text => parsePort text

/-- Everything behind the scheme. -/
def parseRest (scheme : Scheme) (rest : List Byte) : Except UrlError Url :=
  let (full, tail) := rest.span fun b => b ∉ ascii "/?#"
  let (userinfo, authority) := (splitLast 0x40 full).getD ([], full)
  let (path, query) := target tail
  if authority = [] then .error .badUrl
  else
    match hostPort authority with
    | .error e => .error e
    | .ok (host, ipv6, portText) =>
      if !validHost host then .error .badUrl
      else
        match portOr scheme portText with
        | .error e => .error e
        | .ok port =>
          .ok { authority, host, userinfo, path, query, scheme, port,
                explicitPort := portText.isSome, ipv6 }

/-- `url_t::parse`. -/
def parse (raw : List Byte) : Except UrlError Url :=
  if raw.any fun b => b ≤ 0x20 || b == 0x7f then .error .badUrl
  else
    match splitScheme raw with
    | none | some ([], _) => .error .badUrl
    | some (name, rest) =>
      if iequals name (ascii "http") then parseRest .http rest
      else if iequals name (ascii "https") then parseRest .https rest
      else .error .unsupportedScheme

/-- `same_origin`. -/
def sameOrigin (u v : Url) : Bool :=
  u.scheme == v.scheme && u.port == v.port && iequals u.host v.host

/-- A `Location`, completed by the url it was returned for. -/
def absolute (base : Url) (location : List Byte) : List Byte :=
  if (splitScheme location).isSome then location
  else if location.take 2 = ascii "//" then base.scheme.name ++ ascii ":" ++ location
  else
    base.scheme.name ++ ascii "://" ++ base.authority ++
      if location.head? = some 0x2f then location
      else
        (match splitLast 0x2f base.path with
          | some (dir, _) => dir ++ ascii "/"
          | none => ascii "/") ++ location

/-- `write_absolute_url`. -/
def resolve (base : Url) (location : List Byte) (cap : ℕ) : Except UrlError (List Byte) :=
  if location = [] then .error .badUrl
  else if (base.absolute location).length ≤ cap then .ok (base.absolute location)
  else .error .outputOverflow

theorem length_le_of_resolve {base : Url} {location text : List Byte} {cap : ℕ}
    (h : base.resolve location cap = .ok text) : text.length ≤ cap := by
  rw [resolve] at h
  split_ifs at h with _ hle
  exact Except.ok.inj h ▸ hle

end Url

/-! ## What `iequals` confuses -/

/-- The ASCII letters in lower case, everything else as it is. -/
def asciiLower (b : Byte) : Byte := if 0x41 ≤ b ∧ b ≤ 0x5a then b + 0x20 else b

/-- Equal up to the case of ASCII letters. -/
def SameFold (a b : List Byte) : Prop := a.map asciiLower = b.map asciiLower

instance (a b : List Byte) : Decidable (SameFold a b) := inferInstanceAs (Decidable (_ = _))

/-- The bytes a host may have that `iequals` takes for another one. -/
def confusable (b : Byte) : Bool := b ∈ ascii "[]^{}~"

/-- **Same scheme, same port, same host but for case.** -/
def Url.SameOrigin (u v : Url) : Prop :=
  u.scheme = v.scheme ∧ u.port = v.port ∧ SameFold u.host v.host

instance (u v : Url) : Decidable (u.SameOrigin v) := inferInstanceAs (Decidable (_ ∧ _ ∧ _))

theorem Url.SameOrigin.trans {u v w : Url} (h₁ : u.SameOrigin v)
    (h₂ : v.SameOrigin w) : u.SameOrigin w :=
  ⟨h₁.1.trans h₂.1, h₁.2.1.trans h₂.2.1, Eq.trans h₁.2.2 h₂.2.2⟩

theorem Url.SameOrigin.refl (u : Url) : u.SameOrigin u := ⟨rfl, rfl, rfl⟩

/-- A property of every byte, checked byte by byte. -/
theorem forall_byte {P : Byte → Prop} (h : ∀ x : Fin 256, P (.ofNat x)) (b : Byte) : P b := by
  have hb := h ⟨b.toNat, b.toNat_lt⟩
  simpa only [UInt8.ofNat_toNat] using hb

/-- The case bit hides the case of a letter. -/
theorem or_asciiLower (x : Byte) : asciiLower x ||| 0x20 = x ||| 0x20 := by
  have hall : ∀ x : Fin 256, asciiLower (.ofNat x) ||| 0x20 = UInt8.ofNat x ||| 0x20 :=
    by decide +kernel
  exact forall_byte (P := fun x => asciiLower x ||| 0x20 = x ||| 0x20) hall x

theorem SameFold.lowered_eq {a b : List Byte} (h : SameFold a b) : lowered a = lowered b := by
  have hlowered (l : List Byte) : lowered l = lowered (l.map asciiLower) := by
    rw [lowered, lowered, map_map]
    exact map_congr_left fun x _ => (or_asciiLower x).symm
  rw [hlowered a, h, ← hlowered b]

/-- Names that `iequals` identifies are the same field. -/
theorem fieldFromName_congr {a b : List Byte} (h : lowered a = lowered b) : fieldFromName
    a = fieldFromName b := by
  have hlen : a.length = b.length := by simpa [lowered] using congrArg List.length h
  have hwords (lit : List Byte) : sameWords a lit = sameWords b lit := by
    have htake : lowered (a.take 8) = lowered (b.take 8) := by
      rw [lowered, map_take, ← lowered, h, lowered, ← map_take, lowered]
    have hdrop : lowered (a.drop (lit.length - 8)) = lowered (b.drop (lit.length - 8)) := by
      rw [lowered, map_drop, ← lowered, h, lowered, ← map_drop, lowered]
    rw [sameWords, sameWords, hlen, htake, hdrop]
  simp only [fieldFromName, hwords]

/-- A name is recognized whatever its case. -/
theorem SameFold.fieldFromName_eq {a b : List Byte} (h : SameFold a b) : fieldFromName
    a = fieldFromName b :=
  fieldFromName_congr h.lowered_eq

/-- Setting the case bit of a byte can be undone in two ways. -/
theorem eq_or_of_case (x : Byte) : x = x ||| 0x20 ∨ x = (x ||| 0x20) ^^^ 0x20 := by
  have hall : ∀ x : Fin 256, UInt8.ofNat x = UInt8.ofNat x ||| 0x20 ∨
      UInt8.ofNat x = (UInt8.ofNat x ||| 0x20) ^^^ 0x20 := by
    decide +kernel
  exact forall_byte (P := fun x => x = x ||| 0x20 ∨ x = (x ||| 0x20) ^^^ 0x20) hall x

/-- The two bytes with one case bit are the two cases of a letter, unless they are confusable or one
of them cannot stand in a host. -/
theorem asciiLower_case {z : Byte} (h₁ : Url.hostByte z = true)
    (h₂ : Url.hostByte (z ^^^ 0x20) = true)
    (hplain : confusable z = false ∨ confusable (z ^^^ 0x20) = false) :
    asciiLower z = asciiLower (z ^^^ 0x20) := by
  have hall : ∀ z : Fin 256, Url.hostByte (.ofNat z) = true →
    Url.hostByte (UInt8.ofNat z ^^^ 0x20) = true →
      confusable (.ofNat z) = false ∨ confusable (UInt8.ofNat z ^^^ 0x20) = false →
      asciiLower (.ofNat z) = asciiLower (UInt8.ofNat z ^^^ 0x20) := by
    decide +kernel
  exact forall_byte (P := fun z => Url.hostByte z = true → Url.hostByte (z ^^^ 0x20) = true →
    confusable z = false ∨ confusable (z ^^^ 0x20) = false → asciiLower z = asciiLower (z ^^^ 0x20))
    hall z h₁ h₂ hplain

/-- A byte of a host that is not confusable is one of the two cases of any other it matches. -/
theorem asciiLower_eq_of_or {x y : Byte} (hx : Url.hostByte x = true) (hy : Url.hostByte y = true)
    (hplain : confusable x = false) (h : x ||| 0x20 = y ||| 0x20) : asciiLower x = asciiLower
      y := by
  have hx' := eq_or_of_case x
  have hy' := eq_or_of_case y
  rw [← h] at hy'
  generalize x ||| 0x20 = z at hx' hy'
  rcases hx' with rfl | rfl <;> rcases hy' with rfl | rfl
  · rfl
  · exact asciiLower_case hx hy (.inl hplain)
  · exact (asciiLower_case hy hx (.inr hplain)).symm
  · rfl

/-- **Valid hosts that `iequals` finds equal are equal but for case**, unless the first one has a
confusable byte. -/
theorem sameFold_of_iequals : ∀ {a b : List Byte}, a.all Url.hostByte = true →
    b.all Url.hostByte = true →
    (∀ x ∈ a, confusable x = false) → iequals a b = true → SameFold a b
  | [], [], _, _, _, _ => rfl
  | [], _ :: _, _, _, _, h => by simp [iequals, lowered] at h
  | _ :: _, [], _, _, _, h => by simp [iequals, lowered] at h
  | x :: a, y :: b, ha, hb, hplain, h => by
      simp only [all_cons, Bool.and_eq_true] at ha hb
      simp only [iequals, lowered, map_cons, beq_iff_eq, List.cons.injEq] at h
      have htail : SameFold a b := sameFold_of_iequals ha.2 hb.2
        (fun z hz => hplain z (mem_cons_of_mem _ hz)) (by simpa [iequals, lowered] using h.2)
      have hhead := asciiLower_eq_of_or ha.1 hb.1 (hplain x mem_cons_self) h.1
      exact congrArg₂ List.cons hhead htail

/-- Only a confusable byte becomes one in lower case. -/
theorem eq_of_confusable {x : Byte} (h : confusable (asciiLower x) = true) : asciiLower x = x := by
  have hall : ∀ x : Fin 256, confusable (asciiLower (.ofNat x)) = true →
      asciiLower (.ofNat x) = UInt8.ofNat x := by
    decide +kernel
  exact forall_byte (P := fun x => confusable (asciiLower x) = true → asciiLower x = x) hall x h

theorem asciiLower_confusable {x : Byte} (h : confusable x = true) : asciiLower x = x := by
  have hall : ∀ x ∈ ascii "[]^{}~", asciiLower x = x := by decide +kernel
  exact hall x (by simpa [confusable] using h)

/-- A host that differs from a plain one in case only is plain. -/
theorem SameFold.plain {a b : List Byte} (h : SameFold a b) (ha : ∀ x ∈ a, confusable x = false) :
    ∀ x ∈ b, confusable x = false := by
  intro y hy
  by_contra hc
  have hc : confusable y = true := by simpa using hc
  have hmem : asciiLower y ∈ a.map asciiLower := h ▸ mem_map_of_mem hy
  obtain ⟨x, hx, hxy⟩ := mem_map.mp hmem
  rw [asciiLower_confusable hc] at hxy
  have hxeq : asciiLower x = x := eq_of_confusable (hxy ▸ hc)
  rw [← hxy, hxeq, ha x hx] at hc
  cases hc

namespace Url

theorem validHost_of_parseRest {s : Scheme} {rest : List Byte} {u : Url}
    (h : parseRest s rest = .ok u) :
    u.host.all hostByte = true := by
  unfold parseRest at h
  dsimp only at h
  split at h
  · cases h
  · split at h
    · cases h
    · split at h
      · cases h
      · rename_i hvalid
        split at h
        · cases h
        · obtain rfl := Except.ok.inj h
          simp only [validHost, Bool.not_eq_true', Bool.not_eq_false, Bool.and_eq_true] at hvalid
          exact hvalid.2

theorem validHost_of_parse {raw : List Byte} {u : Url} (h : parse raw = .ok u) :
    u.host.all hostByte = true := by
  unfold parse at h
  split at h
  · cases h
  · split at h
    · cases h
    · cases h
    · split at h
      · exact validHost_of_parseRest h
      · split at h
        · exact validHost_of_parseRest h
        · cases h

/-! ### A url shows parts of its text -/

theorem sublist_of_splitFirst {b : Byte} {l before after : List Byte}
    (h : splitFirst b l = some (before, after)) : before.Sublist l ∧ after.Sublist l := by
  rw [splitFirst, span_eq_takeWhile_dropWhile] at h
  split at h
  · cases h
  · rename_i x y z heq
    obtain ⟨hx, hz⟩ := Prod.mk.inj (Option.some.inj h)
    obtain ⟨htake, hdrop⟩ := Prod.mk.inj heq
    refine ⟨?_, ?_⟩
    · rw [← hx, ← htake]
      exact takeWhile_sublist _
    · rw [← hz]
      exact (sublist_cons_self _ _).trans (hdrop ▸ dropWhile_sublist _)

theorem sublist_of_splitLast {b : Byte} {l before after : List Byte}
    (h : splitLast b l = some (before, after)) : before.Sublist l ∧ after.Sublist l := by
  rw [splitLast, Option.map_eq_some_iff] at h
  obtain ⟨⟨x, y⟩, hsplit, heq⟩ := h
  obtain ⟨rfl, rfl⟩ := Prod.mk.inj heq
  have hsub := sublist_of_splitFirst hsplit
  exact ⟨reverse_reverse l ▸ hsub.2.reverse, reverse_reverse l ▸ hsub.1.reverse⟩

theorem sublist_of_splitScheme : ∀ {l before after : List Byte},
    splitScheme l = some (before, after) → after.Sublist l
  | [], _, _, h => by cases h
  | b :: l, before, after, h => by
      rw [splitScheme] at h
      split at h
      · obtain ⟨-, rfl⟩ := Prod.mk.inj (Option.some.inj h)
        exact (drop_sublist 2 l).trans (sublist_cons_self b l)
      · rw [Option.map_eq_some_iff] at h
        obtain ⟨⟨x, y⟩, hsplit, heq⟩ := h
        obtain ⟨-, rfl⟩ := Prod.mk.inj heq
        exact (sublist_of_splitScheme hsplit).trans (sublist_cons_self b l)

/-- The parts of a url that a request is made of are parts of this text. -/
structure ShownBy (u : Url) (text : List Byte) : Prop where
  authority : u.authority.Sublist text
  path : u.path.Sublist text
  query : u.query.Sublist text

theorem ShownBy.mono {u : Url} {text text' : List Byte} (h : u.ShownBy text)
    (hsub : text.Sublist text') :
    u.ShownBy text' :=
  ⟨h.authority.trans hsub, h.path.trans hsub, h.query.trans hsub⟩

theorem sublist_target (tail : List Byte) : (target tail).1.Sublist tail ∧
    (target tail).2.Sublist tail := by
  rw [target]
  cases hsplit : splitFirst 0x3f _ with
  | none => exact ⟨takeWhile_sublist _, nil_sublist _⟩
  | some r =>
    obtain ⟨h₁, h₂⟩ := sublist_of_splitFirst hsplit
    exact ⟨h₁.trans (takeWhile_sublist _), h₂.trans (takeWhile_sublist _)⟩

theorem shownBy_of_parseRest {s : Scheme} {rest : List Byte} {u : Url}
    (h : parseRest s rest = .ok u) :
    u.ShownBy rest := by
  unfold parseRest at h
  dsimp only at h
  split at h
  · cases h
  · split at h
    · cases h
    · split at h
      · cases h
      · split at h
        · cases h
        · obtain rfl := Except.ok.inj h
          rw [span_eq_takeWhile_dropWhile]
          obtain ⟨hpath, hquery⟩ := sublist_target (rest.dropWhile fun b => b ∉ ascii "/?#")
          refine ⟨?_, hpath.trans (dropWhile_sublist _), hquery.trans (dropWhile_sublist _)⟩
          cases hsplit : splitLast 0x40 _ with
          | none => exact takeWhile_sublist _
          | some r => exact (sublist_of_splitLast hsplit).2.trans (takeWhile_sublist _)

/-- **A url is made of parts of its text**, and all of that is visible. -/
theorem shownBy_of_parse {raw : List Byte} {u : Url} (h : parse raw = .ok u) :
    u.ShownBy raw ∧ ∀ b ∈ raw, 0x20 < b := by
  unfold parse at h
  split at h
  · cases h
  · rename_i hvisible
    refine ⟨?_, fun b hb => ?_⟩
    · split at h
      · cases h
      · cases h
      · rename_i hsplit
        split at h
        · exact (shownBy_of_parseRest h).mono (sublist_of_splitScheme hsplit)
        · split at h
          · exact (shownBy_of_parseRest h).mono (sublist_of_splitScheme hsplit)
          · cases h
    · simp only [any_eq_true, not_exists, not_and, Bool.or_eq_true, decide_eq_true_eq,
        not_or] at hvisible
      exact UInt8.not_le.mp (hvisible b hb).1

/-- A target `same_origin` accepts names the same origin. -/
theorem SameOrigin.of_sameOrigin {u v : Url} (h : u.sameOrigin v = true)
    (hu : u.host.all hostByte = true)
    (hv : v.host.all hostByte = true) (hplain : ∀ x ∈ v.host, confusable x = false) : v.SameOrigin
      u := by
  simp only [sameOrigin, Bool.and_eq_true, beq_iff_eq] at h
  refine ⟨h.1.1.symm, h.1.2.symm, sameFold_of_iequals hv hu hplain ?_⟩
  rw [iequals, beq_iff_eq] at h ⊢
  exact h.2.symm

end Url

end Cornet.Http
